import Skepticoin.Lib.Duplex
import Skepticoin.Networking.Thread.Broadcast

namespace Skepticoin

open Guard FMap Effect

-- A message as it is on its way.
abbrev Envelope := MessageHeader × Message

def Inventory.without (inventory : Inventory) (hash : Hash) : Inventory :=
  { inventory with inventory_messages := remove_from_inventory hash inventory.inventory_messages }

namespace NetworkingThread

variable {crypto : Crypto} {self after : NetworkingThread} {moment : Moment} {sock : Nat} {header : MessageHeader}

-- What has been sent on a connection in between.
def answered (before after : NetworkingThread) (sock : Nat) : List Envelope :=
  (after.sent.drop before.sent.length).filterMap fun entry => if entry.1 = sock then some entry.2 else none

-- One end of a connection, for the other end. The moments are those at which it
-- handles one message after another.
def receive (crypto : Crypto) (moments : Nat → Moment) (sock : Nat) :
    Duplex.Party (Nat × NetworkingThread) Envelope Envelope := fun state envelope =>
  let after := (handle_remote_peer_message crypto (moments state.1) sock envelope.1 envelope.2 state.2).2
  ((state.1 + 1, after), answered state.2 after sock)

-- The connection is established.
structure Open (thread : NetworkingThread) (sock : Nat) : Prop where
  selected : sock ∈ thread.local_peer.selector
  received : thread.local_peer.Received sock

-- The envelopes have been sent, and nothing else.
def Sends (before after : NetworkingThread) (sock : Nat) (envelopes : List Envelope) : Prop :=
  after.sent = before.sent ++ envelopes.map fun envelope => (sock, envelope)

theorem Sends.answered {envelopes : List Envelope} (h : Sends self after sock envelopes) :
    answered self after sock = envelopes := by
  have hsame : (fun entry : Nat × Envelope => if entry.1 = sock then some entry.2 else none) ∘
      (fun envelope : Envelope => (sock, envelope)) = some := by
    funext envelope
    exact if_pos rfl
  rw [NetworkingThread.answered, h, List.drop_left, List.filterMap_map, hsame, List.filterMap_some]

-- A reply is in response to a message, and can be responded to.
structure Replies (prev_header : MessageHeader) (message : Message) (envelope : Envelope) : Prop where
  message : envelope.2 = message
  response : envelope.1.in_response_to = prev_header.id
  id : envelope.1.id ≠ 0

section Sending

theorem sends_sending (self : NetworkingThread) (moment : Moment) (sock : Nat) (message : Message)
    (prev_header : MessageHeader) :
    ∃ envelope, Sends self (self.sending moment sock message (some prev_header)) sock [envelope] ∧
      Replies prev_header message envelope :=
  ⟨_, rfl, rfl, rfl, Nat.succ_ne_zero _⟩

def sending_all (self : NetworkingThread) (moment : Moment) (sock : Nat) (sent : List Sent) : NetworkingThread :=
  sent.foldl (fun self entry => self.sending moment sock entry.2 (some entry.1)) self

theorem sending_all_parts (self : NetworkingThread) (moment : Moment) (sock : Nat) (sent : List Sent) :
    (self.sending_all moment sock sent).local_peer = self.local_peer ∧
      (self.sending_all moment sock sent).node = self.node ∧
      (self.sending_all moment sock sent).fetching = self.fetching := by
  induction sent generalizing self with
  | nil => exact ⟨rfl, rfl, rfl⟩
  | cons entry sent ih => exact ih (self.sending moment sock entry.2 (some entry.1))

theorem sends_sending_all (self : NetworkingThread) (moment : Moment) (sock : Nat) (sent : List Sent) :
    ∃ envelopes, Sends self (self.sending_all moment sock sent) sock envelopes ∧
      List.Forall₂ (fun entry envelope => Replies entry.1 entry.2 envelope) sent envelopes := by
  induction sent generalizing self with
  | nil => exact ⟨[], (List.append_nil _).symm, .nil⟩
  | cons entry sent ih =>
      obtain ⟨envelope, hfirst, hreply⟩ := sends_sending self moment sock entry.2 entry.1
      obtain ⟨envelopes, hrest, hreplies⟩ := ih (self.sending moment sock entry.2 (some entry.1))
      refine ⟨envelope :: envelopes, ?_, .cons hreply hreplies⟩
      rw [Sends] at hfirst hrest ⊢
      rw [hfirst, List.append_assoc] at hrest
      exact hrest

theorem send_all_run (self : NetworkingThread) (moment : Moment) (sock : Nat) (sent : List Sent) :
    forEach (fun entry => send_message moment sock entry.2 (some entry.1)) sent self =
      (.ok (), self.sending_all moment sock sent) :=
  forEach_run_ok (fun thread (entry : Sent) => sending thread moment sock entry.2 (some entry.1))
    fun _ entry _ _ => send_message_run _ moment sock entry.2 (some entry.1)

end Sending

-- What becomes of the messages on a connection that is established.
section Handling

theorem handle_run (hopen : self.Open sock) {message : Message} {rest : Action NetworkingThread PyError Unit}
    (hrest : handle_message_received crypto moment sock header message = do
      let remote_peer ← on_local_peer (LocalPeer.connection sock)
      raw (raiseIf (remote_peer.hello_received = false) (.Exception "First message must be Hello"))
      rest) (hrun : rest self = (.ok (), after)) :
    handle_remote_peer_message crypto moment sock header message self = (.ok (), after) := by
  obtain ⟨remote_peer, hpeer, hreceived⟩ := hopen.received
  have hall : handle_message_received crypto moment sock header message self = (.ok (), after) := by
    rw [hrest, bind_run_ok (connection_run hpeer), hreceived]
    exact hrun
  rw [handle_remote_peer_message, hall]

theorem get_blocks_run (hopen : self.Open sock) {message : GetBlocksMessage} {reply : InventoryMessage}
    (hreply : Skepticoin.handle_get_blocks_message_received crypto self.node.chain_manager.coinstate message =
      .ok reply) :
    handle_remote_peer_message crypto moment sock header (.GetBlocks message) self =
      (.ok (), self.sending moment sock (.Inventory reply) (some header)) := by
  refine handle_run hopen rfl (?_ : handle_get_blocks_message_received crypto moment sock header message self = _)
  rw [handle_get_blocks_message_received, bind_run_ok (read_run _), hreply, bind_run_ok (raw_run _ _)]
  exact send_message_run self moment sock _ _

theorem get_data_run (hopen : self.Open sock) {hash : Hash} {block : Block}
    (hknown : self.node.chain_manager.coinstate.block_by_hash.lookup hash = some block) :
    handle_remote_peer_message crypto moment sock header (.GetData ⟨DATA_BLOCK, hash⟩) self =
      (.ok (), self.sending moment sock (.Data ⟨DATA_BLOCK, .Block block⟩) (some header)) := by
  refine handle_run hopen rfl (?_ : handle_get_data_message_received moment sock header ⟨DATA_BLOCK, hash⟩ self = _)
  have hkind : raw (raiseIf (DATA_BLOCK ≠ DATA_BLOCK) PyError.NotImplementedError) self = (.ok (), self) := rfl
  rw [handle_get_data_message_received, bind_run_ok hkind, bind_run_ok (read_run _), hknown]
  exact send_message_run self moment sock _ _

theorem inventory_run (hopen : self.Open sock) {message : InventoryMessage} {inventory : Inventory} {sent : List Sent}
    (hhandled : Skepticoin.handle_inventory_message_received self.node.chain_manager.coinstate moment.current_time
      (self.fetching.inventories sock) header message = .ok (inventory, sent)) :
    handle_remote_peer_message crypto moment sock header (.Inventory message) self =
      (.ok (), (set_inventory sock inventory self).2.sending_all moment sock sent) := by
  refine handle_run hopen rfl (?_ : handle_inventory_message_received moment sock header message self = _)
  rw [handle_inventory_message_received, bind_run_ok (read_run _), hhandled, bind_run_ok (raw_run _ _)]
  have hset : set_inventory sock inventory self = (.ok (), (set_inventory sock inventory self).2) := rfl
  simp only []
  rw [bind_run_ok hset]
  exact send_all_run _ moment sock sent

-- A block that goes well is told to others, or not.
theorem block_run (hopen : self.Open sock) {block : Block} {hash : Hash} {node : Node} {told : List Block}
    (hhash : block.hash crypto = .ok hash)
    (hnode : Node.handle_block_received crypto ⟨moment.current_time, header, block⟩ self.node = (.ok (), node))
    (hbroadcast : node.broadcast = self.node.broadcast ++ told) (data_type : FixedBytes 2) :
    handle_remote_peer_message crypto moment sock header (.Data ⟨data_type, .Block block⟩) self =
      (.ok (), broadcasting_all { (set_inventory sock ((self.fetching.inventories sock).without hash) self).2 with
        node := node } moment told) := by
  refine handle_run hopen rfl (?_ : handle_block_received crypto moment sock header block self = _)
  generalize hinventory : (self.fetching.inventories sock).without hash = inventory
  have hset : set_inventory sock inventory self = (.ok (), (set_inventory sock inventory self).2) := rfl
  have htaken : on_node (Node.handle_block_received crypto ⟨moment.current_time, header, block⟩)
      (set_inventory sock inventory self).2 =
        (.ok (), { (set_inventory sock inventory self).2 with node := node }) := by
    have hsame : (set_inventory sock inventory self).2.node = self.node := rfl
    rw [on_node, within, hsame, hnode]
  rw [handle_block_received, bind_run_ok (read_run _), hhash, bind_run_ok (raw_run _ _)]
  simp only []
  rw [← Inventory.without, hinventory, bind_run_ok hset, bind_run_ok htaken, bind_run_ok (read_run _),
    broadcast_all_run, hbroadcast, List.drop_left]

end Handling

end NetworkingThread

end Skepticoin
