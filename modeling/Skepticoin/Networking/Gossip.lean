import Skepticoin.Datatypes.Equality
import Skepticoin.Networking.Thread.Answers

namespace Skepticoin

open Guard FMap Effect

namespace NetworkingThread

variable {crypto : Crypto} {self : NetworkingThread} {moment : Moment} {sock : Nat} {header : MessageHeader}

-- A node of a network: what it makes of a message, and what it sends.
def handles (crypto : Crypto) (moment : Moment) (sock : Nat) (envelope : Envelope) (self : NetworkingThread) :
    NetworkingThread × List (Nat × Envelope) :=
  let after := (handle_remote_peer_message crypto moment sock envelope.1 envelope.2 self).2
  (after, after.sent.drop self.sent.length)

-- The peers that are told of whatever is new.
structure Active (thread : NetworkingThread) (sock : Nat) : Prop where
  connected : ∃ key, thread.local_peer.connected_peers.lookup key = some sock
  greeted : (thread.conversations sock).hello_sent = true
  received : thread.local_peer.Received sock

theorem mem_active {order : DictOrder Nat} : sock ∈ self.get_active_peers order ↔ self.Active sock := by
  rw [get_active_peers, List.mem_filter, Bool.and_eq_true, hello_received_iff]
  have hvalues : sock ∈ order.values self.local_peer.connected_peers ↔
      ∃ key, self.local_peer.connected_peers.lookup key = some sock := by
    rw [DictOrder.values, Listing.values, List.mem_filterMap]
    constructor
    · rintro ⟨key, _, hkey⟩
      exact ⟨key, hkey⟩
    · rintro ⟨key, hkey⟩
      exact ⟨key, (order.mem _ key).mpr (Finmap.mem_of_lookup_eq_some hkey), hkey⟩
  rw [hvalues]
  exact ⟨fun h => ⟨h.1, h.2.1, h.2.2⟩, fun h => ⟨h.connected, h.greeted, h.received⟩⟩

theorem active_congr {before after : NetworkingThread} (h : SamePeers before after) :
    after.Active sock ↔ before.Active sock := by
  constructor
  · intro hactive
    exact ⟨h.local_peer ▸ hactive.connected, h.hello_sent sock ▸ hactive.greeted, h.local_peer ▸ hactive.received⟩
  · intro hactive
    refine ⟨?_, (h.hello_sent sock).trans hactive.greeted, ?_⟩
    · rw [h.local_peer]
      exact hactive.connected
    · rw [h.local_peer]
      exact hactive.received

theorem SamePeers.opened {before after : NetworkingThread} (h : SamePeers before after) (hopen : before.Open sock) :
    after.Open sock := by
  refine ⟨?_, ?_⟩
  · rw [h.local_peer]
    exact hopen.selected
  · rw [h.local_peer]
    exact hopen.received

def degree (thread : NetworkingThread) : Nat := thread.local_peer.connected_peers.keys.card

theorem active_length (self : NetworkingThread) (order : DictOrder Nat) :
    (self.get_active_peers order).length ≤ self.degree := by
  have hkeys : (order.keys self.local_peer.connected_peers).toFinset = self.local_peer.connected_peers.keys := by
    ext key
    rw [List.mem_toFinset, order.mem, Finmap.mem_keys]
  have hcount : (order.keys self.local_peer.connected_peers).length = self.degree := by
    rw [degree, ← hkeys, List.toFinset_card_of_nodup (order.nodup _)]
  calc (self.get_active_peers order).length
      ≤ (order.values self.local_peer.connected_peers).length := List.length_filter_le _ _
    _ ≤ (order.keys self.local_peer.connected_peers).length := List.length_filterMap_le _ _
    _ = self.degree := hcount

-- What goes out is the same message on every active connection.
structure Tells (thread : NetworkingThread) (message : DataMessage) (sent : List (Nat × Envelope)) : Prop where
  sock : ∀ sock, sock ∈ sent.map Prod.fst ↔ thread.Active sock
  count : sent.length ≤ thread.degree
  message : ∀ entry ∈ sent, entry.2.1.in_response_to = 0 ∧ entry.2.2 = .Data message

theorem broadcasting_sent (self : NetworkingThread) (moment : Moment) (message : DataMessage) :
    ∃ sent, (self.broadcasting moment message).sent = self.sent ++ sent ∧ self.Tells message sent := by
  have hloop : ∀ (active : List Nat) (thread : NetworkingThread), ∃ sent : List (Nat × Envelope),
      (active.foldl (fun thread sock => sending thread moment sock (.Data message) none) thread).sent =
        thread.sent ++ sent ∧ sent.map Prod.fst = active ∧
      ∀ entry ∈ sent, entry.2.1.in_response_to = 0 ∧ entry.2.2 = .Data message := by
    intro active
    induction active with
    | nil => exact fun thread => ⟨[], (List.append_nil _).symm, rfl, fun _ hmem => absurd hmem List.not_mem_nil⟩
    | cons sock active ih =>
        intro thread
        obtain ⟨sent, hsent, hsocks, hmessages⟩ := ih (thread.sending moment sock (.Data message) none)
        refine ⟨(sock, response_header moment.current_time ((thread.conversations sock).next_msg_id + 1)
          (moment.new_context thread.sent.length) none, .Data message) :: sent, ?_, congrArg (sock :: ·) hsocks,
          List.forall_mem_cons.mpr ⟨⟨rfl, rfl⟩, hmessages⟩⟩
        rw [List.foldl_cons, hsent, sending, List.append_assoc, List.singleton_append]
  obtain ⟨sent, hsent, hsocks, hmessages⟩ := hloop (self.get_active_peers moment.connected_order) self
  refine ⟨sent, hsent, fun sock => ?_, ?_, hmessages⟩
  · rw [hsocks]
    exact mem_active
  · have hlength := congrArg List.length hsocks
    rw [List.length_map] at hlength
    rw [hlength]
    exact active_length self _

section Blocks

variable {block : Block} {hash : Hash} {node : Node}

-- A block that is told to others.
theorem handles_told (hopen : self.Open sock) (hhash : block.hash crypto = .ok hash)
    (hnode : Node.handle_block_received crypto ⟨moment.current_time, header, block⟩ self.node = (.ok (), node))
    (hbroadcast : node.broadcast = self.node.broadcast ++ [block]) (data_type : FixedBytes 2) :
    ∃ after sent, handles crypto moment sock (header, .Data ⟨data_type, .Block block⟩) self = (after, sent) ∧
      SamePeers self after ∧ after.node = node ∧ self.Tells ⟨DATA_BLOCK, .Block block⟩ sent := by
  have hrun := block_run hopen hhash hnode hbroadcast data_type
  generalize hmiddle : ({ (set_inventory sock ((self.fetching.inventories sock).without hash) self).2 with
    node := node } : NetworkingThread) = middle at hrun
  have hpeers : SamePeers self middle := hmiddle ▸ ⟨rfl, fun _ => rfl⟩
  have hsame : middle.sent = self.sent ∧ middle.node = node := hmiddle ▸ ⟨rfl, rfl⟩
  obtain ⟨sent, hsent, htells⟩ := broadcasting_sent middle moment ⟨DATA_BLOCK, .Block block⟩
  have hbeside := beside_broadcasting middle moment ⟨DATA_BLOCK, .Block block⟩
  refine ⟨middle.broadcasting moment ⟨DATA_BLOCK, .Block block⟩, sent, ?_, hpeers.trans hbeside.toSamePeers,
    hbeside.node.trans hsame.2, ⟨fun other => (htells.sock other).trans (active_congr hpeers), ?_, htells.message⟩⟩
  · rw [handles, hrun]
    refine Prod.ext rfl ?_
    show (middle.broadcasting moment ⟨DATA_BLOCK, .Block block⟩).sent.drop self.sent.length = sent
    rw [hsent, hsame.1, List.drop_left]
  · have hcount := htells.count
    rw [degree, hpeers.local_peer] at hcount
    exact hcount

-- A block that is not.
theorem handles_silent (hopen : self.Open sock) (hhash : block.hash crypto = .ok hash)
    (hnode : Node.handle_block_received crypto ⟨moment.current_time, header, block⟩ self.node = (.ok (), node))
    (hbroadcast : node.broadcast = self.node.broadcast) (data_type : FixedBytes 2) :
    ∃ after, handles crypto moment sock (header, .Data ⟨data_type, .Block block⟩) self = (after, []) ∧
      SamePeers self after ∧ after.node = node := by
  have hrun := block_run hopen hhash hnode (hbroadcast.trans (List.append_nil _).symm) data_type
  rw [broadcasting_all_nil] at hrun
  have hhandles : handles crypto moment sock (header, .Data ⟨data_type, .Block block⟩) self =
      ({ (set_inventory sock ((self.fetching.inventories sock).without hash) self).2 with node := node }, []) := by
    rw [handles, hrun]
    exact Prod.ext rfl List.drop_length
  exact ⟨_, hhandles, ⟨rfl, fun _ => rfl⟩, rfl⟩

-- A block that is known leaves the node as it is.
theorem known_block_run (hhash : block.hash crypto = .ok hash)
    (hknown : hash ∈ self.node.chain_manager.coinstate.block_by_hash) (current_time : Nat) :
    Node.handle_block_received crypto ⟨current_time, header, block⟩ self.node = (.ok (), self.node) := by
  rw [Node.handle_block_received, bind_run_ok (read_run _), hhash, bind_run_ok (raw_run _ _), if_pos hknown]
  rfl

end Blocks

section Transactions

variable {transaction : Transaction}

theorem transaction_run (hopen : self.Open sock) {after : NetworkingThread} (data_type : FixedBytes 2)
    (hrun : handle_transaction_received crypto moment transaction self = (.ok (), after)) :
    handles crypto moment sock (header, .Data ⟨data_type, .Transaction transaction⟩) self =
      (after, after.sent.drop self.sent.length) := by
  have hall : handle_remote_peer_message crypto moment sock header
      (.Data ⟨data_type, .Transaction transaction⟩) self = (.ok (), after) :=
    handle_run hopen rfl hrun
  rw [handles, hall]

-- A transaction that is in the pool goes nowhere.
theorem handles_pooled (hopen : self.Open sock)
    (hpooled : transaction ∈ self.node.chain_manager.transaction_pool) (data_type : FixedBytes 2) :
    handles crypto moment sock (header, .Data ⟨data_type, .Transaction transaction⟩) self = (self, []) := by
  have hany : (self.node.chain_manager.transaction_pool.any fun pooled => pooled.eq transaction) = true :=
    List.any_eq_true.mpr ⟨transaction, hpooled, (transaction_eq_iff transaction transaction).mpr rfl⟩
  have hrun : handle_transaction_received crypto moment transaction self = (.ok (), self) := by
    rw [handle_transaction_received, bind_run_ok (read_run _), if_pos hany]
    rfl
  rw [transaction_run hopen data_type hrun, List.drop_length]

def pooling (self : NetworkingThread) (transaction : Transaction) : NetworkingThread :=
  { self with node := { self.node with chain_manager := { self.node.chain_manager with
      transaction_pool := self.node.chain_manager.transaction_pool ++ [transaction] } } }

-- A transaction that is taken is told to others.
theorem handles_taken (hopen : self.Open sock) {hash : Hash} (hhash : transaction.hash crypto = .ok hash)
    (hnew : ∀ pooled ∈ self.node.chain_manager.transaction_pool, pooled.eq transaction = false)
    (hvalid : self.node.chain_manager.validate_for_pool crypto transaction = .ok ()) (data_type : FixedBytes 2) :
    ∃ after sent, handles crypto moment sock (header, .Data ⟨data_type, .Transaction transaction⟩) self =
        (after, sent) ∧ SamePeers self after ∧ after.node = (self.pooling transaction).node ∧
      self.Tells ⟨DATA_TRANSACTION, .Transaction transaction⟩ sent := by
  have hany : ¬(self.node.chain_manager.transaction_pool.any fun pooled => pooled.eq transaction) = true := by
    rw [List.any_eq_true]
    rintro ⟨pooled, hmem, heq⟩
    rw [hnew pooled hmem] at heq
    cases heq
  have hadd : ChainManager.add_transaction_to_pool crypto transaction self.node.chain_manager =
      (.ok true, (self.pooling transaction).node.chain_manager) := by
    rw [ChainManager.add_transaction_to_pool, bind_run_ok (read_run _), hhash, bind_run_ok (raw_run _ _),
      succeeds_eq_ok_true.mpr hvalid, bind_run_ok (raw_run _ _)]
    rfl
  have hadded : on_node (Node.on_chain_manager (ChainManager.add_transaction_to_pool crypto transaction)) self =
      (.ok true, self.pooling transaction) := by
    rw [on_node, within, Node.on_chain_manager, within, hadd]
    rfl
  have hrun : handle_transaction_received crypto moment transaction self =
      (.ok (), (self.pooling transaction).broadcasting moment ⟨DATA_TRANSACTION, .Transaction transaction⟩) := by
    rw [handle_transaction_received, bind_run_ok (read_run _), if_neg hany, bind_run_ok hadded, if_pos rfl]
    exact broadcast_message_run _ _ _
  obtain ⟨sent, hsent, htells⟩ :=
    broadcasting_sent (self.pooling transaction) moment ⟨DATA_TRANSACTION, .Transaction transaction⟩
  have hbeside :=
    beside_broadcasting (self.pooling transaction) moment ⟨DATA_TRANSACTION, .Transaction transaction⟩
  refine ⟨_, sent, ?_, ⟨hbeside.local_peer, hbeside.hello_sent⟩, hbeside.node,
    ⟨fun other => (htells.sock other).trans (active_congr ⟨rfl, fun _ => rfl⟩), htells.count, htells.message⟩⟩
  rw [transaction_run hopen data_type hrun, hsent]
  exact Prod.ext rfl List.drop_left

end Transactions

end NetworkingThread

-- One node tells the other of whatever is new.
def TellsOn {ι : Type} (starts : ι → NetworkingThread) (wire : ι → Nat → Option (ι × Nat)) (i j : ι) : Prop :=
  ∃ sock sock', (starts i).Active sock ∧ wire i sock = some (j, sock')

section Sample

-- Two nodes that are connected to each other.
def pairedPeer : LocalPeer :=
  { LocalPeer.loaded [] 0 512 false with
    connections := [⟨⟨"10.0.0.1", 2412, .OUTGOING, none, 0⟩, true⟩]
    selector := {0}
    connected_peers := (∅ : Map PeerKey Nat).insert ("10.0.0.1", 2412, .OUTGOING) 0 }

def paired (node : Node) : NetworkingThread :=
  { NetworkingThread.started pairedPeer node none [] 0 with conversations := fun _ => ⟨true, 1, none, false⟩ }

def pairedWire (i : Bool) (sock : Nat) : Option (Bool × Nat) := if sock = 0 then some (!i, 0) else none

theorem paired_node (node : Node) : (paired node).node = node := rfl

theorem paired_open (node : Node) : (paired node).Open 0 := ⟨Finset.mem_singleton_self 0, _, rfl, rfl⟩

theorem paired_active (node : Node) : (paired node).Active 0 :=
  ⟨⟨("10.0.0.1", 2412, .OUTGOING), Finmap.lookup_insert _⟩, rfl, (paired_open node).received⟩

theorem paired_degree (node : Node) : (paired node).degree = 1 := by
  show (((∅ : Map PeerKey Nat).insert ("10.0.0.1", 2412, .OUTGOING) 0).keys).card = 1
  decide

theorem paired_wired (node : Node) (i : Bool) (sock : Nat) (port : Bool × Nat) (h : pairedWire i sock = some port) :
    (paired node).Open port.2 := by
  rw [← Option.some.inj (Option.ite_none_right_eq_some.mp h).2]
  exact paired_open node

end Sample

end Skepticoin
