import Skepticoin.Networking.Batch
import Skepticoin.Networking.LocalPeer
import Skepticoin.Networking.Node

namespace Skepticoin

open Guard FMap Effect

-- skepticoin/networking/params.py
def GET_PEERS_INTERVAL : Nat := 60 * 30

-- The part of the ipaddress module that reads a host back.
section Address

-- Up to three digits, and no zero in front of others.
def parse_octet (octet : List Char) : Option UInt8 :=
  if octet ≠ [] ∧ octet.all Char.isDigit ∧ octet.length ≤ 3 ∧ (octet = ['0'] ∨ octet.head? ≠ some '0') then
    let value := octet.foldl (fun value digit => 10 * value + (digit.toNat - '0'.toNat)) 0
    if value ≤ 255 then some (UInt8.ofNat value) else none
  else none

def parse_ipv4 (host : String) : Option Bytes :=
  let octets := host.toList.splitOn '.'
  if octets.length = 4 then octets.mapM parse_octet else none

-- IPv6Address("::FFFF:%s" % host), for a host in the dotted form
def ipv4_mapped_address (host : String) : Py IPv6Address :=
  match parse_ipv4 host with
  | none => .error (.ValueError ("::FFFF:" ++ host))
  | some ipv4 =>
    let packed := List.replicate 10 0x00 ++ [0xff, 0xff] ++ ipv4
    if h : packed.length = 16 then .ok ⟨packed, h⟩ else .error (.ValueError ("::FFFF:" ++ host))

end Address

-- What a connection remembers of its messages, beside the inventories.
structure Conversation where
  hello_sent : Bool
  next_msg_id : Nat
  last_get_peers_sent_at : Option Nat
  waiting_for_peers : Bool
  deriving DecidableEq

def Conversation.new : Conversation := ⟨false, 0, none, false⟩

def Inventory.new : Inventory := ⟨[], false, 0⟩

-- The networking thread as a whole: the local peer with its network manager,
-- the chain manager and the block store, what is being fetched, and the state
-- of each connection, by its socket. What has been handed to a connection is
-- kept in order.
structure NetworkingThread where
  local_peer : LocalPeer
  node : Node
  port : Option Nat
  version : Bytes
  fetching : Fetching Nat
  conversations : Nat → Conversation
  sent : List (Nat × MessageHeader × Message)

-- In which order a dictionary lists its keys.
structure DictOrder (ν : Type) where
  keys : Map PeerKey ν → List PeerKey
  nodup : ∀ m, (keys m).Nodup
  mem : ∀ m key, key ∈ keys m ↔ key ∈ m

def DictOrder.listing {ν : Type} (order : DictOrder ν) (m : Map PeerKey ν) : Listing := ⟨order.keys m, order.nodup m⟩

def DictOrder.values {ν : Type} (order : DictOrder ν) (m : Map PeerKey ν) : List ν := (order.listing m).values m

-- What is given from outside while the thread does something: the clock, random
-- contexts, the order of the dictionaries, which send buffers are empty, and
-- whether the peers cannot be written to disk.
structure Moment where
  current_time : Nat
  new_context : Nat → Nat
  connected_order : DictOrder Nat
  disconnected_order : DictOrder DisconnectedRemotePeer
  idle : Nat → Bool
  write_peers_raises : Bool

namespace NetworkingThread

variable (crypto : Crypto)

-- A new process, with the coinstate read from disk and the peers that were loaded.
def started (local_peer : LocalPeer) (node : Node) (port : Option Nat) (version : Bytes) (started_at : Nat) :
    NetworkingThread where
  local_peer := local_peer
  node := node
  port := port
  version := version
  fetching := ⟨started_at, [], fun _ => .new⟩
  conversations := fun _ => .new
  sent := []

def on_local_peer {α : Type} : Action LocalPeer PyError α → Action NetworkingThread PyError α :=
  within NetworkingThread.local_peer fun self local_peer => { self with local_peer }

def on_node {α : Type} : Action Node PyError α → Action NetworkingThread PyError α :=
  within NetworkingThread.node fun self node => { self with node }

def set_conversation (sock : Nat) (conversation : Conversation) : Action NetworkingThread PyError Unit :=
  change fun self => { self with conversations := Function.update self.conversations sock conversation }

def set_inventory (sock : Nat) (inventory : Inventory) : Action NetworkingThread PyError Unit :=
  change fun self => { self with
    fetching := { self.fetching with inventories := Function.update self.fetching.inventories sock inventory } }

def hello_received (self : NetworkingThread) (sock : Nat) : Bool :=
  self.local_peer.connections[sock]?.any fun remote_peer => remote_peer.hello_received

def response_header (current_time id new_context : Nat) (prev_header : Option MessageHeader) : MessageHeader :=
  match prev_header with
  | none => ⟨current_time, id, 0, new_context⟩
  | some prev_header => ⟨current_time, id, prev_header.id, prev_header.context⟩

-- selector.modify, for which a socket that has been closed has no descriptor.
def modify (sock : Nat) : Action NetworkingThread PyError Unit := do
  let self ← read
  raw (raiseIf (sock ∉ self.local_peer.selector) (.ValueError "Invalid file descriptor: -1"))

def start_sending (sock : Nat) : Action NetworkingThread PyError Unit :=
  catching PyError.is_value_error (modify sock)

-- The bytes are the matter of the connection.
def send_message (moment : Moment) (sock : Nat) (message : Message) (prev_header : Option MessageHeader) :
    Action NetworkingThread PyError Unit := do
  let self ← read
  let conversation := self.conversations sock
  let id := conversation.next_msg_id + 1
  let header := response_header moment.current_time id (moment.new_context self.sent.length) prev_header
  set_conversation sock { conversation with next_msg_id := id }
  change fun self => { self with sent := self.sent ++ [(sock, header, message)] }
  if moment.idle sock then start_sending sock else pure ()

def get_active_peers (self : NetworkingThread) (order : DictOrder Nat) : List Nat :=
  (order.values self.local_peer.connected_peers).filter fun sock =>
    (self.conversations sock).hello_sent && self.hello_received sock

-- What is caught is ValueError and KeyError.
def broadcast_message (moment : Moment) (message : DataMessage) : Action NetworkingThread PyError Unit := do
  let self ← read
  forEach (fun sock => catching (fun error => error.is_value_error || error = .KeyError)
    (send_message moment sock (.Data message) none)) (self.get_active_peers moment.connected_order)

section Handlers

variable (moment : Moment) (sock : Nat) (header : MessageHeader)

def handle_get_blocks_message_received (message : GetBlocksMessage) : Action NetworkingThread PyError Unit := do
  let self ← read
  let reply ← raw (Skepticoin.handle_get_blocks_message_received crypto self.node.chain_manager.coinstate message)
  send_message moment sock (.Inventory reply) (some header)

def handle_inventory_message_received (message : InventoryMessage) : Action NetworkingThread PyError Unit := do
  let self ← read
  let (inventory, sent) ← raw (Skepticoin.handle_inventory_message_received self.node.chain_manager.coinstate
    moment.current_time (self.fetching.inventories sock) header message)
  set_inventory sock inventory
  forEach (fun entry => send_message moment sock entry.2 (some entry.1)) sent

def handle_get_data_message_received (message : GetDataMessage) : Action NetworkingThread PyError Unit := do
  raw (raiseIf (message.data_type ≠ DATA_BLOCK) .NotImplementedError)
  let self ← read
  match self.node.chain_manager.coinstate.block_by_hash.lookup message.hash with
  | none => pure ()
  | some block => send_message moment sock (.Data ⟨DATA_BLOCK, .Block block⟩) (some header)

-- What the handler of the node broadcasts is what it adds to its list.
def handle_block_received (block : Block) : Action NetworkingThread PyError Unit := do
  let self ← read
  let block_hash ← raw (block.hash crypto)
  let inventory := self.fetching.inventories sock
  set_inventory sock
    { inventory with inventory_messages := remove_from_inventory block_hash inventory.inventory_messages }
  on_node (Node.handle_block_received crypto ⟨moment.current_time, header, block⟩)
  let after ← read
  forEach (fun block => broadcast_message moment ⟨DATA_BLOCK, .Block block⟩)
    (after.node.broadcast.drop self.node.broadcast.length)

def handle_transaction_received (transaction : Transaction) : Action NetworkingThread PyError Unit := do
  let self ← read
  if self.node.chain_manager.transaction_pool.any fun pooled => pooled.eq transaction then pure ()
  else
    let added ← on_node (Node.on_chain_manager (ChainManager.add_transaction_to_pool crypto transaction))
    if added then broadcast_message moment ⟨DATA_TRANSACTION, .Transaction transaction⟩ else pure ()

-- The class of the data is the one of its type.
def handle_data_message_received (message : DataMessage) : Action NetworkingThread PyError Unit :=
  match message.data with
  | .Block block => handle_block_received crypto moment sock header block
  | .Transaction transaction => handle_transaction_received crypto moment transaction
  | .BlockHeader _ => raw (.error .NotImplementedError)

def announced_peer (last_seen_at : Nat) (remote_peer : RemotePeer) : Py (Option Peer) :=
  if remote_peer.direction = .OUTGOING ∧ remote_peer.ban_score < MAX_CONNECTION_ATTEMPTS then do
    let ip_address ← ipv4_mapped_address remote_peer.host
    return some ⟨last_seen_at, ip_address, remote_peer.port⟩
  else return none

def handle_get_peers_message_received : Action NetworkingThread PyError Unit := do
  let self ← read
  let connected := (moment.connected_order.values self.local_peer.connected_peers).filterMap fun sock =>
    self.local_peer.connections[sock]?
  let con_peers ← raw (collect (fun peer => announced_peer moment.current_time peer.toRemotePeer) connected)
  let discon_peers ← raw (collect (fun peer => announced_peer 0 peer.toRemotePeer)
    (moment.disconnected_order.values self.local_peer.disconnected_peers))
  let peers := (con_peers ++ discon_peers).filterMap id
  send_message moment sock (.Peers ⟨peers.take 1000⟩) (some header)

def handle_peers_message_received (message : PeersMessage) : Action NetworkingThread PyError Unit := do
  let self ← read
  set_conversation sock { self.conversations sock with waiting_for_peers := false }
  on_local_peer (LocalPeer.handle_peers_message_received message)

def handle_message_received (message : Message) : Action NetworkingThread PyError Unit :=
  match message with
  | .Hello message =>
    on_local_peer (LocalPeer.handle_hello_message_received sock message moment.write_peers_raises)
  | message => do
    let remote_peer ← on_local_peer (LocalPeer.connection sock)
    raw (raiseIf (remote_peer.hello_received = false) (.Exception "First message must be Hello"))
    match message with
    | .Hello _ => pure ()
    | .GetBlocks message => handle_get_blocks_message_received crypto moment sock header message
    | .Inventory message => handle_inventory_message_received moment sock header message
    | .GetData message => handle_get_data_message_received moment sock header message
    | .Data message => handle_data_message_received crypto moment sock header message
    | .GetPeers => handle_get_peers_message_received moment sock header
    | .Peers message => handle_peers_message_received sock message

-- Any exception is reason to disconnect; it is logged, and goes no further.
def handle_remote_peer_message (message : Message) : Action NetworkingThread PyError Unit := fun self =>
  match handle_message_received crypto moment sock header message self with
  | (.ok (), self) => (.ok (), self)
  | (.error _, self) => on_local_peer (LocalPeer.disconnect sock) self

end Handlers

section Steps

def send_hello (moment : Moment) (sock : Nat) (remote_peer : ConnectedRemotePeer) :
    Action NetworkingThread PyError Unit := do
  let self ← read
  let ipv4_mapped ← raw (ipv4_mapped_address remote_peer.host)
  let hello_message : HelloMessage := {
    supported_versions := [⟨0⟩]
    your_ip_address := ipv4_mapped
    your_port := remote_peer.port
    -- unspecified
    my_ip_address := reserved 16
    my_port := self.port.getD 0
    nonce := self.local_peer.nonce
    -- b"sashimi "
    user_agent := [0x73, 0x61, 0x73, 0x68, 0x69, 0x6d, 0x69, 0x20] ++ self.version }
  set_conversation sock { self.conversations sock with hello_sent := true }
  send_message moment sock (.Hello hello_message) none

def send_get_peers (moment : Moment) (sock : Nat) : Action NetworkingThread PyError Unit := do
  send_message moment sock .GetPeers none
  let self ← read
  set_conversation sock { self.conversations sock with
    waiting_for_peers := true
    last_get_peers_sent_at := some moment.current_time }

def is_time_to_get_peers (conversation : Conversation) (current_time : Nat) : Bool :=
  conversation.last_get_peers_sent_at.all (fun last => current_time > last + GET_PEERS_INTERVAL) &&
    !conversation.waiting_for_peers

-- ConnectedRemotePeer.step
def remote_peer_step (moment : Moment) (sock : Nat) : Action NetworkingThread PyError Unit := do
  let remote_peer ← on_local_peer (LocalPeer.connection sock)
  let self ← read
  if (self.conversations sock).hello_sent then pure () else send_hello moment sock remote_peer
  let self ← read
  if remote_peer.hello_received && is_time_to_get_peers (self.conversations sock) moment.current_time then
    send_get_peers moment sock
  else pure ()

def network_manager_step (moment : Moment) : Action NetworkingThread PyError Unit := do
  let self ← read
  on_local_peer (LocalPeer.step moment.current_time
    (moment.disconnected_order.listing self.local_peer.disconnected_peers))
  let self ← read
  forEach (remote_peer_step moment) (moment.connected_order.values self.local_peer.connected_peers)

def chain_manager_step (moment : Moment) (choice : Nat) : Action NetworkingThread PyError Unit := do
  let self ← read
  let (fetching, asked) ← raw (self.fetching.step crypto self.node.chain_manager.coinstate moment.current_time
    (self.get_active_peers moment.connected_order) choice)
  change fun self => { self with fetching }
  match asked with
  | none => pure ()
  | some (sock, get_blocks_message) => send_message moment sock (.GetBlocks get_blocks_message) none

def step_managers (moment : Moment) (choice : Nat) : Action NetworkingThread PyError Unit := do
  network_manager_step moment
  chain_manager_step crypto moment choice

end Steps

-- What the selector reports: a connection that waits to be accepted, a message
-- that is complete, or the end of a connection.
inductive SelectorEvent where
  | incoming_connection (host : String) (port : Nat)
  | message_received (moment : Moment) (sock : Nat) (header : MessageHeader) (message : Message)
  | closed (sock : Nat)

def SelectorEvent.sock : SelectorEvent → Option Nat
  | .incoming_connection _ _ => none
  | .message_received _ sock _ _ => some sock
  | .closed sock => some sock

def SelectorEvent.action : SelectorEvent → Action NetworkingThread PyError Unit
  | .incoming_connection host port => on_local_peer (LocalPeer.handle_incoming_connection host port)
  | .message_received moment sock header message => handle_remote_peer_message crypto moment sock header message
  | .closed sock => on_local_peer (LocalPeer.disconnect sock)

-- A turn of the loop in LocalPeer.run.
structure Turn where
  moment : Moment
  choice : Nat
  events : List SelectorEvent

-- The selector reports on the sockets that it has when it is asked.
def Turn.action (turn : Turn) : Action NetworkingThread PyError Unit := do
  step_managers crypto turn.moment turn.choice
  let self ← read
  forEach (SelectorEvent.action crypto)
    (turn.events.filter fun event => event.sock.all fun sock => sock ∈ self.local_peer.selector)

-- What is raised outside the handlers ends the loop.
def run (turns : List Turn) : Action NetworkingThread PyError Unit := forEach (Turn.action crypto) turns

end NetworkingThread

-- A dictionary has its keys in some order.
section Sample

theorem listed_nodup {ν : Type} (m : Map PeerKey ν) : m.keys.toList.Nodup := Finset.nodup_toList _

theorem mem_keys_list {ν : Type} (m : Map PeerKey ν) (key : PeerKey) : key ∈ m.keys.toList ↔ key ∈ m := by
  rw [Finset.mem_toList, Finmap.mem_keys]

noncomputable def anyOrder {ν : Type} : DictOrder ν where
  keys m := m.keys.toList
  nodup := listed_nodup
  mem := mem_keys_list

noncomputable def quietMoment (current_time : Nat) : Moment where
  current_time := current_time
  new_context := fun _ => 0
  connected_order := anyOrder
  disconnected_order := anyOrder
  idle := fun _ => true
  write_peers_raises := false

end Sample

end Skepticoin
