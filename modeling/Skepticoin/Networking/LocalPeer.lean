import Skepticoin.Lib.Effect
import Skepticoin.Lib.FMap
import Skepticoin.Networking.Messages

namespace Skepticoin

open Guard FMap Effect

-- skepticoin/networking/params.py
def TIME_TO_SECOND_CONNECTION_ATTEMPT : Nat := 10
def MAX_TIME_BETWEEN_CONNECTION_ATTEMPTS : Nat := 60 * 30
def MAX_CONNECTION_ATTEMPTS : Nat := 60 * 60 * 24 * 60 / MAX_TIME_BETWEEN_CONNECTION_ATTEMPTS

inductive Direction where
  | INCOMING
  | OUTGOING
  deriving DecidableEq

-- The host, the port and the direction.
abbrev PeerKey := String × Nat × Direction

structure RemotePeer where
  host : String
  port : Nat
  direction : Direction
  last_connection_attempt : Option Nat
  ban_score : Nat
  deriving DecidableEq

def RemotePeer.key (self : RemotePeer) : PeerKey := (self.host, self.port, self.direction)

structure DisconnectedRemotePeer extends RemotePeer
  deriving DecidableEq

-- The buffers and what is waited for are the matter of the connection.
structure ConnectedRemotePeer extends RemotePeer where
  hello_received : Bool
  deriving DecidableEq

def DisconnectedRemotePeer.is_time_to_connect (self : DisconnectedRemotePeer) (current_time : Nat) : Bool :=
  if self.ban_score > MAX_CONNECTION_ATTEMPTS then false
  else
    let time_between :=
      min (TIME_TO_SECOND_CONNECTION_ATTEMPT * 2 ^ self.ban_score) MAX_TIME_BETWEEN_CONNECTION_ATTEMPTS
    match self.last_connection_attempt with
    | none => true
    | some last => last + time_between ≤ current_time

def DisconnectedRemotePeer.as_connected (self : DisconnectedRemotePeer) : ConnectedRemotePeer :=
  ⟨self.toRemotePeer, false⟩

def ConnectedRemotePeer.as_disconnected (self : ConnectedRemotePeer) : DisconnectedRemotePeer :=
  ⟨self.toRemotePeer⟩

def load_peers_from_list (lst : List PeerKey) : Map PeerKey DisconnectedRemotePeer :=
  lst.foldl (fun peers key => peers.insert key ⟨⟨key.1, key.2.1, key.2.2, none, 0⟩⟩) ∅

-- The local peer with its network manager. Every connection that was made has a
-- socket, which is its place among all of them; the dictionary of the connected
-- peers refers to it. What disconnect has caught is kept in the log.
structure LocalPeer where
  nonce : Nat
  listening : Bool
  max_selector_map_size : Nat
  connections : List ConnectedRemotePeer
  selector : Finset Nat
  my_addresses : Finset (String × Nat)
  connected_peers : Map PeerKey Nat
  disconnected_peers : Map PeerKey DisconnectedRemotePeer
  logged : List PyError

-- In which order a dictionary lists its keys.
structure Listing where
  keys : List PeerKey
  nodup : keys.Nodup

def Listing.values {ν : Type} (listing : Listing) (m : Map PeerKey ν) : List ν := listing.keys.filterMap m.lookup

def IPv6Address.ipv4_mapped (address : IPv6Address) : Option Bytes :=
  if address.1.take 12 = List.replicate 10 0x00 ++ [0xff, 0xff] then some (address.1.drop 12) else none

-- The dotted form.
def exploded (ipv4 : Bytes) : String := ".".intercalate (ipv4.map fun byte => toString byte.toNat)

namespace LocalPeer

-- What a new process starts from.
def loaded (lst : List PeerKey) (nonce max_selector_map_size : Nat) (listening : Bool) : LocalPeer where
  nonce := nonce
  listening := listening
  max_selector_map_size := max_selector_map_size
  connections := []
  selector := ∅
  my_addresses := ∅
  connected_peers := ∅
  disconnected_peers := load_peers_from_list lst
  logged := []

def shouldn't_happen : PyError := .Exception "this shouldn't happen"

def sanity_check : Action LocalPeer PyError Unit := do
  let self ← read
  raw (raiseIf (∃ key ∈ self.connected_peers.keys, key ∈ self.disconnected_peers) shouldn't_happen)

def connection (sock : Nat) : Action LocalPeer PyError ConnectedRemotePeer := do
  let self ← read
  raw (match self.connections[sock]? with
    | some remote_peer => .ok remote_peer
    | none => .error .IndexError)

def set_connection (sock : Nat) (remote_peer : ConnectedRemotePeer) : Action LocalPeer PyError Unit :=
  change fun self => { self with connections := self.connections.set sock remote_peer }

-- A new socket, which the selector reads from.
def register (remote_peer : ConnectedRemotePeer) : Action LocalPeer PyError Nat := do
  let self ← read
  change fun self =>
    { self with
      connections := self.connections ++ [remote_peer]
      selector := insert self.connections.length self.selector }
  return self.connections.length

def unregister (sock : Nat) : Action LocalPeer PyError Unit := do
  let self ← read
  raw (raiseIf (sock ∉ self.selector) .KeyError)
  change fun self => { self with selector := self.selector.erase sock }

def log (error : PyError) : Action LocalPeer PyError Unit :=
  change fun self => { self with logged := self.logged ++ [error] }

-- try: the code; except Exception: the handler
def except_Exception (x : Action LocalPeer PyError Unit) (handler : PyError → Action LocalPeer PyError Unit) :
    Action LocalPeer PyError Unit := fun self =>
  match x self with
  | (.ok (), self) => (.ok (), self)
  | (.error error, self) => handler error self

-- An outgoing peer stays known when its connection has ended.
def keep_outgoing (sock : Nat) (remote_peer : ConnectedRemotePeer) : Action LocalPeer PyError Unit :=
  if remote_peer.direction = .OUTGOING then do
    let remote_peer : ConnectedRemotePeer :=
      if remote_peer.hello_received then remote_peer
      else { remote_peer with ban_score := remote_peer.ban_score + 1 }
    set_connection sock remote_peer
    change fun self =>
      { self with disconnected_peers := self.disconnected_peers.insert remote_peer.key remote_peer.as_disconnected }
  else pure ()

def handle_peer_disconnected (sock : Nat) : Action LocalPeer PyError Unit := do
  let remote_peer ← connection sock
  sanity_check
  let self ← read
  let connected_peers ← raw (FMap.delete .KeyError remote_peer.key self.connected_peers)
  change fun self => { self with connected_peers }
  keep_outgoing sock remote_peer
  sanity_check

def disconnect (sock : Nat) : Action LocalPeer PyError Unit :=
  except_Exception (do
    unregister sock
    handle_peer_disconnected sock) log

def disconnect_duplicate (key : PeerKey) : Action LocalPeer PyError Unit := do
  let self ← read
  match self.connected_peers.lookup key with
  | some existing => disconnect existing
  | none => pure ()

def handle_peer_connected (sock : Nat) : Action LocalPeer PyError Unit := do
  let remote_peer ← connection sock
  disconnect_duplicate remote_peer.key
  sanity_check
  change fun self => { self with connected_peers := self.connected_peers.insert remote_peer.key sock }
  change fun self => { self with disconnected_peers := self.disconnected_peers.erase remote_peer.key }
  sanity_check

def selector_map_size (self : LocalPeer) : Nat := self.selector.card + if self.listening then 1 else 0

def start_outgoing_connection (disconnected_peer : DisconnectedRemotePeer) : Action LocalPeer PyError Unit := do
  let self ← read
  if self.max_selector_map_size ≤ self.selector_map_size then pure ()
  else
    let sock ← register disconnected_peer.as_connected
    handle_peer_connected sock

def handle_incoming_connection (host : String) (port : Nat) : Action LocalPeer PyError Unit := do
  let sock ← register ⟨⟨host, port, .INCOMING, none, 0⟩, false⟩
  handle_peer_connected sock

-- A turn of the loop over the disconnected peers. The one that is marked is the
-- one in the dictionary.
def connect_if_due (current_time : Nat) (disconnected_peer : DisconnectedRemotePeer) :
    Action LocalPeer PyError Unit := do
  let self ← read
  if disconnected_peer.direction = .OUTGOING ∧
      (disconnected_peer.host, disconnected_peer.port) ∉ self.my_addresses ∧
      disconnected_peer.is_time_to_connect current_time = true then
    let disconnected_peer : DisconnectedRemotePeer :=
      { disconnected_peer with last_connection_attempt := some current_time }
    change fun self =>
      if disconnected_peer.key ∈ self.disconnected_peers then
        { self with disconnected_peers := self.disconnected_peers.insert disconnected_peer.key disconnected_peer }
      else self
    start_outgoing_connection disconnected_peer
  else pure ()

-- The steps of the connected peers, which come after, only send.
def step (current_time : Nat) (listing : Listing) : Action LocalPeer PyError Unit := do
  sanity_check
  let self ← read
  forEach (connect_if_due current_time) (listing.values self.disconnected_peers)

-- A peer that somebody has told of.
def add_announced_peer (host : String) (port : Nat) : Action LocalPeer PyError Unit := do
  let key : PeerKey := (host, port, .OUTGOING)
  sanity_check
  change fun self =>
    if key ∈ self.disconnected_peers ∨ key ∈ self.connected_peers then self
    else { self with disconnected_peers := self.disconnected_peers.insert key ⟨⟨host, port, .OUTGOING, none, 0⟩⟩ }
  sanity_check

-- What the rest of a handler raises, which leaves the peers alone.
def rest_of_handler (raises : Bool) : Action LocalPeer PyError Unit :=
  raw (raiseIf (raises = true) (.Exception "not about peers"))

def handle_hello_message_received (sock : Nat) (message : HelloMessage) (raises : Bool) :
    Action LocalPeer PyError Unit := do
  let remote_peer ← connection sock
  set_connection sock { remote_peer with hello_received := true, ban_score := 0 }
  match remote_peer.direction with
  | .INCOMING => add_announced_peer remote_peer.host message.my_port
  | .OUTGOING =>
    -- writing the peers to disk
    rest_of_handler raises
    let self ← read
    if message.nonce = self.nonce then
      change fun self => { self with my_addresses := insert (remote_peer.host, remote_peer.port) self.my_addresses }
      disconnect sock
    else pure ()

def handle_peers_message_received (message : PeersMessage) : Action LocalPeer PyError Unit :=
  forEach (fun announced_peer =>
    match announced_peer.ip_address.ipv4_mapped with
    | none => pure ()
    | some ipv4_mapped => add_announced_peer (exploded ipv4_mapped) announced_peer.port) message.peers

def handle_message_received (sock : Nat) (message : Message) (raises : Bool) : Action LocalPeer PyError Unit :=
  match message with
  | .Hello message => handle_hello_message_received sock message raises
  | message => do
    let remote_peer ← connection sock
    raw (raiseIf (remote_peer.hello_received = false) (.Exception "First message must be Hello"))
    match message with
    | .Peers message => handle_peers_message_received message
    | _ => rest_of_handler raises

-- What happens to a local peer, in any order. A socket that has been closed may
-- still have messages in its buffer.
inductive Event where
  | step (current_time : Nat) (listing : Listing)
  | incoming_connection (host : String) (port : Nat)
  | message_received (sock : Nat) (message : Message) (raises : Bool)
  | connection_closed (sock : Nat)

def Event.action : Event → Action LocalPeer PyError Unit
  | .step current_time listing => LocalPeer.step current_time listing
  | .incoming_connection host port => handle_incoming_connection host port
  | .message_received sock message raises =>
    except_Exception (handle_message_received sock message raises) fun error => do
      log error
      disconnect sock
  | .connection_closed sock => disconnect sock

def run (events : List Event) (self : LocalPeer) : LocalPeer := calls (events.map Event.action) self

end LocalPeer

end Skepticoin
