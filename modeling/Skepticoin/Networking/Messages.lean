import Skepticoin.Datatypes

namespace Skepticoin

open Guard Codec

def MSG_HELLO : Bytes := [0x00, 0x00]
def MSG_GET_BLOCKS : Bytes := [0x00, 0x01]
def MSG_INVENTORY : Bytes := [0x00, 0x02]
def MSG_GET_DATA : Bytes := [0x00, 0x03]
def MSG_DATA : Bytes := [0x00, 0x04]
def MSG_GET_PEERS : Bytes := [0x00, 0x05]
def MSG_PEERS : Bytes := [0x00, 0x06]

def DATA_BLOCK : FixedBytes 2 := ⟨[0x00, 0x00], rfl⟩
def DATA_HEADER : FixedBytes 2 := ⟨[0x00, 0x01], rfl⟩
def DATA_TRANSACTION : FixedBytes 2 := ⟨[0x00, 0x02], rfl⟩

-- An address, by its packed form.
abbrev IPv6Address := FixedBytes 16

-- Reserved space for later versions.
def reserved (n : Nat) : FixedBytes n := ⟨List.replicate n 0x00, List.length_replicate⟩

-- The versions of the header and of the messages, always 0, are left out of
-- the records.
structure MessageHeader where
  timestamp : Nat
  id : Nat
  in_response_to : Nat
  context : Nat
  deriving DecidableEq

def MessageHeader.stream_deserialize : Stream MessageHeader := do
  let _version ← unpack 1
  let timestamp ← unpack 4
  let id ← unpack 4
  let in_response_to ← unpack 4
  let context ← unpack 8
  let _ ← safe_read 32
  return ⟨timestamp, id, in_response_to, context⟩

def MessageHeader.serialize (header : MessageHeader) : Py Bytes := do
  let timestamp ← pack 4 header.timestamp
  let id ← pack 4 header.id
  let in_response_to ← pack 4 header.in_response_to
  let context ← pack 8 header.context
  return [0x00] ++ timestamp ++ id ++ in_response_to ++ context ++ (reserved 32).1

structure SupportedVersion where
  version : Nat
  deriving DecidableEq

def SupportedVersion.stream_deserialize : Stream SupportedVersion := do
  let version ← unpack 1
  return ⟨version⟩

def SupportedVersion.stream_serialize (supported : SupportedVersion) : Py Bytes := pack 1 supported.version

structure HelloMessage where
  supported_versions : List SupportedVersion
  your_ip_address : IPv6Address
  your_port : Nat
  my_ip_address : IPv6Address
  my_port : Nat
  nonce : Nat
  user_agent : Bytes
  deriving DecidableEq

-- The version is not looked at.
def HelloMessage.stream_deserialize : Stream HelloMessage := do
  let _version ← unpack 1
  let your_ip_address ← safe_read 16
  let your_port ← unpack 2
  let my_ip_address ← safe_read 16
  let my_port ← unpack 2
  let nonce ← unpack 4
  let ua_length ← unpack 1
  let user_agent ← safe_read ua_length
  let supported_versions ← stream_deserialize_list SupportedVersion.stream_deserialize
  let _ ← safe_read 256
  return ⟨supported_versions, your_ip_address, your_port, my_ip_address, my_port, nonce, user_agent.1⟩

def HelloMessage.stream_serialize (message : HelloMessage) : Py Bytes := do
  let your_port ← pack 2 message.your_port
  let my_port ← pack 2 message.my_port
  let nonce ← pack 4 message.nonce
  let ua_length ← pack 1 message.user_agent.length
  let supported_versions ←
    stream_serialize_list SupportedVersion.stream_serialize message.supported_versions
  return MSG_HELLO ++ [0x00] ++ message.your_ip_address.1 ++ your_port ++ message.my_ip_address.1 ++
    my_port ++ nonce ++ ua_length ++ message.user_agent ++ supported_versions ++ (reserved 256).1

-- The messages but Hello refuse other versions.
def read_version_0 (message_class : String) : Stream Unit := do
  let version ← safe_read 1
  raw (raiseIf (version.1 ≠ [0x00])
    (.ValueError ("Current version supports only version 0 " ++ message_class)))

structure GetBlocksMessage where
  potential_start_hashes : List Hash
  stop_hash : Hash := zero_hash
  deriving DecidableEq

def GetBlocksMessage.stream_deserialize : Stream GetBlocksMessage := do
  read_version_0 "GetBlocksMessage"
  let length ← stream_deserialize_vlq
  let potential_start_hashes ← times (safe_read 32) length
  let stop_hash ← safe_read 32
  return ⟨potential_start_hashes, stop_hash⟩

def GetBlocksMessage.stream_serialize (message : GetBlocksMessage) : Py Bytes := do
  let length ← stream_serialize_vlq message.potential_start_hashes.length
  return MSG_GET_BLOCKS ++ [0x00] ++ length ++
    (message.potential_start_hashes.map fun h => h.1).flatten ++ message.stop_hash.1

-- What travels of an item; whether its block has been requested does not.
structure InventoryItem where
  data_type : FixedBytes 2
  hash : Hash
  deriving DecidableEq

def InventoryItem.stream_deserialize : Stream InventoryItem := do
  let data_type ← safe_read 2
  let hash ← safe_read 32
  return ⟨data_type, hash⟩

def InventoryItem.stream_serialize (item : InventoryItem) : Py Bytes :=
  .ok (item.data_type.1 ++ item.hash.1)

structure InventoryMessage where
  items : List InventoryItem
  deriving DecidableEq

def InventoryMessage.stream_deserialize : Stream InventoryMessage := do
  read_version_0 "InventoryMessage"
  let items ← stream_deserialize_list InventoryItem.stream_deserialize
  return ⟨items⟩

def InventoryMessage.stream_serialize (message : InventoryMessage) : Py Bytes := do
  let items ← stream_serialize_list InventoryItem.stream_serialize message.items
  return MSG_INVENTORY ++ [0x00] ++ items

structure GetDataMessage where
  data_type : FixedBytes 2
  hash : Hash
  deriving DecidableEq

def GetDataMessage.stream_deserialize : Stream GetDataMessage := do
  read_version_0 "GetDataMessage"
  let data_type ← safe_read 2
  let hash ← safe_read 32
  return ⟨data_type, hash⟩

def GetDataMessage.stream_serialize (message : GetDataMessage) : Py Bytes :=
  .ok (MSG_GET_DATA ++ [0x00] ++ message.data_type.1 ++ message.hash.1)

-- The values of DATATYPES.
inductive Data where
  | Block (block : Block)
  | BlockHeader (header : BlockHeader)
  | Transaction (transaction : Transaction)
  deriving DecidableEq

def Data.stream_serialize : Data → Py Bytes
  | .Block block => block.serialize
  | .BlockHeader header => header.serialize
  | .Transaction transaction => transaction.serialize

-- DATATYPES[data_type].stream_deserialize
def Data.stream_deserialize (crypto : Crypto) (data_type : FixedBytes 2) : Stream Data :=
  if data_type = DATA_BLOCK then do
    let block ← Block.stream_deserialize crypto
    return .Block block
  else if data_type = DATA_HEADER then do
    let header ← BlockHeader.stream_deserialize
    return .BlockHeader header
  else if data_type = DATA_TRANSACTION then do
    let transaction ← Transaction.stream_deserialize crypto
    return .Transaction transaction
  else
    raw (.error .KeyError)

structure DataMessage where
  data_type : FixedBytes 2
  data : Data
  deriving DecidableEq

def DataMessage.stream_deserialize (crypto : Crypto) : Stream DataMessage := do
  read_version_0 "DataMessage"
  let data_type ← safe_read 2
  let data ← Data.stream_deserialize crypto data_type
  return ⟨data_type, data⟩

def DataMessage.stream_serialize (message : DataMessage) : Py Bytes := do
  let data ← message.data.stream_serialize
  return MSG_DATA ++ [0x00] ++ message.data_type.1 ++ data

-- GetPeersMessage has no fields.
def GetPeersMessage.stream_deserialize : Stream Unit := read_version_0 "GetPeersMessage"

def GetPeersMessage.stream_serialize : Bytes := MSG_GET_PEERS ++ [0x00]

structure Peer where
  last_seen_at : Nat
  ip_address : IPv6Address
  port : Nat
  deriving DecidableEq

def Peer.stream_deserialize : Stream Peer := do
  let last_seen_at ← unpack 4
  let ip_address ← safe_read 16
  let port ← unpack 2
  return ⟨last_seen_at, ip_address, port⟩

def Peer.stream_serialize (peer : Peer) : Py Bytes := do
  let last_seen_at ← pack 4 peer.last_seen_at
  let port ← pack 2 peer.port
  return last_seen_at ++ peer.ip_address.1 ++ port

structure PeersMessage where
  peers : List Peer
  deriving DecidableEq

-- The text of the error names GetPeersMessage here too.
def PeersMessage.stream_deserialize : Stream PeersMessage := do
  read_version_0 "GetPeersMessage"
  let peers ← stream_deserialize_list Peer.stream_deserialize
  return ⟨peers⟩

def PeersMessage.stream_serialize (message : PeersMessage) : Py Bytes := do
  let peers ← stream_serialize_list Peer.stream_serialize message.peers
  return MSG_PEERS ++ [0x00] ++ peers

inductive Message where
  | Hello (message : HelloMessage)
  | GetBlocks (message : GetBlocksMessage)
  | Inventory (message : InventoryMessage)
  | GetData (message : GetDataMessage)
  | Data (message : DataMessage)
  | GetPeers
  | Peers (message : PeersMessage)
  deriving DecidableEq

def Message.stream_deserialize (crypto : Crypto) : Stream Message := do
  let type_indicator ← safe_read 2
  if type_indicator.1 = MSG_HELLO then
    let message ← HelloMessage.stream_deserialize
    return .Hello message
  else if type_indicator.1 = MSG_GET_BLOCKS then
    let message ← GetBlocksMessage.stream_deserialize
    return .GetBlocks message
  else if type_indicator.1 = MSG_INVENTORY then
    let message ← InventoryMessage.stream_deserialize
    return .Inventory message
  else if type_indicator.1 = MSG_GET_DATA then
    let message ← GetDataMessage.stream_deserialize
    return .GetData message
  else if type_indicator.1 = MSG_DATA then
    let message ← DataMessage.stream_deserialize crypto
    return .Data message
  else if type_indicator.1 = MSG_GET_PEERS then
    GetPeersMessage.stream_deserialize
    return .GetPeers
  else if type_indicator.1 = MSG_PEERS then
    let message ← PeersMessage.stream_deserialize
    return .Peers message
  else
    raw (.error (.DeserializationError "Non-supported message type"))

def Message.serialize : Message → Py Bytes
  | .Hello message => message.stream_serialize
  | .GetBlocks message => message.stream_serialize
  | .Inventory message => message.stream_serialize
  | .GetData message => message.stream_serialize
  | .Data message => message.stream_serialize
  | .GetPeers => .ok GetPeersMessage.stream_serialize
  | .Peers message => message.stream_serialize

end Skepticoin
