import Skepticoin.Datatypes.RoundTrip
import Skepticoin.Networking.Messages

namespace Skepticoin

open Guard Codec

section Fits

-- What the widths of the wire format ask of a value, beyond what its type
-- already says.
structure MessageHeader.Fits (header : MessageHeader) : Prop where
  timestamp : header.timestamp < 2 ^ 32
  id : header.id < 2 ^ 32
  in_response_to : header.in_response_to < 2 ^ 32
  context : header.context < 2 ^ 64

def SupportedVersion.Fits (supported : SupportedVersion) : Prop := supported.version < 2 ^ 8

structure HelloMessage.Fits (message : HelloMessage) : Prop where
  supported_versions : ∀ supported ∈ message.supported_versions, supported.Fits
  your_port : message.your_port < 2 ^ 16
  my_port : message.my_port < 2 ^ 16
  nonce : message.nonce < 2 ^ 32
  user_agent : message.user_agent.length ≤ 255

structure Peer.Fits (peer : Peer) : Prop where
  last_seen_at : peer.last_seen_at < 2 ^ 32
  port : peer.port < 2 ^ 16

def Data.Fits : Data → Prop
  | .Block block => block.Fits
  | .BlockHeader header => header.Fits
  | .Transaction transaction => transaction.Fits

def Data.data_type : Data → FixedBytes 2
  | .Block _ => DATA_BLOCK
  | .BlockHeader _ => DATA_HEADER
  | .Transaction _ => DATA_TRANSACTION

-- A data message says what it carries.
structure DataMessage.Fits (message : DataMessage) : Prop where
  data_type : message.data_type = message.data.data_type
  data : message.data.Fits

def Message.Fits : Message → Prop
  | .Hello message => message.Fits
  | .Data message => message.Fits
  | .Peers message => ∀ peer ∈ message.peers, peer.Fits
  | .GetBlocks _ | .Inventory _ | .GetData _ | .GetPeers => True

end Fits

section Same

variable (crypto : Crypto)

-- The same content. What was hashed from the bytes is the hash of the content.
def SameData : Data → Data → Prop
  | .Block block, .Block decoded => Decoded crypto block decoded
  | .BlockHeader header, .BlockHeader decoded => decoded = header
  | .Transaction transaction, .Transaction decoded => Recached crypto transaction decoded
  | _, _ => False

def SameMessage : Message → Message → Prop
  | .Data message, .Data decoded =>
    decoded.data_type = message.data_type ∧ SameData crypto message.data decoded.data
  | message, decoded => decoded = message

end Same

section Reads

theorem reads_version : Reads (unpack 1) [0x00] 0 := reads_unpack rfl

theorem reads_version_0 (message_class : String) : Reads (read_version_0 message_class) [0x00] () := by
  have hversion := reads_safe_read (n := 1) ⟨[0x00], rfl⟩
  exact hversion.check (raiseIf_eq_ok.mpr (by simp))

theorem reads_reserved (n : Nat) : Reads (safe_read n) (reserved n).1 (reserved n) := reads_safe_read _

theorem reads_plain_list {α : Type} {stream_serialize : α → Py Bytes} {stream_deserialize : Stream α}
    (hread : ∀ a bytes, stream_serialize a = .ok bytes → Reads stream_deserialize bytes a)
    {lst : List α} {bytes : Bytes} (h : stream_serialize_list stream_serialize lst = .ok bytes) :
    Reads (stream_deserialize_list stream_deserialize) bytes lst := by
  obtain ⟨_, elems, _, helems, _⟩ := serialize_list_eq_ok.mp h
  apply reads_list h helems
  exact (collect_eq_ok.mp helems).flip.imp fun _ _ he => hread _ _ he

theorem message_header_round_trip {header : MessageHeader} (h : header.Fits) :
    ∃ bytes, header.serialize = .ok bytes ∧ Reads MessageHeader.stream_deserialize bytes header := by
  have htimestamp := h.timestamp
  have hid := h.id
  have hresponse := h.in_response_to
  have hcontext := h.context
  obtain ⟨timestamp, ht⟩ := pack_ok (show header.timestamp < 256 ^ 4 by omega)
  obtain ⟨id, hi⟩ := pack_ok (show header.id < 256 ^ 4 by omega)
  obtain ⟨in_response_to, hr⟩ := pack_ok (show header.in_response_to < 256 ^ 4 by omega)
  obtain ⟨context, hc⟩ := pack_ok (show header.context < 256 ^ 8 by omega)
  refine ⟨[0x00] ++ timestamp ++ id ++ in_response_to ++ context ++ (reserved 32).1, ?_, ?_⟩
  · simp only [MessageHeader.serialize, ht, hi, hr, hc]
    rfl
  · simp only [List.append_assoc]
    exact reads_version.bind ((reads_unpack ht).bind ((reads_unpack hi).bind ((reads_unpack hr).bind
      ((reads_unpack hc).bind (Reads.map _ (reads_reserved 32))))))

theorem reads_supported_version {supported : SupportedVersion} {bytes : Bytes}
    (h : supported.stream_serialize = .ok bytes) : Reads SupportedVersion.stream_deserialize bytes supported :=
  Reads.map _ (reads_unpack h)

theorem hello_round_trip {message : HelloMessage} (h : message.Fits) :
    ∃ body, message.stream_serialize = .ok (MSG_HELLO ++ body) ∧
      Reads HelloMessage.stream_deserialize body message := by
  have hyour := h.your_port
  have hmy := h.my_port
  have hnonce := h.nonce
  have hagent := h.user_agent
  obtain ⟨your_port, hy⟩ := pack_ok (show message.your_port < 256 ^ 2 by omega)
  obtain ⟨my_port, hm⟩ := pack_ok (show message.my_port < 256 ^ 2 by omega)
  obtain ⟨nonce, hn⟩ := pack_ok (show message.nonce < 256 ^ 4 by omega)
  obtain ⟨ua_length, hl⟩ := pack_ok (show message.user_agent.length < 256 ^ 1 by omega)
  have hversions : ∀ supported ∈ message.supported_versions,
      ∃ bytes, SupportedVersion.stream_serialize supported = .ok bytes := by
    intro supported hin
    exact pack_ok (show supported.version < 256 ^ 1 from h.supported_versions supported hin)
  obtain ⟨versions, hv⟩ := serialize_list_ok hversions
  have hread := reads_safe_read (n := message.user_agent.length) ⟨message.user_agent, rfl⟩
  have hlist := reads_plain_list (fun _ _ => reads_supported_version) hv
  refine ⟨[0x00] ++ (message.your_ip_address.1 ++ (your_port ++ (message.my_ip_address.1 ++ (my_port ++
    (nonce ++ (ua_length ++ (message.user_agent ++ (versions ++ (reserved 256).1)))))))), ?_, ?_⟩
  · simp only [HelloMessage.stream_serialize, hy, hm, hn, hl, hv, List.append_assoc]
    rfl
  · exact reads_version.bind ((reads_safe_read _).bind ((reads_unpack hy).bind ((reads_safe_read _).bind
      ((reads_unpack hm).bind ((reads_unpack hn).bind ((reads_unpack hl).bind (hread.bind (hlist.bind
        (Reads.map _ (reads_reserved 256))))))))))

theorem get_blocks_round_trip (message : GetBlocksMessage) :
    ∃ body, message.stream_serialize = .ok (MSG_GET_BLOCKS ++ body) ∧
      Reads GetBlocksMessage.stream_deserialize body message := by
  obtain ⟨length, hlength⟩ : ∃ length, stream_serialize_vlq message.potential_start_hashes.length = .ok length :=
    ⟨_, stream_serialize_vlq_eq _⟩
  have hhashes : List.Forall₂ (Reads (safe_read 32))
      (message.potential_start_hashes.map fun h => h.1) message.potential_start_hashes := by
    rw [List.forall₂_map_left_iff]
    exact List.forall₂_same.mpr fun h _ => reads_safe_read h
  refine ⟨[0x00] ++ (length ++ ((message.potential_start_hashes.map fun h => h.1).flatten ++
    message.stop_hash.1)), ?_, ?_⟩
  · simp only [GetBlocksMessage.stream_serialize, hlength, List.append_assoc]
    rfl
  · exact (reads_version_0 _).bind ((reads_vlq hlength).bind ((Reads.times hhashes).bind
      (Reads.map _ (reads_safe_read _))))

theorem reads_inventory_item {item : InventoryItem} {bytes : Bytes}
    (h : item.stream_serialize = .ok bytes) : Reads InventoryItem.stream_deserialize bytes item := by
  rw [← Except.ok.inj h]
  exact (reads_safe_read _).bind (Reads.map _ (reads_safe_read _))

theorem inventory_round_trip (message : InventoryMessage) :
    ∃ body, message.stream_serialize = .ok (MSG_INVENTORY ++ body) ∧
      Reads InventoryMessage.stream_deserialize body message := by
  have hall : ∀ item ∈ message.items, ∃ bytes, InventoryItem.stream_serialize item = .ok bytes :=
    fun item _ => ⟨_, rfl⟩
  obtain ⟨items, hitems⟩ := serialize_list_ok hall
  refine ⟨[0x00] ++ items, ?_, ?_⟩
  · simp only [InventoryMessage.stream_serialize, hitems]
    rfl
  · exact (reads_version_0 _).bind (Reads.map _ (reads_plain_list (fun _ _ => reads_inventory_item) hitems))

theorem get_data_round_trip (message : GetDataMessage) :
    ∃ body, message.stream_serialize = .ok (MSG_GET_DATA ++ body) ∧
      Reads GetDataMessage.stream_deserialize body message := by
  refine ⟨[0x00] ++ (message.data_type.1 ++ message.hash.1), ?_, ?_⟩
  · simp only [GetDataMessage.stream_serialize, List.append_assoc]
  · exact (reads_version_0 _).bind ((reads_safe_read _).bind (Reads.map _ (reads_safe_read _)))

theorem peer_serialize_ok {peer : Peer} (h : peer.Fits) : ∃ bytes, peer.stream_serialize = .ok bytes := by
  have hseen := h.last_seen_at
  have hport := h.port
  obtain ⟨last_seen_at, hs⟩ := pack_ok (show peer.last_seen_at < 256 ^ 4 by omega)
  obtain ⟨port, hp⟩ := pack_ok (show peer.port < 256 ^ 2 by omega)
  refine ⟨last_seen_at ++ peer.ip_address.1 ++ port, ?_⟩
  simp only [Peer.stream_serialize, hs, hp]
  rfl

theorem reads_peer {peer : Peer} {bytes : Bytes} (h : peer.stream_serialize = .ok bytes) :
    Reads Peer.stream_deserialize bytes peer := by
  simp only [Peer.stream_serialize, bind_eq_ok, pure_eq_ok] at h
  obtain ⟨last_seen_at, hs, port, hp, hbytes⟩ := h
  rw [← hbytes, List.append_assoc]
  exact (reads_unpack hs).bind ((reads_safe_read _).bind (Reads.map _ (reads_unpack hp)))

theorem peers_round_trip {message : PeersMessage} (h : ∀ peer ∈ message.peers, peer.Fits) :
    ∃ body, message.stream_serialize = .ok (MSG_PEERS ++ body) ∧
      Reads PeersMessage.stream_deserialize body message := by
  obtain ⟨peers, hpeers⟩ := serialize_list_ok fun peer hin => peer_serialize_ok (h peer hin)
  refine ⟨[0x00] ++ peers, ?_, ?_⟩
  · simp only [PeersMessage.stream_serialize, hpeers]
    rfl
  · exact (reads_version_0 _).bind (Reads.map _ (reads_plain_list (fun _ _ => reads_peer) hpeers))

theorem data_round_trip (crypto : Crypto) {data : Data} (h : data.Fits) :
    ∃ bytes decoded, data.stream_serialize = .ok bytes ∧ SameData crypto data decoded ∧
      Reads (Data.stream_deserialize crypto data.data_type) bytes decoded := by
  cases data with
  | Block block =>
      have hfits : block.Fits := h
      obtain ⟨bytes, hbytes⟩ := block_serialize_ok hfits
      obtain ⟨decoded, hsame, hreads⟩ := reads_block crypto hfits.header.evidence hbytes
      exact ⟨bytes, .Block decoded, hbytes, hsame, Reads.map _ hreads⟩
  | BlockHeader header =>
      have hfits : header.Fits := h
      obtain ⟨bytes, hbytes⟩ := header_serialize_ok hfits
      exact ⟨bytes, .BlockHeader header, hbytes, rfl, Reads.map _ (reads_header hfits.evidence hbytes)⟩
  | Transaction transaction =>
      obtain ⟨bytes, hbytes⟩ := transaction_serialize_ok h
      exact ⟨bytes, .Transaction _, hbytes, ⟨bytes, hbytes, rfl⟩, Reads.map _ (reads_transaction crypto hbytes)⟩

theorem data_message_round_trip (crypto : Crypto) {message : DataMessage} (h : message.Fits) :
    ∃ body decoded, message.stream_serialize = .ok (MSG_DATA ++ body) ∧
      (decoded.data_type = message.data_type ∧ SameData crypto message.data decoded.data) ∧
      Reads (DataMessage.stream_deserialize crypto) body decoded := by
  obtain ⟨bytes, data, hbytes, hsame, hreads⟩ := data_round_trip crypto h.data
  rw [← h.data_type] at hreads
  refine ⟨[0x00] ++ (message.data_type.1 ++ bytes), ⟨message.data_type, data⟩, ?_, ⟨rfl, hsame⟩, ?_⟩
  · simp only [DataMessage.stream_serialize, hbytes]
    rfl
  · exact (reads_version_0 _).bind ((reads_safe_read _).bind (Reads.map _ hreads))

end Reads

section RoundTrip

variable (crypto : Crypto)

def Message.type_indicator : Message → Bytes
  | .Hello _ => MSG_HELLO
  | .GetBlocks _ => MSG_GET_BLOCKS
  | .Inventory _ => MSG_INVENTORY
  | .GetData _ => MSG_GET_DATA
  | .Data _ => MSG_DATA
  | .GetPeers => MSG_GET_PEERS
  | .Peers _ => MSG_PEERS

-- The first two bytes select the reader of the rest.
theorem reads_message {message : Message} (h : message.Fits) :
    ∃ body decoded, message.serialize = .ok (message.type_indicator ++ body) ∧
      SameMessage crypto message decoded ∧
      Reads (Message.stream_deserialize crypto) (message.type_indicator ++ body) decoded := by
  cases message with
  | Hello message =>
      obtain ⟨body, hbody, hreads⟩ := hello_round_trip h
      exact ⟨body, .Hello message, hbody, rfl, (reads_safe_read ⟨MSG_HELLO, rfl⟩).bind (Reads.map _ hreads)⟩
  | GetBlocks message =>
      obtain ⟨body, hbody, hreads⟩ := get_blocks_round_trip message
      exact ⟨body, .GetBlocks message, hbody, rfl,
        (reads_safe_read ⟨MSG_GET_BLOCKS, rfl⟩).bind (Reads.map _ hreads)⟩
  | Inventory message =>
      obtain ⟨body, hbody, hreads⟩ := inventory_round_trip message
      exact ⟨body, .Inventory message, hbody, rfl,
        (reads_safe_read ⟨MSG_INVENTORY, rfl⟩).bind (Reads.map _ hreads)⟩
  | GetData message =>
      obtain ⟨body, hbody, hreads⟩ := get_data_round_trip message
      exact ⟨body, .GetData message, hbody, rfl,
        (reads_safe_read ⟨MSG_GET_DATA, rfl⟩).bind (Reads.map _ hreads)⟩
  | Data message =>
      obtain ⟨body, decoded, hbody, hsame, hreads⟩ := data_message_round_trip crypto h
      exact ⟨body, .Data decoded, hbody, hsame, (reads_safe_read ⟨MSG_DATA, rfl⟩).bind (Reads.map _ hreads)⟩
  | GetPeers =>
      exact ⟨[0x00], .GetPeers, rfl, rfl,
        (reads_safe_read ⟨MSG_GET_PEERS, rfl⟩).bind (Reads.map _ (reads_version_0 _))⟩
  | Peers message =>
      obtain ⟨body, hbody, hreads⟩ := peers_round_trip h
      exact ⟨body, .Peers message, hbody, rfl, (reads_safe_read ⟨MSG_PEERS, rfl⟩).bind (Reads.map _ hreads)⟩

theorem message_serialize_starts {message : Message} {bytes : Bytes} (h : message.serialize = .ok bytes) :
    bytes.take 2 = message.type_indicator := by
  cases message with
  | Hello message =>
      simp only [Message.serialize, HelloMessage.stream_serialize, bind_eq_ok, pure_eq_ok] at h
      obtain ⟨_, _, _, _, _, _, _, _, _, _, hbytes⟩ := h
      rw [← hbytes]
      rfl
  | GetBlocks message =>
      simp only [Message.serialize, GetBlocksMessage.stream_serialize, bind_eq_ok, pure_eq_ok] at h
      obtain ⟨_, _, hbytes⟩ := h
      rw [← hbytes]
      rfl
  | Inventory message =>
      simp only [Message.serialize, InventoryMessage.stream_serialize, bind_eq_ok, pure_eq_ok] at h
      obtain ⟨_, _, hbytes⟩ := h
      rw [← hbytes]
      rfl
  | GetData message =>
      rw [← Except.ok.inj h]
      rfl
  | Data message =>
      simp only [Message.serialize, DataMessage.stream_serialize, bind_eq_ok, pure_eq_ok] at h
      obtain ⟨_, _, hbytes⟩ := h
      rw [← hbytes]
      rfl
  | GetPeers =>
      rw [← Except.ok.inj h]
      rfl
  | Peers message =>
      simp only [Message.serialize, PeersMessage.stream_serialize, bind_eq_ok, pure_eq_ok] at h
      obtain ⟨_, _, hbytes⟩ := h
      rw [← hbytes]
      rfl

theorem prefix_same_kind {message other : Message} {bytes otherBytes : Bytes}
    (hm : message.serialize = .ok bytes) (ho : other.serialize = .ok otherBytes)
    (h : bytes <+: otherBytes) : message.type_indicator = other.type_indicator := by
  have hstarts := message_serialize_starts hm
  have hlength : message.type_indicator.length = 2 := by cases message <;> rfl
  obtain ⟨rest, rfl⟩ := h
  have hle : 2 ≤ bytes.length := by
    rw [← hstarts, List.length_take] at hlength
    omega
  rw [← hstarts, ← message_serialize_starts ho, List.take_append_of_le_length hle]

-- A header and a message, read one after the other as the receiver does.
def read_header_and_message : Stream (MessageHeader × Message) := do
  let header ← MessageHeader.stream_deserialize
  let message ← Message.stream_deserialize crypto
  return (header, message)

theorem message_round_trip {header : MessageHeader} {message : Message} (hheader : header.Fits)
    (hmessage : message.Fits) :
    ∃ headerBytes messageBytes decoded,
      header.serialize = .ok headerBytes ∧ message.serialize = .ok messageBytes ∧
      (∀ rest, read_header_and_message crypto (headerBytes ++ messageBytes ++ rest) =
        .ok ((header, decoded), rest)) ∧
      SameMessage crypto message decoded ∧
      ∀ (other : Message) (otherBytes : Bytes), other.serialize = .ok otherBytes →
        other.type_indicator ≠ message.type_indicator →
        ¬messageBytes <+: otherBytes ∧ ¬otherBytes <+: messageBytes := by
  obtain ⟨headerBytes, hh, hreadsHeader⟩ := message_header_round_trip hheader
  obtain ⟨body, decoded, hm, hsame, hreads⟩ := reads_message crypto hmessage
  refine ⟨headerBytes, message.type_indicator ++ body, decoded, hh, hm, ?_, hsame, ?_⟩
  · intro rest
    exact hreadsHeader.bind (Reads.map _ hreads) rest
  · intro other otherBytes ho hkind
    constructor
    · intro hprefix
      exact hkind (prefix_same_kind hm ho hprefix).symm
    · intro hprefix
      exact hkind (prefix_same_kind ho hm hprefix)

theorem message_round_trip_genesis :
    ∃ headerBytes messageBytes decoded,
      (MessageHeader.mk 1615757200 7 0 7).serialize = .ok headerBytes ∧
      (Message.Data ⟨DATA_BLOCK, .Block (genesis_block .residue)⟩).serialize = .ok messageBytes ∧
      (∀ rest, read_header_and_message .residue (headerBytes ++ messageBytes ++ rest) =
        .ok ((MessageHeader.mk 1615757200 7 0 7, decoded), rest)) ∧
      SameMessage .residue (.Data ⟨DATA_BLOCK, .Block (genesis_block .residue)⟩) decoded ∧
      ∀ (other : Message) (otherBytes : Bytes), other.serialize = .ok otherBytes →
        other.type_indicator ≠ MSG_DATA → ¬messageBytes <+: otherBytes ∧ ¬otherBytes <+: messageBytes := by
  have hheader : (MessageHeader.mk 1615757200 7 0 7).Fits :=
    ⟨by decide, by decide, by decide, by decide⟩
  have hmessage : (Message.Data ⟨DATA_BLOCK, .Block (genesis_block .residue)⟩).Fits :=
    ⟨rfl, genesis_fits⟩
  exact message_round_trip .residue hheader hmessage

end RoundTrip

end Skepticoin
