import Skepticoin.Genesis

namespace Skepticoin

open Guard Codec

section Fits

-- What the widths of the format ask of a value, beyond what its type already
-- says.
def Signature.Fits : Signature → Prop
  | .CoinbaseData data => data.signature.length ≤ 255
  | _ => True

def Input.Fits (input : Input) : Prop := ∃ signature ∈ input.signature, signature.Fits

def Output.Fits (output : Output) : Prop := output.value < 2 ^ 64

structure Transaction.Fits (transaction : Transaction) : Prop where
  inputs : ∀ input ∈ transaction.inputs, input.Fits
  outputs : ∀ output ∈ transaction.outputs, output.Fits

structure BlockHeader.Fits (header : BlockHeader) : Prop where
  timestamp : header.summary.timestamp < 2 ^ 32
  nonce : header.summary.nonce < 2 ^ 32
  evidence : header.pow_evidence.Fits

structure Block.Fits (block : Block) : Prop where
  header : block.header.Fits
  transactions : ∀ transaction ∈ block.transactions, transaction.Fits

end Fits

section Serialize

theorem pack_ok {width n : Nat} (h : n < 256 ^ width) : ∃ bytes, pack width n = .ok bytes :=
  ⟨to_bytes width n, pack_eq_ok.mpr ⟨h, rfl⟩⟩

theorem serialize_list_ok {α : Type} {stream_serialize : α → Py Bytes} {lst : List α}
    (h : ∀ a ∈ lst, ∃ bytes, stream_serialize a = .ok bytes) :
    ∃ bytes, stream_serialize_list stream_serialize lst = .ok bytes := by
  obtain ⟨elems, helems⟩ := collect_ok stream_serialize lst h
  exact ⟨_, serialize_list_eq_ok.mpr ⟨_, elems, stream_serialize_vlq_eq _, helems, rfl⟩⟩

theorem signature_serialize_ok {signature : Signature} (h : signature.Fits) :
    ∃ bytes, signature.stream_serialize = .ok bytes := by
  cases signature with
  | SignableEquivalent => exact ⟨_, rfl⟩
  | SECP256k1Signature signature => exact ⟨_, rfl⟩
  | CoinbaseData data =>
      have hheight := data.height_le
      have hlength : data.signature.length ≤ 255 := h
      obtain ⟨height, hh⟩ := pack_ok (show data.height < 256 ^ 4 by omega)
      obtain ⟨length, hl⟩ := pack_ok (show data.signature.length < 256 ^ 1 by omega)
      exact ⟨_, coinbase_data_serialize_eq_ok.mpr ⟨height, length, hh, hl, rfl⟩⟩

def Signature.RoundTrips (signature : Signature) : Prop :=
  ∃ bytes, signature.stream_serialize = .ok bytes ∧ Signature.deserialize bytes = .ok signature

theorem signature_round_trips_iff_ok (signature : Signature) :
    signature.RoundTrips ↔ ∃ bytes, signature.stream_serialize = .ok bytes := by
  constructor
  · rintro ⟨bytes, hbytes, _⟩
    exact ⟨bytes, hbytes⟩
  · rintro ⟨bytes, hbytes⟩
    have hread := reads_signature hbytes []
    rw [List.append_nil] at hread
    refine ⟨bytes, hbytes, ?_⟩
    rw [Signature.deserialize, hread]
    rfl

theorem signature_serialize_ok_iff (signature : Signature) :
    (∃ bytes, signature.stream_serialize = .ok bytes) ↔ signature.Fits := by
  refine ⟨?_, signature_serialize_ok⟩
  rintro ⟨bytes, hbytes⟩
  cases signature with
  | SignableEquivalent => trivial
  | SECP256k1Signature signature => trivial
  | CoinbaseData data =>
      obtain ⟨_, length, _, hlength, _⟩ := coinbase_data_serialize_eq_ok.mp hbytes
      exact Nat.le_of_lt_succ (pack_eq_ok.mp hlength).1

-- The length byte holds every length that the constructor accepts but its last.
theorem signature_round_trips_iff (signature : Signature) :
    signature.RoundTrips ↔
      ∀ data, signature = .CoinbaseData data → data.signature.length ≠ 256 := by
  rw [signature_round_trips_iff_ok, signature_serialize_ok_iff]
  cases signature with
  | SignableEquivalent => simp [Signature.Fits]
  | SECP256k1Signature signature => simp [Signature.Fits]
  | CoinbaseData data =>
      have hle := data.signature_le
      simp only [Signature.Fits, Signature.CoinbaseData.injEq, forall_eq']
      omega

theorem long_payload_serialize {data : CoinbaseData} (h : data.signature.length = 256) :
    data.stream_serialize = .error .StructError := by
  have hle := data.height_le
  obtain ⟨height, hheight⟩ := pack_ok (show data.height < 256 ^ 4 by omega)
  rw [CoinbaseData.stream_serialize, hheight, h]
  rfl

theorem long_payload_not_serializable :
    ∃ data, CoinbaseData.new 0 (List.replicate 256 0) = .ok data ∧
      (Signature.CoinbaseData data).stream_serialize = .error .StructError ∧
      ¬(Signature.CoinbaseData data).RoundTrips := by
  have hlength : (List.replicate 256 (0 : UInt8)).length = 256 := List.length_replicate
  let data : CoinbaseData := ⟨0, List.replicate 256 0, Nat.zero_le _, hlength.le⟩
  have herror : data.stream_serialize = .error .StructError := long_payload_serialize hlength
  refine ⟨data, coinbase_data_new data, herror, ?_⟩
  rintro ⟨bytes, hbytes, _⟩
  cases herror.symm.trans hbytes

theorem output_reference_serialize_ok (reference : OutputReference) :
    ∃ bytes, reference.stream_serialize = .ok bytes := by
  have hle := reference.index_le
  obtain ⟨index, hindex⟩ := pack_ok (show reference.index < 256 ^ 4 by omega)
  refine ⟨reference.hash.1 ++ index, ?_⟩
  rw [OutputReference.stream_serialize, hindex]
  rfl

theorem input_serialize_ok {input : Input} (h : input.Fits) :
    ∃ bytes, input.stream_serialize = .ok bytes := by
  obtain ⟨signature, hsome, hfits⟩ := h
  obtain ⟨signed, hsigned⟩ := signature_serialize_ok hfits
  obtain ⟨reference, href⟩ := output_reference_serialize_ok input.output_reference
  exact ⟨_, input_serialize_eq_ok.mpr ⟨reference, signature, signed, href, hsome, hsigned, rfl⟩⟩

theorem output_serialize_ok {output : Output} (h : output.Fits) :
    ∃ bytes, output.stream_serialize = .ok bytes := by
  have hlt : output.value < 2 ^ 64 := h
  obtain ⟨value, hvalue⟩ := pack_ok (show output.value < 256 ^ 8 by omega)
  refine ⟨value ++ output.public_key.stream_serialize, ?_⟩
  rw [Output.stream_serialize, hvalue]
  rfl

theorem transaction_serialize_ok {transaction : Transaction} (h : transaction.Fits) :
    ∃ bytes, transaction.serialize = .ok bytes := by
  obtain ⟨inputs, hi⟩ := serialize_list_ok fun input hin => input_serialize_ok (h.inputs input hin)
  obtain ⟨outputs, ho⟩ := serialize_list_ok fun output hout => output_serialize_ok (h.outputs output hout)
  exact ⟨_, transaction_serialize_eq_ok.mpr ⟨inputs, outputs, hi, ho, rfl⟩⟩

theorem header_serialize_ok {header : BlockHeader} (h : header.Fits) :
    ∃ bytes, header.serialize = .ok bytes := by
  have htime := h.timestamp
  have hnumber := h.nonce
  obtain ⟨timestamp, ht⟩ := pack_ok (show header.summary.timestamp < 256 ^ 4 by omega)
  obtain ⟨nonce, hn⟩ := pack_ok (show header.summary.nonce < 256 ^ 4 by omega)
  have hsummary := summary_serialize_eq_ok.mpr ⟨_, timestamp, nonce, stream_serialize_vlq_eq _, ht, hn, rfl⟩
  exact ⟨_, header_serialize_eq_ok.mpr ⟨_, hsummary, rfl⟩⟩

theorem block_serialize_ok {block : Block} (h : block.Fits) : ∃ bytes, block.serialize = .ok bytes := by
  obtain ⟨header, hh⟩ := header_serialize_ok h.header
  obtain ⟨transactions, ht⟩ := serialize_list_ok fun transaction hin =>
    transaction_serialize_ok (h.transactions transaction hin)
  exact ⟨_, block_serialize_eq_ok.mpr ⟨header, transactions, hh, ht, rfl⟩⟩

end Serialize

section RoundTrip

variable (crypto : Crypto)

theorem reads_transaction {transaction : Transaction} {bytes : Bytes} (h : transaction.serialize = .ok bytes) :
    Reads (Transaction.stream_deserialize crypto) bytes
      ⟨transaction.inputs, transaction.outputs, some (crypto.sha256d bytes)⟩ :=
  (refines_transaction crypto).reads (strict_reads_transaction crypto h)

theorem reads_header {header : BlockHeader} {bytes : Bytes} (hfits : header.pow_evidence.Fits)
    (h : header.serialize = .ok bytes) : Reads BlockHeader.stream_deserialize bytes header :=
  refines_header.reads (strict_reads_header hfits h)

-- A block as the decoder returns it: the same header and the same
-- transactions, with the hashes of what they serialize to.
structure Decoded (block decoded : Block) : Prop where
  header : decoded.header = block.header
  transactions : List.Forall₂ (Recached crypto) block.transactions decoded.transactions
  hash : ∃ hash, block.header.hash crypto = .ok hash ∧ decoded.cached_hash = some hash

theorem reads_block {block : Block} {bytes : Bytes} (hfits : block.header.pow_evidence.Fits)
    (h : block.serialize = .ok bytes) :
    ∃ decoded, Decoded crypto block decoded ∧ Reads (Block.stream_deserialize crypto) bytes decoded := by
  obtain ⟨header, transactions, hheader, htransactions, hreads⟩ := strict_reads_block crypto hfits h
  refine ⟨⟨block.header, transactions, some (crypto.sha256d header)⟩,
    ⟨rfl, htransactions, crypto.sha256d header, ?_, rfl⟩, (refines_block crypto).reads hreads⟩
  rw [BlockHeader.hash, hheader]
  rfl

-- Whatever follows a serialized block, the decoder returns the block and
-- leaves just that.
theorem block_round_trip {block : Block} (h : block.Fits) (rest : Bytes) :
    ∃ bytes decoded, block.serialize = .ok bytes ∧
      Block.stream_deserialize crypto (bytes ++ rest) = .ok (decoded, rest) ∧ Decoded crypto block decoded := by
  obtain ⟨bytes, hbytes⟩ := block_serialize_ok h
  obtain ⟨decoded, hdecoded, hreads⟩ := reads_block crypto h.header.evidence hbytes
  exact ⟨bytes, decoded, hbytes, hreads rest, hdecoded⟩

theorem genesis_fits : (genesis_block .residue).Fits := by
  refine ⟨⟨by decide, by decide, genesis_evidence_fits⟩, ?_⟩
  intro transaction ht
  rw [List.mem_singleton.mp ht]
  refine ⟨?_, ?_⟩
  · intro input hinput
    rw [List.mem_singleton.mp hinput]
    refine ⟨_, rfl, ?_⟩
    show just_believe_in_me.length ≤ 255
    decide +kernel
  · intro output houtput
    rw [List.mem_singleton.mp houtput]
    show 1000000000 < 2 ^ 64
    decide

theorem block_round_trip_genesis :
    ∃ bytes decoded, (genesis_block .residue).serialize = .ok bytes ∧
      Block.stream_deserialize .residue (bytes ++ [0xff]) = .ok (decoded, [0xff]) ∧
      Decoded .residue (genesis_block .residue) decoded :=
  block_round_trip .residue genesis_fits [0xff]

end RoundTrip

end Skepticoin
