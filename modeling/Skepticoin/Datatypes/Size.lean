import Skepticoin.Datatypes.RoundTrip

namespace Skepticoin

open Guard Codec

section Size

-- How many bytes a value is written in, as far as it is written at all.
def vlq_size (i : Nat) : Nat := bit_length i / 7 + 1

def Signature.size : Signature → Nat
  | .SignableEquivalent => 1
  | .CoinbaseData data => 6 + data.signature.length
  | .SECP256k1Signature _ => 65

def Input.size (input : Input) : Nat := 36 + input.signature.elim 0 Signature.size

def OUTPUT_SIZE : Nat := 73

def Transaction.size (transaction : Transaction) : Nat :=
  1 + (vlq_size transaction.inputs.length + (transaction.inputs.map Input.size).sum) +
    (vlq_size transaction.outputs.length + OUTPUT_SIZE * transaction.outputs.length)

def BlockHeader.size (header : BlockHeader) : Nat :=
  1 + (vlq_size header.summary.height + 104) + (64 + header.pow_evidence.chain_sample.length)

def Block.size (block : Block) : Nat :=
  block.header.size + (vlq_size block.transactions.length + (block.transactions.map Transaction.size).sum)

variable {bytes : Bytes}

theorem vlq_serialize_length {i : Nat} (h : stream_serialize_vlq i = .ok bytes) : bytes.length = vlq_size i := by
  rw [stream_serialize_vlq_eq, Except.ok.injEq] at h
  rw [← h, vlqDigits_length, vlq_size]

theorem pack_length {width n : Nat} (h : pack width n = .ok bytes) : bytes.length = width := by
  obtain ⟨_, rfl⟩ := pack_eq_ok.mp h
  exact to_bytes_length width n

-- A list is as long as its elements and its length prefix together.
theorem list_serialize_length {α : Type} {stream_serialize : α → Py Bytes} {size : α → Nat} {lst : List α}
    (hsize : ∀ a ∈ lst, ∀ bytes, stream_serialize a = .ok bytes → bytes.length = size a)
    (h : stream_serialize_list stream_serialize lst = .ok bytes) :
    bytes.length = vlq_size lst.length + (lst.map size).sum := by
  obtain ⟨length, elems, hlength, helems, rfl⟩ := serialize_list_eq_ok.mp h
  have hsizes : elems.map List.length = lst.map size := by
    have hall := collect_eq_ok.mp helems
    clear h hlength helems
    induction hall with
    | nil => rfl
    | cons hfirst _ ih =>
        rw [List.map_cons, List.map_cons, hsize _ List.mem_cons_self _ hfirst,
          ih fun a ha => hsize a (List.mem_cons_of_mem _ ha)]
  rw [List.length_append, vlq_serialize_length hlength, List.length_flatten, hsizes]

theorem signature_serialize_length {signature : Signature} (h : signature.stream_serialize = .ok bytes) :
    bytes.length = signature.size := by
  cases signature with
  | SignableEquivalent =>
      rw [← Except.ok.inj h]
      rfl
  | SECP256k1Signature signature =>
      rw [← Except.ok.inj h, List.length_append, signature.2]
      rfl
  | CoinbaseData data =>
      obtain ⟨height, length, hheight, hlength, rfl⟩ := coinbase_data_serialize_eq_ok.mp h
      have hh := pack_length hheight
      have hl := pack_length hlength
      simp only [List.length_append, Signature.size, TYPE_COINBASE_DATA, List.length_singleton]
      omega

theorem input_serialize_length {input : Input} (h : input.stream_serialize = .ok bytes) :
    bytes.length = input.size := by
  obtain ⟨reference, signature, signed, hreference, hsome, hsigned, rfl⟩ := input_serialize_eq_ok.mp h
  simp only [OutputReference.stream_serialize, bind_eq_ok, pure_eq_ok] at hreference
  obtain ⟨index, hindex, rfl⟩ := hreference
  have hi := pack_length hindex
  have hs := signature_serialize_length hsigned
  rw [Input.size, hsome, Option.elim_some]
  simp only [List.length_append, input.output_reference.hash.2]
  omega

theorem output_serialize_length {output : Output} (h : output.stream_serialize = .ok bytes) :
    bytes.length = OUTPUT_SIZE := by
  simp only [Output.stream_serialize, bind_eq_ok, pure_eq_ok] at h
  obtain ⟨value, hvalue, rfl⟩ := h
  have hv := pack_length hvalue
  simp only [List.length_append, SECP256k1PublicKey.stream_serialize, TYPE_SECP256k1, List.length_singleton,
    output.public_key.public_key.2, OUTPUT_SIZE]
  omega

theorem transaction_serialize_length {transaction : Transaction} (h : transaction.serialize = .ok bytes) :
    bytes.length = transaction.size := by
  obtain ⟨inputs, outputs, hinputs, houtputs, rfl⟩ := transaction_serialize_eq_ok.mp h
  have hi : inputs.length = vlq_size transaction.inputs.length + (transaction.inputs.map Input.size).sum :=
    list_serialize_length (fun _ _ _ => input_serialize_length) hinputs
  have ho := list_serialize_length (fun _ _ _ => output_serialize_length) houtputs
  rw [List.map_const', List.sum_replicate, smul_eq_mul, Nat.mul_comm] at ho
  simp only [List.length_append, List.length_singleton, Transaction.size]
  omega

theorem header_serialize_length {header : BlockHeader} (h : header.serialize = .ok bytes) :
    bytes.length = header.size := by
  obtain ⟨summary, hsummary, rfl⟩ := header_serialize_eq_ok.mp h
  obtain ⟨height, timestamp, nonce, hheight, htimestamp, hnonce, rfl⟩ := summary_serialize_eq_ok.mp hsummary
  have hh := vlq_serialize_length hheight
  have ht := pack_length htimestamp
  have hn := pack_length hnonce
  simp only [PowEvidence.stream_serialize, List.length_append, List.length_singleton, BlockHeader.size,
    header.summary.previous_block_hash.2, header.summary.merkle_root_hash.2, header.summary.target.2,
    header.pow_evidence.summary_hash.2, header.pow_evidence.block_hash.2]
  omega

theorem block_serialize_length {block : Block} (h : block.serialize = .ok bytes) : bytes.length = block.size := by
  obtain ⟨header, transactions, hheader, htransactions, rfl⟩ := block_serialize_eq_ok.mp h
  have hh := header_serialize_length hheader
  have ht : transactions.length
      = vlq_size block.transactions.length + (block.transactions.map Transaction.size).sum :=
    list_serialize_length (fun _ _ _ => transaction_serialize_length) htransactions
  rw [List.length_append, Block.size]
  omega

theorem outputs_length_le_size (transaction : Transaction) : transaction.outputs.length ≤ transaction.size := by
  unfold Transaction.size OUTPUT_SIZE
  omega

theorem transaction_size_le {block : Block} {transaction : Transaction} (hmem : transaction ∈ block.transactions) :
    transaction.size ≤ block.size := by
  have hle := List.single_le_sum (fun _ _ => Nat.zero_le _) _ (List.mem_map_of_mem (f := Transaction.size) hmem)
  unfold Block.size
  omega

end Size

end Skepticoin
