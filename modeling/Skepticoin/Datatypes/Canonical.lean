import Skepticoin.Datatypes.Codec

namespace Skepticoin

open Guard Codec

-- The decoders that refuse a block with a padded quantity anywhere: the
-- height, the number of transactions, or a number of inputs or outputs.
def strict_transaction (crypto : Crypto) : Stream Transaction := do
  let ((inputs, outputs), original) ← traced do
    let version ← safe_read 1
    raw (raiseIf (version.1 ≠ [0x00])
      (.ValueError "Current version supports only version 0 transactions"))
    let inputs ← strict_list Input.stream_deserialize
    let outputs ← strict_list Output.stream_deserialize
    return (inputs, outputs)
  return ⟨inputs, outputs, some (crypto.sha256d original)⟩

def strict_summary : Stream BlockSummary := do
  let height ← strict_vlq
  let previous_block_hash ← safe_read 32
  let merkle_root_hash ← safe_read 32
  let timestamp ← unpack 4
  let target ← safe_read 32
  let nonce ← unpack 4
  return ⟨height, previous_block_hash, merkle_root_hash, timestamp, target, nonce⟩

def strict_header : Stream BlockHeader := do
  let version ← safe_read 1
  raw (raiseIf (version.1 ≠ [0x00])
    (.ValueError "Current version only supports version 0 blocks"))
  let summary ← strict_summary
  let pow_evidence ← PowEvidence.stream_deserialize
  return ⟨summary, pow_evidence⟩

def strict_block (crypto : Crypto) : Stream Block := do
  let (header, original) ← traced strict_header
  let transactions ← strict_list (strict_transaction crypto)
  return ⟨header, transactions, some (crypto.sha256d original)⟩

variable (crypto : Crypto)

section Refines

theorem refines_transaction :
    Refines (strict_transaction crypto) (Transaction.stream_deserialize crypto) := by
  refine Refines.bind (Refines.traced ?_) fun _ => Refines.refl _
  exact (Refines.refl _).bind fun _ => (Refines.refl _).bind fun _ =>
    (refines_list (Refines.refl _)).bind fun _ => (refines_list (Refines.refl _)).bind fun _ =>
      Refines.refl _

theorem refines_header : Refines strict_header BlockHeader.stream_deserialize :=
  (Refines.refl _).bind fun _ => (Refines.refl _).bind fun _ =>
    (refines_vlq.bind fun _ => Refines.refl _).bind fun _ => Refines.refl _

theorem refines_block : Refines (strict_block crypto) (Block.stream_deserialize crypto) :=
  refines_header.traced.bind fun _ => (refines_list (refines_transaction crypto)).bind fun _ =>
    Refines.refl _

end Refines

section Reads

theorem transaction_serialize_eq_ok {transaction : Transaction} {bytes : Bytes} :
    transaction.serialize = .ok bytes ↔ ∃ inputs outputs,
      stream_serialize_list Input.stream_serialize transaction.inputs = .ok inputs ∧
      stream_serialize_list Output.stream_serialize transaction.outputs = .ok outputs ∧
      [0x00] ++ inputs ++ outputs = bytes := by
  simp only [Transaction.serialize, bind_eq_ok, pure_eq_ok]
  constructor
  · rintro ⟨inputs, hi, outputs, ho, rfl⟩
    exact ⟨inputs, outputs, hi, ho, rfl⟩
  · rintro ⟨inputs, outputs, hi, ho, rfl⟩
    exact ⟨inputs, hi, outputs, ho, rfl⟩

theorem serialize_list_eq_ok {α : Type} {stream_serialize : α → Py Bytes} {lst : List α} {bytes : Bytes} :
    stream_serialize_list stream_serialize lst = .ok bytes ↔ ∃ length elems,
      stream_serialize_vlq lst.length = .ok length ∧ collect stream_serialize lst = .ok elems ∧
      length ++ elems.flatten = bytes := by
  simp only [stream_serialize_list, bind_eq_ok, pure_eq_ok]
  constructor
  · rintro ⟨length, hl, elems, he, rfl⟩
    exact ⟨length, elems, hl, he, rfl⟩
  · rintro ⟨length, elems, hl, he, rfl⟩
    exact ⟨length, hl, elems, he, rfl⟩

-- Elements that are read back as they were, in a list.
theorem strict_reads_plain_list {α : Type} {stream_serialize : α → Py Bytes} {strict : Stream α}
    (hread : ∀ a bytes, stream_serialize a = .ok bytes → Reads strict bytes a)
    {lst : List α} {bytes : Bytes} (h : stream_serialize_list stream_serialize lst = .ok bytes) :
    Reads (strict_list strict) bytes lst := by
  obtain ⟨_, elems, _, helems, _⟩ := serialize_list_eq_ok.mp h
  refine strict_reads_list h helems ?_
  exact (collect_eq_ok.mp helems).flip.imp fun _ _ he => hread _ _ he

-- What a decoder returns for a serialized transaction: the same fields, and
-- as cached hash the hash of the bytes.
def Recached (transaction decoded : Transaction) : Prop :=
  ∃ bytes, transaction.serialize = .ok bytes ∧
    decoded = ⟨transaction.inputs, transaction.outputs, some (crypto.sha256d bytes)⟩

theorem strict_reads_transaction {transaction : Transaction} {bytes : Bytes}
    (h : transaction.serialize = .ok bytes) :
    Reads (strict_transaction crypto) bytes
      ⟨transaction.inputs, transaction.outputs, some (crypto.sha256d bytes)⟩ := by
  obtain ⟨inputs, outputs, hi, ho, rfl⟩ := transaction_serialize_eq_ok.mp h
  have hin := strict_reads_plain_list (fun _ _ => reads_input) hi
  have hout := strict_reads_plain_list (fun _ _ => reads_output) ho
  have hversion := reads_safe_read (n := 1) ⟨[0x00], rfl⟩
  rw [List.append_assoc]
  conv => arg 2; rw [← List.append_nil ([0x00] ++ (inputs ++ outputs))]
  refine Reads.bind (a := ((transaction.inputs, transaction.outputs), [0x00] ++ (inputs ++ outputs)))
    (Reads.traced ?_) (Reads.pure _)
  exact hversion.bind (Reads.unless (by simp) (hin.bind (Reads.map _ hout)))

theorem transaction_serialize_inj {first second : Transaction} {bytes : Bytes}
    (hfirst : first.serialize = .ok bytes) (hsecond : second.serialize = .ok bytes) :
    first.inputs = second.inputs ∧ first.outputs = second.outputs := by
  have hsame := ((strict_reads_transaction .residue hfirst).inj (strict_reads_transaction .residue hsecond)
    (rfl : bytes ++ [] = bytes ++ [])).1
  simpa using hsame

theorem summary_serialize_eq_ok {summary : BlockSummary} {bytes : Bytes} :
    summary.serialize = .ok bytes ↔ ∃ height timestamp nonce,
      stream_serialize_vlq summary.height = .ok height ∧ pack 4 summary.timestamp = .ok timestamp ∧
      pack 4 summary.nonce = .ok nonce ∧
      height ++ (summary.previous_block_hash.1 ++ (summary.merkle_root_hash.1 ++
        (timestamp ++ (summary.target.1 ++ nonce)))) = bytes := by
  simp only [BlockSummary.serialize, bind_eq_ok, pure_eq_ok, List.append_assoc]
  constructor
  · rintro ⟨height, hh, timestamp, ht, nonce, hn, rfl⟩
    exact ⟨height, timestamp, nonce, hh, ht, hn, rfl⟩
  · rintro ⟨height, timestamp, nonce, hh, ht, hn, rfl⟩
    exact ⟨height, hh, timestamp, ht, nonce, hn, rfl⟩

theorem strict_reads_summary {summary : BlockSummary} {bytes : Bytes}
    (h : summary.serialize = .ok bytes) : Reads strict_summary bytes summary := by
  obtain ⟨height, timestamp, nonce, hh, ht, hn, rfl⟩ := summary_serialize_eq_ok.mp h
  exact (strict_reads_vlq hh).bind ((reads_safe_read _).bind ((reads_safe_read _).bind
    ((reads_unpack ht).bind ((reads_safe_read _).bind (Reads.map _ (reads_unpack hn))))))

-- The chain sample has the format's width.
def PowEvidence.Fits (evidence : PowEvidence) : Prop :=
  evidence.chain_sample.length = CHAIN_SAMPLE_TOTAL_SIZE

theorem reads_pow_evidence {evidence : PowEvidence} (h : evidence.Fits) :
    Reads PowEvidence.stream_deserialize evidence.stream_serialize evidence := by
  unfold PowEvidence.stream_serialize
  rw [List.append_assoc]
  have hsample := reads_safe_read (n := CHAIN_SAMPLE_TOTAL_SIZE) ⟨evidence.chain_sample, h⟩
  exact (reads_safe_read _).bind (hsample.bind (Reads.map _ (reads_safe_read _)))

theorem header_serialize_eq_ok {header : BlockHeader} {bytes : Bytes} :
    header.serialize = .ok bytes ↔ ∃ summary, header.summary.serialize = .ok summary ∧
      [0x00] ++ (summary ++ header.pow_evidence.stream_serialize) = bytes := by
  simp [BlockHeader.serialize]

theorem strict_reads_header {header : BlockHeader} {bytes : Bytes} (hfits : header.pow_evidence.Fits)
    (h : header.serialize = .ok bytes) : Reads strict_header bytes header := by
  obtain ⟨summary, hs, rfl⟩ := header_serialize_eq_ok.mp h
  have hversion := reads_safe_read (n := 1) ⟨[0x00], rfl⟩
  exact hversion.bind (Reads.unless (by simp)
    ((strict_reads_summary hs).bind (Reads.map _ (reads_pow_evidence hfits))))

theorem block_serialize_eq_ok {block : Block} {bytes : Bytes} :
    block.serialize = .ok bytes ↔ ∃ header transactions, block.header.serialize = .ok header ∧
      stream_serialize_list Transaction.serialize block.transactions = .ok transactions ∧
      header ++ transactions = bytes := by
  simp only [Block.serialize, bind_eq_ok, pure_eq_ok]
  constructor
  · rintro ⟨header, hh, transactions, ht, rfl⟩
    exact ⟨header, transactions, hh, ht, rfl⟩
  · rintro ⟨header, transactions, hh, ht, rfl⟩
    exact ⟨header, hh, transactions, ht, rfl⟩

theorem collect_recached {transactions : List Transaction} {chunks : List Bytes}
    (h : collect Transaction.serialize transactions = .ok chunks) :
    ∃ decoded, List.Forall₂ (Reads (strict_transaction crypto)) chunks decoded ∧
      List.Forall₂ (Recached crypto) transactions decoded := by
  have hall := collect_eq_ok.mp h
  clear h
  induction hall with
  | nil => exact ⟨[], .nil, .nil⟩
  | cons h _ ih =>
      obtain ⟨decoded, hreads, hrecached⟩ := ih
      exact ⟨_ :: decoded, .cons (strict_reads_transaction crypto h) hreads,
        .cons ⟨_, h, rfl⟩ hrecached⟩

theorem strict_reads_block {block : Block} {bytes : Bytes} (hfits : block.header.pow_evidence.Fits)
    (h : block.serialize = .ok bytes) :
    ∃ header decoded, block.header.serialize = .ok header ∧
      List.Forall₂ (Recached crypto) block.transactions decoded ∧
      Reads (strict_block crypto) bytes ⟨block.header, decoded, some (crypto.sha256d header)⟩ := by
  obtain ⟨header, transactions, hh, ht, rfl⟩ := block_serialize_eq_ok.mp h
  obtain ⟨_, elems, _, helems, _⟩ := serialize_list_eq_ok.mp ht
  obtain ⟨decoded, hreads, hrecached⟩ := collect_recached crypto helems
  refine ⟨header, decoded, hh, hrecached, ?_⟩
  exact (strict_reads_header hfits hh).traced.bind
    (Reads.map _ (strict_reads_list ht helems hreads))

end Reads

section Consumes

theorem strict_consumes_transaction :
    Consumes (strict_transaction crypto) fun transaction used =>
      transaction.serialize = .ok used ∧ transaction.cached_hash = some (crypto.sha256d used) := by
  refine (Consumes.bind (Consumes.traced ((consumes_safe_read 1).bind fun _ =>
    (Consumes.raw _).bind fun _ => (strict_consumes_list consumes_input).bind fun inputs =>
      (strict_consumes_list consumes_output).bind fun outputs => Consumes.pure (inputs, outputs)))
    fun result => Consumes.pure (Transaction.mk result.1.1 result.1.2
      (some (crypto.sha256d result.2)))).mono ?_
  rintro _ _ ⟨⟨_, _⟩, _, _, rfl, ⟨rfl, ⟨_, _⟩, version, _, rfl, rfl, _, _, _, rfl, ⟨hversion, rfl⟩, inputs,
    first, _, rfl, hi, outputs, second, _, rfl, ho, rfl, rfl⟩, rfl, rfl⟩
  obtain rfl : version = [0x00] := by simpa using hversion
  exact ⟨transaction_serialize_eq_ok.mpr ⟨first, second, hi, ho, by simp⟩, by simp⟩

theorem consumes_pow_evidence :
    Consumes PowEvidence.stream_deserialize fun evidence used =>
      evidence.Fits ∧ evidence.stream_serialize = used := by
  refine ((consumes_safe_read 32).bind fun summary_hash => (consumes_safe_read _).bind fun sample =>
    (consumes_safe_read 32).bind fun block_hash =>
      Consumes.pure (PowEvidence.mk summary_hash sample.1 block_hash)).mono ?_
  rintro _ _ ⟨_, _, _, rfl, rfl, sample, _, _, rfl, rfl, _, _, _, rfl, rfl, rfl, rfl⟩
  exact ⟨sample.2, by simp [PowEvidence.stream_serialize]⟩

theorem strict_consumes_summary :
    Consumes strict_summary fun summary used => summary.serialize = .ok used := by
  refine (strict_consumes_vlq.bind fun height => (consumes_safe_read 32).bind fun previous =>
    (consumes_safe_read 32).bind fun merkle => (consumes_unpack 4).bind fun timestamp =>
      (consumes_safe_read 32).bind fun target => (consumes_unpack 4).bind fun nonce =>
        Consumes.pure (BlockSummary.mk height previous merkle timestamp target nonce)).mono ?_
  rintro _ _ ⟨_, height, _, rfl, hh, _, _, _, rfl, rfl, _, _, _, rfl, rfl, _, timestamp, _, rfl, ht,
    _, _, _, rfl, rfl, _, nonce, _, rfl, hn, rfl, rfl⟩
  exact summary_serialize_eq_ok.mpr ⟨height, timestamp, nonce, hh, ht, hn, by simp⟩

theorem strict_consumes_header :
    Consumes strict_header fun header used =>
      header.pow_evidence.Fits ∧ header.serialize = .ok used := by
  refine ((consumes_safe_read 1).bind fun _ => (Consumes.raw _).bind fun _ =>
    strict_consumes_summary.bind fun summary => consumes_pow_evidence.bind fun evidence =>
      Consumes.pure (BlockHeader.mk summary evidence)).mono ?_
  rintro _ _ ⟨⟨_, _⟩, version, _, rfl, rfl, _, _, _, rfl, ⟨hversion, rfl⟩, _, summary, _, rfl, hs, _, _, _,
    rfl, ⟨hfits, rfl⟩, rfl, rfl⟩
  obtain rfl : version = [0x00] := by simpa using hversion
  exact ⟨hfits, header_serialize_eq_ok.mpr ⟨summary, hs, by simp⟩⟩

theorem strict_consumes_block :
    Consumes (strict_block crypto) fun block used => block.serialize = .ok used ∧
      (∃ header, block.header.serialize = .ok header ∧ block.cached_hash = some (crypto.sha256d header)) ∧
      ∀ transaction ∈ block.transactions, ∃ bytes, transaction.serialize = .ok bytes ∧
        transaction.cached_hash = some (crypto.sha256d bytes) := by
  have hstrict := strict_consumes_transaction crypto
  refine (strict_consumes_header.traced.bind fun result =>
    (strict_consumes_vlq.bind fun n => hstrict.times n).bind fun transactions =>
      Consumes.pure (Block.mk result.1 transactions (some (crypto.sha256d result.2)))).mono ?_
  rintro _ _ ⟨⟨header, original⟩, _, _, rfl, ⟨rfl, _, hheader⟩, transactions, _, _, rfl,
    ⟨n, length, _, rfl, hlength, rfl, chunks, rfl, hchunks⟩, rfl, rfl⟩
  refine ⟨block_serialize_eq_ok.mpr ⟨original, length ++ chunks.flatten, hheader, ?_, by simp⟩,
    ⟨original, hheader, rfl⟩, ?_⟩
  · exact serialize_list_eq_ok.mpr ⟨length, chunks, hlength,
      collect_eq_ok.mpr (hchunks.imp fun _ _ h => h.1), rfl⟩
  · intro transaction hmem
    obtain ⟨bytes, _, hbytes⟩ := forall₂_mem_left hchunks hmem
    exact ⟨bytes, hbytes⟩

end Consumes

end Skepticoin
