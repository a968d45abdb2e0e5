import Skepticoin.Serialization.Vlq

namespace Skepticoin

open Guard Codec

variable {α : Type}

@[simp] theorem pack_eq_ok {width n : Nat} {bytes : Bytes} :
    pack width n = .ok bytes ↔ n < 256 ^ width ∧ to_bytes width n = bytes := by
  unfold pack
  split_ifs with h <;> simp [h]

theorem reads_safe_read {n : Nat} (bytes : FixedBytes n) : Reads (safe_read n) bytes.1 bytes := by
  intro rest
  have hlen : n ≤ (bytes.1 ++ rest).length := by simp [bytes.2]
  simp only [safe_read, dif_pos hlen, Except.ok.injEq, Prod.mk.injEq, Subtype.ext_iff]
  exact ⟨List.take_left' bytes.2, List.drop_left' bytes.2⟩

theorem consumes_safe_read (n : Nat) : Consumes (safe_read n) fun bytes used => used = bytes.1 := by
  intro stream bytes rest h
  unfold safe_read at h
  split at h
  · obtain ⟨rfl, rfl⟩ : _ = bytes ∧ stream.drop n = rest := by simpa using h
    exact ⟨stream.take n, (List.take_append_drop n stream).symm, rfl⟩
  · cases h

theorem reads_unpack {width n : Nat} {bytes : Bytes} (h : pack width n = .ok bytes) :
    Reads (unpack width) bytes n := by
  obtain ⟨hn, rfl⟩ := pack_eq_ok.mp h
  have hread := (reads_safe_read (FixedBytes.ofNat width n)).map fun b => from_bytes b.1
  simpa only [unpack, FixedBytes.ofNat, from_bytes_to_bytes width n hn] using hread

theorem consumes_unpack (width : Nat) : Consumes (unpack width) fun n used => pack width n = .ok used := by
  refine ((consumes_safe_read width).bind fun bytes => Consumes.pure (from_bytes bytes.1)).mono ?_
  rintro _ _ ⟨⟨_, rfl⟩, first, _, rfl, rfl, rfl, rfl⟩
  rw [List.append_nil, pack_eq_ok]
  exact ⟨from_bytes_lt first, to_bytes_from_bytes first⟩

-- A list is read back element by element from the chunks that its elements
-- were written as.
theorem reads_list {stream_serialize : α → Py Bytes} {stream_deserialize : Stream α}
    {lst decoded : List α} {chunks : List Bytes} {bytes : Bytes}
    (hlist : stream_serialize_list stream_serialize lst = .ok bytes)
    (hchunks : collect stream_serialize lst = .ok chunks)
    (hread : List.Forall₂ (Reads stream_deserialize) chunks decoded) :
    Reads (stream_deserialize_list stream_deserialize) bytes decoded := by
  simp only [stream_serialize_list, hchunks, bind_eq_ok, pure_eq_ok, Except.ok.injEq] at hlist
  obtain ⟨length, hlength, _, rfl, rfl⟩ := hlist
  have hlen : lst.length = decoded.length :=
    (collect_eq_ok.mp hchunks).length_eq.trans hread.length_eq
  exact (hlen ▸ reads_vlq hlength).bind (Reads.times hread)

-- The reader that refuses a quantity which is not written in the encoder's
-- own form.
def strict_vlq : Stream Nat := do
  let (i, used) ← traced stream_deserialize_vlq
  if VlqNormal used then return i
  else throw (.DeserializationError "Padded variable-length quantity.")

def strict_list (strict : Stream α) : Stream (List α) := do
  let length ← strict_vlq
  times strict length

theorem strict_vlq_eq_ok {stream rest : Bytes} {i : Nat} :
    strict_vlq stream = .ok (i, rest) ↔ ∃ used, VlqNormal used ∧
      traced stream_deserialize_vlq stream = .ok ((i, used), rest) := by
  simp only [strict_vlq, bind_run_eq_ok, Prod.exists]
  constructor
  · rintro ⟨j, used, middle, ht, h⟩
    split at h
    · next hnormal =>
        rw [pure_run, Except.ok.injEq, Prod.mk.injEq] at h
        obtain ⟨rfl, rfl⟩ := h
        exact ⟨used, hnormal, ht⟩
    · cases h
  · rintro ⟨used, hnormal, ht⟩
    exact ⟨i, used, rest, ht, by rw [if_pos hnormal, pure_run]⟩

theorem refines_vlq : Refines strict_vlq stream_deserialize_vlq := by
  rintro stream ⟨i, rest⟩ h
  obtain ⟨used, _, ht⟩ := strict_vlq_eq_ok.mp h
  exact (traced_eq_ok.mp ht).1

theorem strict_reads_vlq {i : Nat} {bytes : Bytes} (h : stream_serialize_vlq i = .ok bytes) :
    Reads strict_vlq bytes i := by
  intro rest
  refine strict_vlq_eq_ok.mpr ⟨bytes, ?_, (reads_vlq h).traced rest⟩
  rw [stream_serialize_vlq_eq, Except.ok.injEq] at h
  subst h
  exact (serialize_vlq_iff_normal (lt_pow_needed_bytes i)).mp (stream_serialize_vlq_eq i)

theorem strict_consumes_vlq : Consumes strict_vlq fun i used => stream_serialize_vlq i = .ok used := by
  intro stream i rest h
  obtain ⟨used, hnormal, ht⟩ := strict_vlq_eq_ok.mp h
  obtain ⟨first, rfl, hfirst, n, hn, hdigits⟩ := consumes_vlq.traced _ _ _ ht
  dsimp only at hfirst hn hdigits
  subst hfirst
  subst hdigits
  exact ⟨_, rfl, (serialize_vlq_iff_normal hn).mpr hnormal⟩

theorem refines_list {strict stream_deserialize : Stream α} (h : Refines strict stream_deserialize) :
    Refines (strict_list strict) (stream_deserialize_list stream_deserialize) :=
  refines_vlq.bind fun _ => h.times _

theorem strict_reads_list {stream_serialize : α → Py Bytes} {strict : Stream α}
    {lst decoded : List α} {chunks : List Bytes} {bytes : Bytes}
    (hlist : stream_serialize_list stream_serialize lst = .ok bytes)
    (hchunks : collect stream_serialize lst = .ok chunks)
    (hread : List.Forall₂ (Reads strict) chunks decoded) : Reads (strict_list strict) bytes decoded := by
  simp only [stream_serialize_list, hchunks, bind_eq_ok, pure_eq_ok, Except.ok.injEq] at hlist
  obtain ⟨length, hlength, _, rfl, rfl⟩ := hlist
  have hlen : lst.length = decoded.length :=
    (collect_eq_ok.mp hchunks).length_eq.trans hread.length_eq
  exact (hlen ▸ strict_reads_vlq hlength).bind (Reads.times hread)

theorem strict_consumes_list {stream_serialize : α → Py Bytes} {strict : Stream α}
    (h : Consumes strict fun a used => stream_serialize a = .ok used) :
    Consumes (strict_list strict) fun lst used => stream_serialize_list stream_serialize lst = .ok used := by
  refine (strict_consumes_vlq.bind fun n => h.times n).mono ?_
  rintro lst _ ⟨n, length, elems, rfl, hlength, rfl, chunks, rfl, hchunks⟩
  simp only [stream_serialize_list, bind_eq_ok, pure_eq_ok]
  exact ⟨length, hlength, chunks, collect_eq_ok.mpr hchunks, rfl⟩

end Skepticoin
