import Skepticoin.Genesis

namespace Skepticoin

open Guard Codec

variable {crypto : Crypto}

-- The hashes that a decoder cached are those of the content, and the bytes it
-- consumed are those that the content serializes to.
def IdentityByContent (crypto : Crypto) (block : Block) (used : Bytes) : Prop :=
  block.serialize = .ok used ∧
    (∃ hash, block.hash crypto = .ok hash ∧ block.header.hash crypto = .ok hash) ∧
    ∀ transaction ∈ block.transactions, ∃ bytes, transaction.serialize = .ok bytes ∧
      transaction.cached_hash = some (crypto.sha256d bytes)

-- Every quantity in the block is written in the encoder's own form.
def Canonical (crypto : Crypto) (bytes : Bytes) : Prop :=
  ∃ result, strict_block crypto bytes = .ok result

theorem evidence_fits_of_deserialize {bytes rest : Bytes} {block : Block}
    (h : Block.stream_deserialize crypto bytes = .ok (block, rest)) : block.header.pow_evidence.Fits := by
  simp only [Block.stream_deserialize, bind_run_eq_ok, traced_eq_ok, Prod.exists] at h
  obtain ⟨header, _, _, ⟨hheader, _⟩, _, _, _, hblock⟩ := h
  simp only [BlockHeader.stream_deserialize, bind_run_eq_ok] at hheader
  obtain ⟨_, _, _, _, _, _, _, _, _, evidence, _, hevidence, hrest⟩ := hheader
  obtain ⟨_, _, hfits, _⟩ := consumes_pow_evidence _ _ _ hevidence
  rw [pure_run, Except.ok.injEq, Prod.mk.injEq] at hrest hblock
  obtain ⟨rfl, _⟩ := hrest
  obtain ⟨rfl, _⟩ := hblock
  exact hfits

theorem canonical_of_serialize {block : Block} {used : Bytes} (rest : Bytes)
    (hfits : block.header.pow_evidence.Fits) (h : block.serialize = .ok used) :
    Canonical crypto (used ++ rest) := by
  obtain ⟨_, _, _, _, hreads⟩ := strict_reads_block crypto hfits h
  exact ⟨_, hreads rest⟩

theorem identity_of_strict {bytes rest : Bytes} {block : Block}
    (h : strict_block crypto bytes = .ok (block, rest)) :
    ∃ used, bytes = used ++ rest ∧ IdentityByContent crypto block used := by
  obtain ⟨used, hsplit, hserialize, ⟨header, hheader, hcached⟩, htransactions⟩ :=
    strict_consumes_block crypto _ _ _ h
  refine ⟨used, hsplit, hserialize, ⟨crypto.sha256d header, ?_, ?_⟩, htransactions⟩
  · rw [Block.hash, hcached]
  · simp [BlockHeader.hash, hheader]

-- Identity is by content for exactly those accepted inputs in which no
-- quantity is padded.
theorem identity_iff_canonical {bytes rest : Bytes} {block : Block}
    (h : Block.stream_deserialize crypto bytes = .ok (block, rest)) :
    (∃ used, bytes = used ++ rest ∧ IdentityByContent crypto block used) ↔ Canonical crypto bytes := by
  constructor
  · rintro ⟨used, rfl, hserialize, _⟩
    exact canonical_of_serialize rest (evidence_fits_of_deserialize h) hserialize
  · rintro ⟨⟨block', rest'⟩, hstrict⟩
    have hsame := h.symm.trans (refines_block crypto _ _ hstrict)
    rw [Except.ok.injEq, Prod.mk.injEq] at hsame
    obtain ⟨rfl, rfl⟩ := hsame
    exact identity_of_strict hstrict

theorem identity_iff_canonical_genesis :
    (∃ used, genesis_block_data = used ++ [] ∧ IdentityByContent .residue (genesis_block .residue) used) ↔
      Canonical .residue genesis_block_data :=
  identity_iff_canonical (by decide +kernel)

-- Two inputs without padding that decode to the same fields are the same
-- bytes, so the hashes are the same too.
theorem hash_eq_of_canonical {bytes bytes' rest rest' : Bytes} {block block' : Block}
    (h : strict_block crypto bytes = .ok (block, rest))
    (h' : strict_block crypto bytes' = .ok (block', rest'))
    (hheader : block.header = block'.header) : block.hash crypto = block'.hash crypto := by
  obtain ⟨_, _, _, ⟨hash, hhash, hcontent⟩, _⟩ := identity_of_strict h
  obtain ⟨_, _, _, ⟨hash', hhash', hcontent'⟩, _⟩ := identity_of_strict h'
  rw [hheader] at hcontent
  rw [hhash, hhash', Except.ok.inj (hcontent.symm.trans hcontent')]

-- The genesis data with the height 0 written in two bytes.
def padded_genesis_block_data : Bytes := [0x00, 0x80, 0x00] ++ genesis_block_data.drop 2

def padded_genesis_block : Block where
  header := genesis_header
  transactions := (genesis_block .residue).transactions
  cached_hash := some (Crypto.residue.sha256d (padded_genesis_block_data.take 203))

theorem identity_by_content_fails :
    (¬∀ bytes block rest, Block.stream_deserialize .residue bytes = .ok (block, rest) →
      ∃ used, bytes = used ++ rest ∧ IdentityByContent .residue block used) ∧
    ¬∀ bytes bytes' block block' rest rest',
      Block.stream_deserialize .residue bytes = .ok (block, rest) →
      Block.stream_deserialize .residue bytes' = .ok (block', rest') →
      block.header = block'.header → block.transactions = block'.transactions →
      block.hash .residue = block'.hash .residue := by
  have hpadded : Block.stream_deserialize .residue padded_genesis_block_data =
      .ok (padded_genesis_block, []) := by
    decide +kernel
  have hplain : Block.stream_deserialize .residue genesis_block_data =
      .ok (genesis_block .residue, []) := by
    decide +kernel
  constructor
  · intro hclaim
    obtain ⟨used, hsplit, hserialize, _⟩ := hclaim _ _ _ hpadded
    have hother : padded_genesis_block.serialize = .ok genesis_block_data := by decide +kernel
    rw [List.append_nil] at hsplit
    subst hsplit
    rw [hserialize] at hother
    revert hother
    decide +kernel
  · intro hclaim
    have hsame := hclaim _ _ _ _ _ _ hpadded hplain rfl rfl
    revert hsame
    decide +kernel

end Skepticoin
