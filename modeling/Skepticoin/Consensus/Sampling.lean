import Skepticoin.CoinState.Ancestry
import Skepticoin.Datatypes.RoundTrip
import Skepticoin.Lib.Cyclic

namespace Skepticoin

open Guard FMap

variable {crypto : Crypto} {coinstate : CoinState}

section Slice

-- What the two functions read off a hash: the first 8 bytes, and the 4 after.
def height_base (hash : Hash) : Nat := from_bytes (hash.1.take 8)

def slice_base (hash : Hash) : Nat := from_bytes ((hash.1.drop 8).take 4)

-- After each turn the result is the window read so far, and the next turn
-- goes on where that ends, at the start of the block unless it is the first.
theorem select_block_slice_loop_window (serialized_block : Bytes) (length origin : Nat) :
    ∀ fuel start result, start < serialized_block.length → result.length ≤ length →
      length ≤ result.length + fuel → result = Cyclic.window serialized_block origin result.length →
      (result.length < length → (origin + result.length) % serialized_block.length = start) →
      select_block_slice.loop serialized_block length fuel start result =
        Cyclic.window serialized_block origin length := by
  intro fuel
  induction fuel with
  | zero =>
      intro start result _ hle hfuel hresult _
      have hfull : result.length = length := by omega
      rw [select_block_slice.loop, hresult, hfull]
  | succ fuel ih =>
      intro start result hstart hle hfuel hresult hat
      rw [select_block_slice.loop]
      split_ifs with hlt
      · generalize hchunk : min (length - result.length) (serialized_block.length - start) = chunk
        have htake : (serialized_block.drop start).take (length - result.length) =
            Cyclic.window serialized_block (origin + result.length) chunk := by
          rw [← Cyclic.window_mod, hat hlt, Cyclic.window_eq_slice (by omega)]
          apply List.ext_getElem <;> simp [← hchunk]
        have hnext : result ++ (serialized_block.drop start).take (length - result.length) =
            Cyclic.window serialized_block origin (result.length + chunk) := by
          rw [Cyclic.window_add, ← htake, ← hresult]
        have hlength : (Cyclic.window serialized_block origin (result.length + chunk)).length =
            result.length + chunk := Cyclic.window_length _ _ _
        rw [hnext]
        apply ih 0
        · omega
        · rw [hlength]
          omega
        · rw [hlength]
          omega
        · rw [hlength]
        · rw [hlength]
          intro hmore
          -- the turn went to the end of the block
          have hsplit := Nat.div_add_mod (origin + result.length) serialized_block.length
          rw [hat hlt] at hsplit
          have hround : origin + (result.length + chunk) =
              serialized_block.length * ((origin + result.length) / serialized_block.length + 1) := by
            rw [Nat.mul_add, Nat.mul_one]
            omega
          rw [hround, Nat.mul_mod_right]
      · have hfull : result.length = length := by omega
        rw [hresult, hfull]

theorem select_block_slice_eq (hash : Hash) {serialized_block : Bytes} (length : Nat) (h : serialized_block ≠ []) :
    select_block_slice hash serialized_block length =
      .ok (Cyclic.window serialized_block (slice_base hash % serialized_block.length) length) := by
  have hpos : 0 < serialized_block.length := List.length_pos_iff.mpr h
  have hstart := Nat.mod_lt (slice_base hash) hpos
  have hloop := select_block_slice_loop_window serialized_block length (slice_base hash % serialized_block.length)
    length (slice_base hash % serialized_block.length) [] hstart (Nat.zero_le _) (by simp) rfl
    fun _ => Nat.mod_eq_of_lt hstart
  simp only [select_block_slice, raiseIf, if_neg hpos.ne', bind, Except.bind]
  exact congrArg Except.ok hloop

end Slice

section Chain

-- The slice that a hash chooses among the serialized blocks of a chain, and
-- the hashes that follow one another.
def chain_slice (serialized : Nat → Bytes) (current_height k : Nat) (hash : Hash) : Bytes :=
  let serialized_block := serialized (height_base hash % current_height)
  Cyclic.window serialized_block (slice_base hash % serialized_block.length) k

def chain_hash (crypto : Crypto) (serialized : Nat → Bytes) (current_height k : Nat) (starting_hash : Hash) :
    Nat → Hash
  | 0 => starting_hash
  | i + 1 =>
    let current_hash := chain_hash crypto serialized current_height k starting_hash i
    crypto.sha256d (current_hash.1 ++ chain_slice serialized current_height k current_hash)

def chain_slices (crypto : Crypto) (serialized : Nat → Bytes) (current_height n k : Nat) (starting_hash : Hash) :
    Bytes :=
  (List.range n).flatMap fun i =>
    chain_slice serialized current_height k (chain_hash crypto serialized current_height k starting_hash i)

variable {serialized : Nat → Bytes} {current_height n k : Nat} {get_block_by_height : Nat → Py Block}

theorem chain_hash_succ (starting_hash : Hash) (i : Nat) :
    chain_hash crypto serialized current_height k starting_hash (i + 1) =
      chain_hash crypto serialized current_height k
        (crypto.sha256d (starting_hash.1 ++ chain_slice serialized current_height k starting_hash)) i := by
  induction i with
  | zero => rfl
  | succ i ih => rw [chain_hash, ih, chain_hash]

theorem chain_slices_succ (starting_hash : Hash) :
    chain_slices crypto serialized current_height (n + 1) k starting_hash =
      chain_slice serialized current_height k starting_hash ++
        chain_slices crypto serialized current_height n k
          (crypto.sha256d (starting_hash.1 ++ chain_slice serialized current_height k starting_hash)) := by
  simp only [chain_slices, List.range_succ_eq_map, List.flatMap_cons, List.flatMap_map, chain_hash_succ]
  rfl

theorem chain_slices_length (starting_hash : Hash) :
    (chain_slices crypto serialized current_height n k starting_hash).length = n * k := by
  induction n generalizing starting_hash with
  | zero => simp [chain_slices]
  | succ n ih =>
      rw [chain_slices_succ, List.length_append, ih, chain_slice, Cyclic.window_length, Nat.succ_mul, Nat.add_comm]

theorem select_block_height_eq (hash : Hash) (hpos : 0 < current_height) :
    select_block_height hash current_height = .ok (height_base hash % current_height) := by
  simp only [select_block_height, raiseIf, if_neg hpos.ne', bind, Except.bind]
  rfl

-- Only heights below the current one are looked up, and of a block its bytes.
theorem select_slices_congr (hpos : 0 < current_height) {other : Nat → Py Block}
    (h : ∀ i < current_height, (get_block_by_height i >>= Block.serialize) = other i >>= Block.serialize)
    (starting_hash : Hash) :
    select_n_k_length_slices_from_chain crypto starting_hash current_height get_block_by_height n k =
      select_n_k_length_slices_from_chain crypto starting_hash current_height other n k := by
  have hpicked : ∀ hash (get : Nat → Py Block), select_slice_from_chain hash current_height get k =
      (get (height_base hash % current_height) >>= Block.serialize) >>= fun serialized_block =>
        select_block_slice hash serialized_block k := by
    intro hash get
    rw [select_slice_from_chain, select_block_height_eq _ hpos, bind_assoc]
    rfl
  have hslice : ∀ hash, select_slice_from_chain hash current_height get_block_by_height k =
      select_slice_from_chain hash current_height other k := by
    intro hash
    rw [hpicked, hpicked, h _ (Nat.mod_lt (height_base hash) hpos)]
  induction n generalizing starting_hash with
  | zero => rfl
  | succ n ih => simp only [select_n_k_length_slices_from_chain, hslice, ih]

theorem select_slices_eq (hpos : 0 < current_height)
    (h : ∀ i < current_height, ∃ block, get_block_by_height i = .ok block ∧ block.serialize = .ok (serialized i) ∧
      serialized i ≠ []) (starting_hash : Hash) :
    select_n_k_length_slices_from_chain crypto starting_hash current_height get_block_by_height n k =
      .ok (chain_slices crypto serialized current_height n k starting_hash) := by
  induction n generalizing starting_hash with
  | zero => rfl
  | succ n ih =>
      obtain ⟨block, hblock, hserialize, hne⟩ := h _ (Nat.mod_lt (height_base starting_hash) hpos)
      have hslice : select_slice_from_chain starting_hash current_height get_block_by_height k =
          .ok (chain_slice serialized current_height k starting_hash) := by
        simp only [select_slice_from_chain, select_block_height_eq _ hpos, bind, Except.bind, hblock, hserialize]
        exact select_block_slice_eq starting_hash k hne
      rw [chain_slices_succ, select_n_k_length_slices_from_chain, hslice]
      simp only [bind, Except.bind, ih]
      rfl

end Chain

section Evidence

theorem block_serialize_ne_nil {block : Block} {bytes : Bytes} (h : block.serialize = .ok bytes) : bytes ≠ [] := by
  obtain ⟨header, _, hheader, _, rfl⟩ := block_serialize_eq_ok.mp h
  obtain ⟨_, _, rfl⟩ := header_serialize_eq_ok.mp hheader
  simp

theorem get_block_by_height_eq {at_hash : Hash} {index : Map Nat Block} {i : Nat} {block : Block}
    (hindex : coinstate.block_by_height_by_hash.lookup at_hash = some index) (hblock : index.lookup i = some block) :
    get_block_by_height coinstate at_hash i = .ok block := by
  rw [get_block_by_height, getItem_eq_ok.mpr hindex]
  exact getItem_eq_ok.mpr hblock

-- The block that the evidence looks up at a height is the ancestor of that
-- height on the parent's own chain.
theorem get_block_by_height_ancestor (h : Consistent crypto coinstate) {at_hash : Hash} {parent : Block}
    (hparent : coinstate.block_by_hash.lookup at_hash = some parent) {i : Nat} (hi : i ≤ parent.height) :
    ∃ block, get_block_by_height coinstate at_hash i = .ok block ∧
      coinstate.ancestor (parent.height - i) parent = some block := by
  obtain ⟨index, hindex, hchain⟩ := h.chain hparent
  obtain ⟨block, hblock⟩ := hchain.exists_at hi
  exact ⟨block, get_block_by_height_eq hindex hblock, hchain.ancestor hblock⟩

-- Where the blocks of the parent's chain and the transactions can be written,
-- the evidence is put together without a failure, and its chain sample is
-- exactly the chained slices, of the width of the format.
theorem chain_sample_exact (h : Consistent crypto coinstate) {summary : BlockSummary} {parent : Block}
    (hparent : coinstate.block_by_hash.lookup summary.previous_block_hash = some parent) {serialized : Nat → Bytes}
    (hserialized : ∀ i ≤ parent.height, ∃ block, coinstate.ancestor (parent.height - i) parent = some block ∧
      block.serialize = .ok (serialized i))
    {transactions : List Transaction} {written : Bytes}
    (htransactions : stream_serialize_list Transaction.serialize transactions = .ok written) (summary_hash : Hash) :
    (∃ evidence, construct_pow_evidence_after_scrypt crypto summary_hash coinstate summary (parent.height + 1)
        transactions = .ok evidence ∧
      evidence.chain_sample = chain_slices crypto serialized (parent.height + 1) CHAIN_SAMPLE_COUNT
        CHAIN_SAMPLE_SIZE summary_hash ∧
      evidence.chain_sample.length = CHAIN_SAMPLE_TOTAL_SIZE) ∧
    (∀ other : Nat → Py Block,
      (∀ i < parent.height + 1, get_block_by_height coinstate summary.previous_block_hash i = other i) →
      select_n_k_length_slices_from_chain crypto summary_hash (parent.height + 1)
          (get_block_by_height coinstate summary.previous_block_hash) CHAIN_SAMPLE_COUNT CHAIN_SAMPLE_SIZE =
        select_n_k_length_slices_from_chain crypto summary_hash (parent.height + 1) other CHAIN_SAMPLE_COUNT
          CHAIN_SAMPLE_SIZE) ∧
    ∀ (hash : Hash) (serialized_block : Bytes) (length : Nat), serialized_block ≠ [] →
      select_block_slice hash serialized_block length =
        .ok ((List.range length).map fun j => serialized_block.getD
          ((from_bytes ((hash.1.drop 8).take 4) % serialized_block.length + j) % serialized_block.length) 0) := by
  refine ⟨?_, fun other hother => select_slices_congr (Nat.succ_pos _) (fun i hi => by rw [hother i hi])
    summary_hash, ?_⟩
  · have hlookups : ∀ i < parent.height + 1, ∃ block,
        get_block_by_height coinstate summary.previous_block_hash i = .ok block ∧
        block.serialize = .ok (serialized i) ∧ serialized i ≠ [] := by
      intro i hi
      obtain ⟨block, hget, hancestor⟩ := get_block_by_height_ancestor h hparent (Nat.le_of_lt_succ hi)
      obtain ⟨block', hancestor', hserialize⟩ := hserialized i (Nat.le_of_lt_succ hi)
      obtain rfl := Option.some.inj (hancestor.symm.trans hancestor')
      exact ⟨block, hget, hserialize, block_serialize_ne_nil hserialize⟩
    have hslices : select_n_k_length_slices_from_chain crypto summary_hash (parent.height + 1)
        (get_block_by_height coinstate summary.previous_block_hash) CHAIN_SAMPLE_COUNT CHAIN_SAMPLE_SIZE =
          .ok (chain_slices crypto serialized (parent.height + 1) CHAIN_SAMPLE_COUNT CHAIN_SAMPLE_SIZE summary_hash) :=
      select_slices_eq (Nat.succ_pos parent.height) hlookups summary_hash
    have hevidence : construct_pow_evidence_after_scrypt crypto summary_hash coinstate summary (parent.height + 1)
        transactions = .ok {
          summary_hash
          chain_sample := chain_slices crypto serialized (parent.height + 1) CHAIN_SAMPLE_COUNT CHAIN_SAMPLE_SIZE
            summary_hash
          block_hash := crypto.blake2 (summary_hash.1 ++ chain_slices crypto serialized (parent.height + 1)
            CHAIN_SAMPLE_COUNT CHAIN_SAMPLE_SIZE summary_hash ++ written) } := by
      simp only [construct_pow_evidence_after_scrypt, if_neg (Nat.succ_ne_zero parent.height), hslices, htransactions,
        bind, Except.bind]
      rfl
    exact ⟨_, hevidence, rfl, chain_slices_length summary_hash⟩
  · intro hash serialized_block length hne
    exact select_block_slice_eq hash length hne

end Evidence

section Samples

theorem towerBlock_serialize {i : Nat} (hi : i < 2 ^ 32) :
    (towerBlock i).serialize = .ok ((towerBlock i).serialize.toOption.getD []) := by
  have hzero : 0 < 2 ^ 32 := by decide
  have hfits : (towerBlock i).Fits := by
    refine ⟨⟨hi, hzero, to_bytes_length _ _⟩, ?_⟩
    intro transaction ht
    rw [List.mem_singleton.mp ht]
    refine ⟨by simp, fun output hout => ?_⟩
    cases i with
    | zero =>
        rw [List.mem_singleton.mp hout]
        exact (by decide : 1000 < 2 ^ 64)
    | succ i => cases hout
  obtain ⟨bytes, hbytes⟩ := block_serialize_ok hfits
  rw [hbytes]
  rfl

theorem chain_sample_exact_tower :
    ∃ evidence, construct_pow_evidence_after_scrypt .residue (.ofNat 32 7) (towerCoinstate 5) (towerSummary 5) (5 + 1)
        [] = .ok evidence ∧
      evidence.chain_sample = chain_slices .residue (fun i => (towerBlock i).serialize.toOption.getD []) (5 + 1)
        CHAIN_SAMPLE_COUNT CHAIN_SAMPLE_SIZE (.ofNat 32 7) ∧
      evidence.chain_sample.length = CHAIN_SAMPLE_TOTAL_SIZE := by
  have hn : 5 + 1 < 256 ^ 32 := by decide
  have hserialized : ∀ i ≤ (towerBlock 5).height, ∃ block,
      (towerCoinstate 5).ancestor ((towerBlock 5).height - i) (towerBlock 5) = some block ∧
      block.serialize = .ok ((towerBlock i).serialize.toOption.getD []) := by
    intro i hi
    have hle : i ≤ 5 := hi
    exact ⟨towerBlock i, tower_ancestor hn hle, towerBlock_serialize (by omega)⟩
  have hparent : (towerCoinstate 5).block_by_hash.lookup (towerSummary 5).previous_block_hash =
      some (towerBlock 5) := (tower_lookup hn).mpr ⟨5, Nat.le_refl _, rfl, rfl⟩
  have hwritten : stream_serialize_list Transaction.serialize [] = .ok [0x00] := by decide +kernel
  exact (chain_sample_exact (tower_consistent hn) hparent hserialized hwritten (.ofNat 32 7)).1

-- An input that nobody has signed cannot be written, and nor can a block with
-- one.
def unsigned : Transaction := ⟨[⟨⟨zero_hash, 0, first_index_le⟩, none⟩], [], none⟩

def unsignedBlock : Block := { CoinState.bareBlock 1 0 0 with transactions := [unsigned] }

def unsignedCoinstate : CoinState :=
  (CoinState.empty.add_block_no_validation .residue unsignedBlock).toOption.getD .empty

theorem unsigned_grown : CoinState.Grown .residue [(.ofNat 32 1, unsignedBlock)] unsignedCoinstate :=
  .root (by decide +kernel) rfl (by decide +kernel)

theorem unsigned_consistent : Consistent .residue unsignedCoinstate := by
  apply unsigned_grown.consistent
  · intro h block hmem _
    obtain ⟨_, rfl⟩ := Prod.mk.inj (List.mem_singleton.mp hmem)
    rfl
  · decide +kernel

theorem unsigned_raises :
    construct_pow_evidence_after_scrypt .residue (.ofNat 32 7) (towerCoinstate 0) (towerSummary 0) 1 [unsigned] =
        .error .AssertionError ∧
      construct_pow_evidence_after_scrypt .residue (.ofNat 32 7) unsignedCoinstate (towerSummary 0) 1 [] =
        .error .AssertionError := by
  decide +kernel

theorem chain_sample_raises :
    (¬∀ (coinstate : CoinState) (summary : BlockSummary) (parent : Block) (summary_hash : Hash)
        (transactions : List Transaction), Consistent .residue coinstate →
        coinstate.block_by_hash.lookup summary.previous_block_hash = some parent →
        ∃ evidence, construct_pow_evidence_after_scrypt .residue summary_hash coinstate summary (parent.height + 1)
          transactions = .ok evidence) ∧
      ¬∀ (coinstate : CoinState) (summary : BlockSummary) (parent : Block) (summary_hash : Hash),
        Consistent .residue coinstate →
        coinstate.block_by_hash.lookup summary.previous_block_hash = some parent →
        ∃ evidence, construct_pow_evidence_after_scrypt .residue summary_hash coinstate summary (parent.height + 1)
          [] = .ok evidence := by
  obtain ⟨hlist, hstored⟩ := unsigned_raises
  constructor
  · intro hclaim
    have hn : 0 + 1 < 256 ^ 32 := by decide
    have hparent : (towerCoinstate 0).block_by_hash.lookup (towerSummary 0).previous_block_hash =
        some (towerBlock 0) := (tower_lookup hn).mpr ⟨0, Nat.le_refl _, rfl, rfl⟩
    obtain ⟨evidence, hevidence⟩ := hclaim _ _ _ (.ofNat 32 7) [unsigned] (tower_consistent hn) hparent
    exact absurd (hlist.symm.trans hevidence) (by simp)
  · intro hclaim
    have hparent : unsignedCoinstate.block_by_hash.lookup (towerSummary 0).previous_block_hash =
        some unsignedBlock := (unsigned_grown.represents.known _ _).mpr (List.mem_singleton.mpr rfl)
    obtain ⟨evidence, hevidence⟩ := hclaim _ _ _ (.ofNat 32 7) unsigned_consistent hparent
    exact absurd (hstored.symm.trans hevidence) (by simp)

end Samples

end Skepticoin
