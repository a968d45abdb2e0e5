import Skepticoin.CoinState.Readding
import Skepticoin.Consensus.Sampling

namespace Skepticoin

open Guard FMap

-- The hash of a block names it: another block with that hash would have the
-- same header and the same bytes.
structure Named (names : Hash → Block) (h : Hash) (block : Block) : Prop where
  ne_zero : h ≠ zero_hash
  header : block.header = (names h).header
  bytes : block.serialize = (names h).serialize

-- Coinstates that have taken such blocks only, the first one without parent,
-- whether they were validated or not.
inductive Built (crypto : Crypto) (names : Hash → Block) : CoinState → Prop
  | root {h : Hash} {block : Block} {coinstate : CoinState} : block.previous_block_hash = zero_hash →
    block.hash crypto = .ok h → Named names h block →
    CoinState.empty.add_block_no_validation crypto block = .ok coinstate → Built crypto names coinstate
  | add {coinstate next : CoinState} {h : Hash} {block : Block} : Built crypto names coinstate →
    block.previous_block_hash ≠ zero_hash → block.hash crypto = .ok h → Named names h block →
    coinstate.add_block_no_validation crypto block = .ok next → Built crypto names next

-- What a branch holds at each height, as it is read for the chain sample.
inductive BranchBytes (names : Hash → Block) : Hash → (Nat → Option (Py Bytes)) → Prop
  | root {h : Hash} : (names h).previous_block_hash = zero_hash →
    BranchBytes names h (Function.update (fun _ => none) 0 (some (names h).serialize))
  | child {h : Hash} {bytes : Nat → Option (Py Bytes)} : (names h).previous_block_hash ≠ zero_hash →
    BranchBytes names (names h).previous_block_hash bytes →
    BranchBytes names h (Function.update bytes (names h).height (some (names h).serialize))

def index_bytes (index : Map Nat Block) (height : Nat) : Option (Py Bytes) :=
  (index.lookup height).map Block.serialize

-- Every index is the one of the branch that its hash names, and the current
-- head has one.
structure Branched (names : Hash → Block) (coinstate : CoinState) : Prop where
  indexed : ∀ h index, coinstate.block_by_height_by_hash.lookup h = some index →
    BranchBytes names h (index_bytes index)
  rooted : zero_hash ∉ coinstate.block_by_hash
  current : ∃ current ∈ coinstate.block_by_height_by_hash, coinstate.current_chain_hash = some current

section Branched

variable {crypto : Crypto} {names : Hash → Block} {coinstate next : CoinState} {h : Hash} {block : Block}

theorem BranchBytes.unique {bytes bytes' : Nat → Option (Py Bytes)} (hbytes : BranchBytes names h bytes)
    (hbytes' : BranchBytes names h bytes') : bytes = bytes' := by
  induction hbytes generalizing bytes' with
  | root hroot =>
      cases hbytes' with
      | root _ => rfl
      | child hchild _ => exact absurd hroot hchild
  | child hchild _ ih =>
      cases hbytes' with
      | root hroot => exact absurd hroot hchild
      | child _ hbelow => rw [ih hbelow]

theorem index_bytes_singleton (height : Nat) (block : Block) :
    index_bytes (Finmap.singleton height block) = Function.update (fun _ => none) height (some block.serialize) := by
  funext n
  by_cases hn : n = height
  · rw [index_bytes, lookup_singleton_eq_ite, if_pos hn, hn, Function.update_self]
    rfl
  · rw [index_bytes, lookup_singleton_eq_ite, if_neg hn, Function.update_of_ne hn]
    rfl

theorem index_bytes_insert (index : Map Nat Block) (height : Nat) (block : Block) :
    index_bytes (index.insert height block) =
      Function.update (index_bytes index) height (some block.serialize) := by
  funext n
  by_cases hn : n = height
  · rw [index_bytes, lookup_insert_eq_ite, if_pos hn, hn, Function.update_self]
    rfl
  · rw [index_bytes, lookup_insert_eq_ite, if_neg hn, Function.update_of_ne hn]
    rfl

theorem Named.previous (hnamed : Named names h block) :
    block.previous_block_hash = (names h).previous_block_hash := by
  rw [Block.previous_block_hash, hnamed.header]

theorem Named.height (hnamed : Named names h block) : block.height = (names h).height := by
  rw [Block.height, hnamed.header]

theorem Extended.branched (hnew : Extended crypto coinstate next h block) (hbranched : Branched names coinstate)
    (hne : block.previous_block_hash ≠ zero_hash) (hnamed : Named names h block) : Branched names next := by
  obtain ⟨below, hbelow, hindexes⟩ := hnew.indexes
  have hown : BranchBytes names h (index_bytes (below.insert block.height block)) := by
    have hparent := hbranched.indexed _ _ hbelow
    rw [hnamed.previous] at hne hparent
    rw [index_bytes_insert, hnamed.height, hnamed.bytes]
    exact .child hne hparent
  refine ⟨fun k index hlookup => ?_, ?_, ?_⟩
  · rw [hindexes] at hlookup
    cases lookup_insert_eq_some.mp hlookup with
    | inl hself =>
        obtain ⟨rfl, rfl⟩ := hself
        exact hown
    | inr hold => exact hbranched.indexed k index hold.2
  · rw [hnew.blocks, Finmap.mem_insert]
    intro hmem
    cases hmem with
    | inl hzero => exact hnamed.ne_zero hzero.symm
    | inr hold => exact hbranched.rooted hold
  · obtain ⟨c, hmem, hc⟩ := hbranched.current
    obtain ⟨current, hcurrent, hchoice⟩ := hnew.current c hc
    refine ⟨current, ?_, hcurrent⟩
    rw [hindexes, Finmap.mem_insert]
    cases hchoice with
    | inl hown => exact .inl hown
    | inr hkept => exact .inr (hkept.1 ▸ hmem)

theorem Built.branched (hbuilt : Built crypto names coinstate) : Branched names coinstate := by
  induction hbuilt with
  | @root h block coinstate hroot hhash hnamed hadd =>
      obtain ⟨before, after, hash, index, current, _, _, hhash', hindex, hcurrent, rfl⟩ :=
        CoinState.add_block_no_validation_eq_ok.mp hadd
      obtain rfl : h = hash := Except.ok.inj (hhash.symm.trans hhash')
      obtain rfl : Finmap.singleton h (Finmap.singleton 0 block) = index := by
        simpa [CoinState.next_block_by_height_by_hash, hroot] using hindex
      obtain rfl : h = current := by simpa [CoinState.next_current_chain_hash, CoinState.empty] using hcurrent
      refine ⟨fun k index hlookup => ?_, ?_, h, (Finmap.mem_singleton h h _).mpr rfl, rfl⟩
      · obtain ⟨rfl, rfl⟩ := lookup_singleton_eq_some.mp hlookup
        rw [index_bytes_singleton, hnamed.bytes]
        exact .root (hnamed.previous ▸ hroot)
      · simp only [CoinState.empty, insert_empty, Finmap.mem_singleton]
        exact hnamed.ne_zero.symm
  | add _ hne hhash hnamed hadd ih => exact (extended_of_add hhash hne hadd).branched ih hne hnamed

-- Every block that is known is the one that its hash names, and every block in an
-- index has a hash.
structure Met (crypto : Crypto) (names : Hash → Block) (coinstate : CoinState) : Prop where
  known : ∀ h ∈ coinstate.block_by_height_by_hash, h ∈ coinstate.block_by_hash
  named : ∀ h block, coinstate.block_by_hash.lookup h = some block →
    block.hash crypto = .ok h ∧ Named names h block
  hashed : ∀ h index, coinstate.block_by_height_by_hash.lookup h = some index →
    ∀ height block, index.lookup height = some block → ∃ k, block.hash crypto = .ok k

theorem Extended.met (hnew : Extended crypto coinstate next h block) (hmet : Met crypto names coinstate)
    (hhash : block.hash crypto = .ok h) (hnamed : Named names h block) : Met crypto names next := by
  obtain ⟨below, hbelow, hindexes⟩ := hnew.indexes
  refine ⟨fun k hk => ?_, fun k other hlookup => ?_, fun k index hlookup height other hother => ?_⟩
  · rw [hindexes, Finmap.mem_insert] at hk
    rw [hnew.blocks, Finmap.mem_insert]
    exact hk.imp_right (hmet.known k)
  · cases hnew.block_cases hlookup with
    | inl hself =>
        obtain ⟨rfl, rfl⟩ := hself
        exact ⟨hhash, hnamed⟩
    | inr hold => exact hmet.named k other hold.2
  · rw [hindexes] at hlookup
    cases lookup_insert_eq_some.mp hlookup with
    | inr hold => exact hmet.hashed k index hold.2 height other hother
    | inl hself =>
        obtain ⟨rfl, rfl⟩ := hself
        cases lookup_insert_eq_some.mp hother with
        | inl htop => exact ⟨_, htop.2 ▸ hhash⟩
        | inr hlower => exact hmet.hashed _ below hbelow height other hlower.2

theorem Built.met (hbuilt : Built crypto names coinstate) : Met crypto names coinstate := by
  induction hbuilt with
  | @root h block coinstate hroot hhash hnamed hadd =>
      obtain ⟨before, after, hash, index, current, _, _, hhash', hindex, _, rfl⟩ :=
        CoinState.add_block_no_validation_eq_ok.mp hadd
      obtain rfl : h = hash := Except.ok.inj (hhash.symm.trans hhash')
      obtain rfl : Finmap.singleton h (Finmap.singleton 0 block) = index := by
        simpa [CoinState.next_block_by_height_by_hash, hroot] using hindex
      refine ⟨fun k hk => ?_, fun k other hlookup => ?_, fun k index hlookup height other hother => ?_⟩
      · rw [Finmap.mem_singleton] at hk
        simp only [CoinState.empty, insert_empty, Finmap.mem_singleton]
        exact hk
      · simp only [CoinState.empty, insert_empty] at hlookup
        obtain ⟨rfl, rfl⟩ := lookup_singleton_eq_some.mp hlookup
        exact ⟨hhash, hnamed⟩
      · obtain ⟨rfl, rfl⟩ := lookup_singleton_eq_some.mp hlookup
        obtain ⟨rfl, rfl⟩ := lookup_singleton_eq_some.mp hother
        exact ⟨k, hhash⟩
  | add _ hne hhash hnamed hadd ih => exact (extended_of_add hhash hne hadd).met ih hhash hnamed

-- A tree of such blocks is built of them.
theorem built_of_grown {entries : List (Hash × Block)} (hgrown : CoinState.Grown crypto entries coinstate)
    (hnamed : ∀ h block, (h, block) ∈ entries → Named names h block) : Built crypto names coinstate := by
  induction hgrown with
  | root hparent hhash hadd =>
      exact .root (Block.parent_eq_none.mp hparent) hhash (hnamed _ _ List.mem_cons_self) hadd
  | add _ hhash _ hparent _ _ hadd ih =>
      refine .add (ih fun h block hmem => hnamed h block (List.mem_cons_of_mem _ hmem))
        (Block.parent_eq_some.mp hparent).1 hhash (hnamed _ _ List.mem_cons_self) hadd

-- Every parent that was found before is found after one more block.
theorem Built.index_mono (hne : block.previous_block_hash ≠ zero_hash) (hhash : block.hash crypto = .ok h)
    (hadd : coinstate.add_block_no_validation crypto block = .ok next) {k : Hash}
    (hk : k ∈ coinstate.block_by_height_by_hash) : k ∈ next.block_by_height_by_hash := by
  obtain ⟨_, _, hindexes⟩ := (extended_of_add hhash hne hadd).indexes
  rw [hindexes, Finmap.mem_insert]
  exact .inr hk

end Branched

-- The evidence is computed from the bytes of the blocks on the branch.
section Evidence

variable {crypto : Crypto} {names : Hash → Block} {first second : CoinState} {at_hash : Hash}

theorem get_block_by_height_bytes {coinstate : CoinState} {index : Map Nat Block}
    (hindex : coinstate.block_by_height_by_hash.lookup at_hash = some index) (height : Nat) :
    (get_block_by_height coinstate at_hash height >>= Block.serialize) =
      (index_bytes index height).getD (.error .KeyError) := by
  rw [index_bytes]
  cases hblock : index.lookup height with
  | none =>
      have hmissing : get_block_by_height coinstate at_hash height = .error .KeyError := by
        rw [get_block_by_height, getItem_eq_ok.mpr hindex]
        show getItem index height = .error .KeyError
        rw [getItem, find, hblock]
      rw [hmissing]
      rfl
  | some block =>
      rw [get_block_by_height_eq hindex hblock]
      rfl

theorem Built.evidence_eq (hfirst : Built crypto names first) (hsecond : Built crypto names second)
    {summary : BlockSummary} (hmem : summary.previous_block_hash ∈ first.block_by_height_by_hash)
    (hmem' : summary.previous_block_hash ∈ second.block_by_height_by_hash) (summary_hash : Hash) (current_height : Nat)
    (transactions : List Transaction) :
    construct_pow_evidence_after_scrypt crypto summary_hash first summary current_height transactions =
      construct_pow_evidence_after_scrypt crypto summary_hash second summary current_height transactions := by
  obtain ⟨index, hindex⟩ := Finmap.mem_iff.mp hmem
  obtain ⟨index', hindex'⟩ := Finmap.mem_iff.mp hmem'
  have hbytes : index_bytes index = index_bytes index' :=
    (hfirst.branched.indexed _ _ hindex).unique (hsecond.branched.indexed _ _ hindex')
  have hget : ∀ height,
      (get_block_by_height first summary.previous_block_hash height >>= Block.serialize) =
        get_block_by_height second summary.previous_block_hash height >>= Block.serialize := by
    intro height
    rw [get_block_by_height_bytes hindex, get_block_by_height_bytes hindex', hbytes]
  by_cases hheight : current_height = 0
  · simp only [construct_pow_evidence_after_scrypt, if_pos hheight]
  · simp only [construct_pow_evidence_after_scrypt, if_neg hheight,
      select_slices_congr (Nat.pos_of_ne_zero hheight) fun height _ => hget height]

end Evidence

end Skepticoin
