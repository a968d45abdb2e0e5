import Skepticoin.CoinState.Order

namespace Skepticoin

open Guard FMap Tree

theorem getItem_congr {κ ν : Type} [DecidableEq κ] {m m' : Map κ ν} {key : κ} (h : m.lookup key = m'.lookup key) :
    getItem m key = getItem m' key := by
  rw [getItem, getItem, find, find, h]

namespace CoinState

variable {crypto : Crypto} {first second : CoinState} {entries entries' : List (Hash × Block)} {h : Hash}
  {block : Block}

-- What a branch holds, as far as its hash leads to it.
structure SameBranch (crypto : Crypto) (first second : CoinState) (h : Hash) : Prop where
  block : first.block_by_hash.lookup h = second.block_by_hash.lookup h
  unspent : first.unspent_transaction_outs_by_hash.lookup h = second.unspent_transaction_outs_by_hash.lookup h
  index : first.block_by_height_by_hash.lookup h = second.block_by_height_by_hash.lookup h
  hashed : ∀ block, first.block_by_hash.lookup h = some block → block.hash crypto = .ok h

theorem SameBranch.get_block_by_height (hsame : SameBranch crypto first second h) :
    get_block_by_height first h = get_block_by_height second h := by
  funext height
  rw [Skepticoin.get_block_by_height, Skepticoin.get_block_by_height, getItem_congr hsame.index]

theorem SameBranch.calc_target (hsame : SameBranch crypto first second h)
    (hblock : first.block_by_hash.lookup h = some block) (height timestamp : Nat) :
    calc_target crypto first height timestamp block = calc_target crypto second height timestamp block := by
  rw [Skepticoin.calc_target, Skepticoin.calc_target, hsame.hashed block hblock]
  have hindex := getItem_congr hsame.index
  simp only [bind, Except.bind, hindex]

theorem SameBranch.summary {summary : BlockSummary}
    (hsame : SameBranch crypto first second summary.previous_block_hash) :
    validate_block_summary_in_coinstate crypto summary first =
      validate_block_summary_in_coinstate crypto summary second := by
  rw [validate_block_summary_in_coinstate, validate_block_summary_in_coinstate, ← hsame.block]
  cases hblock : first.block_by_hash.lookup summary.previous_block_hash with
  | none => rfl
  | some previous => simp only [hsame.calc_target hblock]

-- The verdict on a block depends on the branch that it extends only.
theorem SameBranch.validate (hsame : SameBranch crypto first second block.previous_block_hash) :
    validate_block_in_coinstate crypto block first = validate_block_in_coinstate crypto block second := by
  have hsummary := hsame.summary
  have hevidence : construct_pow_evidence crypto first block.header.summary block.height block.transactions =
      construct_pow_evidence crypto second block.header.summary block.height block.transactions := by
    have hget := hsame.get_block_by_height
    simp only [construct_pow_evidence, construct_pow_evidence_after_scrypt, hget]
  have hblocks := getItem_congr hsame.block
  have hunspent := getItem_congr hsame.unspent
  simp only [validate_block_in_coinstate, validate_block_past_checkpoints, hsummary, hevidence,
    validate_coinbase_transaction_in_coinstate, validate_non_coinbase_transaction_in_coinstate, hblocks, hunspent]

-- Nor does it matter elsewhere what else is known when a block is added.
theorem SameBranch.add_ok (hsame : SameBranch crypto first second block.previous_block_hash)
    (hcurrent : ∃ head, second.head = .ok head) {next : CoinState}
    (hadd : first.add_block_no_validation crypto block = .ok next) :
    ∃ next', second.add_block_no_validation crypto block = .ok next' := by
  obtain ⟨before, after, hash, index, _, hbefore, hafter, hhash, hindex, _, _⟩ := add_block_no_validation_eq_ok.mp hadd
  have hbefore' : second.previous_unspent_transaction_outs block = .ok before := by
    rw [← hbefore, previous_unspent_transaction_outs, previous_unspent_transaction_outs, getItem_congr hsame.unspent]
  obtain ⟨index', hindex'⟩ : ∃ index', second.next_block_by_height_by_hash hash block = .ok index' := by
    rw [next_block_by_height_by_hash] at hindex ⊢
    rw [← getItem_congr hsame.index]
    split_ifs at hindex ⊢
    · exact ⟨_, rfl⟩
    · obtain ⟨below, hbelow, _⟩ := bind_eq_ok.mp hindex
      exact ⟨_, bind_eq_ok.mpr ⟨below, hbelow, rfl⟩⟩
  obtain ⟨current, hcurrent'⟩ : ∃ current, second.next_current_chain_hash hash block = .ok current := by
    obtain ⟨head, hhead⟩ := hcurrent
    rw [CoinState.head] at hhead
    rw [next_current_chain_hash]
    cases hchain : second.current_chain_hash with
    | none => exact ⟨hash, rfl⟩
    | some c =>
        simp only [hchain] at hhead
        simp only [hhead]
        split_ifs
        · exact ⟨hash, rfl⟩
        · exact ⟨_, rfl⟩
  exact ⟨_, add_block_no_validation_eq_ok.mpr ⟨before, after, hash, index', current, hbefore', hafter, hhash, hindex',
    hcurrent', rfl⟩⟩

theorem Represents.head_ok (hrep : Represents crypto entries first) : ∃ head, first.head = .ok head := by
  obtain ⟨_, head, hhead, _⟩ := hrep.head_eq
  exact ⟨head, hhead⟩

-- Equal hash means equal block.
def Compatible (first second : CoinState) : Prop :=
  ∀ h block block', first.block_by_hash.lookup h = some block → second.block_by_hash.lookup h = some block' →
    block = block'

theorem Compatible.symm (h : Compatible first second) : Compatible second first :=
  fun k block block' hblock hblock' => (h k block' block hblock' hblock).symm

-- Whatever two coinstates have in common, they hold the same for.
theorem Grown.same_branch (hfirst : Grown crypto entries first) (hsecond : Grown crypto entries' second)
    (hnames : Compatible first second) (hknown : h ∈ first.block_by_hash) (hknown' : h ∈ second.block_by_hash) :
    SameBranch crypto first second h := by
  have hrep := hfirst.represents
  have hrep' := hsecond.represents
  have hboth : ∀ k b b', (k, b) ∈ entries → (k, b') ∈ entries' → b = b' := by
    intro k b b' hb hb'
    exact hnames k b b' ((hrep.known k b).mpr hb) ((hrep'.known k b').mpr hb')
  have hh := hrep.mem_known.mp hknown
  have hh' := hrep'.mem_known.mp hknown'
  refine ⟨?_, hrep.unspent.agree hfirst.tree hrep'.unspent hboth hh hh',
    hrep.index.agree hfirst.tree hrep'.index hboth hh hh', ?_⟩
  · obtain ⟨block, hblock⟩ := Finmap.mem_iff.mp hknown
    obtain ⟨block', hblock'⟩ := Finmap.mem_iff.mp hknown'
    rw [hblock, hblock', hnames h block block' hblock hblock']
  · intro block hblock
    exact hrep.hashed h block ((hrep.known h block).mp hblock)

theorem SameBranch.symm (hsame : SameBranch crypto first second h) : SameBranch crypto second first h :=
  ⟨hsame.block.symm, hsame.unspent.symm, hsame.index.symm,
    fun block hblock => hsame.hashed block (hsame.block ▸ hblock)⟩

-- Two nodes that know the parent of a block, along with any other blocks in any
-- tree, give the same verdict on it, and both can add it or neither can.
theorem verdict_agreement (hfirst : Grown crypto entries first) (hsecond : Grown crypto entries' second)
    (hnames : Compatible first second) (hparent : block.previous_block_hash ∈ first.block_by_hash)
    (hparent' : block.previous_block_hash ∈ second.block_by_hash) :
    validate_block_in_coinstate crypto block first = validate_block_in_coinstate crypto block second ∧
      ∀ current_timestamp, (∃ next, first.add_block crypto block current_timestamp = .ok next) ↔
        ∃ next, second.add_block crypto block current_timestamp = .ok next := by
  have hsame := hfirst.same_branch hsecond hnames hparent hparent'
  refine ⟨hsame.validate, fun current_timestamp => ?_⟩
  simp only [add_block_eq_ok, exists_and_left, hsame.validate]
  refine and_congr_right fun _ => and_congr_right fun _ => ⟨?_, ?_⟩
  · rintro ⟨next, hadd⟩
    exact hsame.add_ok hsecond.represents.head_ok hadd
  · rintro ⟨next, hadd⟩
    exact hsame.symm.add_ok hfirst.represents.head_ok hadd

-- The higher branch of the fork alone.
def higherBranch : List Block := [bareBlock 1 0 0, bareBlock 3 1 1, bareBlock 4 3 2]

def higherCoinstate (n : Nat) : CoinState :=
  (addBlocks .residue empty (higherBranch.take n)).toOption.getD empty

def higherEntries : List (Hash × Block) :=
  [(.ofNat 32 4, bareBlock 4 3 2), (.ofNat 32 3, bareBlock 3 1 1), (.ofNat 32 1, bareBlock 1 0 0)]

theorem higher_grown : Grown .residue higherEntries (higherCoinstate 3) := by
  have h1 : Grown .residue (higherEntries.drop 2) (higherCoinstate 1) :=
    .root (by decide +kernel) rfl (by decide +kernel)
  have h2 : Grown .residue (higherEntries.drop 1) (higherCoinstate 2) :=
    .add (p := .ofNat 32 1) (q := bareBlock 1 0 0) h1 rfl (by decide +kernel) (by decide +kernel)
      (by decide +kernel) rfl (by decide +kernel)
  exact .add (p := .ofNat 32 3) (q := bareBlock 3 1 1) h2 rfl (by decide +kernel) (by decide +kernel)
    (by decide +kernel) rfl (by decide +kernel)

-- Either node knows a branch that the other does not.
theorem verdict_agreement_fork :
    validate_block_in_coinstate .residue (bareBlock 5 1 1) (forkCoinstate 2) =
      validate_block_in_coinstate .residue (bareBlock 5 1 1) (higherCoinstate 3) := by
  have hlow := fork_first_grown.represents
  have hhigh := higher_grown.represents
  have hnames : Compatible (forkCoinstate 2) (higherCoinstate 3) := by
    intro h block block' hblock hblock'
    have hboth : ∀ entry ∈ forkEntries.drop 2, ∀ entry' ∈ higherEntries, entry.1 = entry'.1 → entry.2 = entry'.2 := by
      decide +kernel
    exact hboth (h, block) ((hlow.known h block).mp hblock) (h, block') ((hhigh.known h block').mp hblock') rfl
  have hparent : (bareBlock 5 1 1).previous_block_hash ∈ (forkEntries.drop 2).map Prod.fst := by decide +kernel
  have hparent' : (bareBlock 5 1 1).previous_block_hash ∈ higherEntries.map Prod.fst := by decide +kernel
  exact (verdict_agreement fork_first_grown higher_grown hnames (hlow.mem_known.mpr hparent)
    (hhigh.mem_known.mpr hparent')).1

end CoinState

end Skepticoin
