import Skepticoin.CoinState.Theorems
import Skepticoin.Lib.Tree

namespace Skepticoin

open Guard FMap Tree

-- A block with the zero previous hash has no parent.
def Block.parent (block : Block) : Option Hash :=
  if block.previous_block_hash = zero_hash then none else some block.previous_block_hash

theorem Block.parent_eq_none {block : Block} :
    block.parent = none ↔ block.previous_block_hash = zero_hash := by
  simp [Block.parent]

theorem Block.parent_eq_some {block : Block} {p : Hash} :
    block.parent = some p ↔ block.previous_block_hash ≠ zero_hash ∧ block.previous_block_hash = p := by
  simp [Block.parent]

namespace CoinState

variable {crypto : Crypto}

-- A coinstate that started with a block without parent and took one new block
-- after another, each with a known parent one lower. The blocks are listed
-- with their hashes, newest first.
inductive Grown (crypto : Crypto) : List (Hash × Block) → CoinState → Prop
  | root {h : Hash} {block : Block} {coinstate : CoinState} :
    block.parent = none → block.hash crypto = .ok h →
    empty.add_block_no_validation crypto block = .ok coinstate →
    Grown crypto [(h, block)] coinstate
  | add {blocks : List (Hash × Block)} {h p : Hash} {block q : Block}
      {coinstate next : CoinState} :
    Grown crypto blocks coinstate → block.hash crypto = .ok h → h ∉ blocks.map Prod.fst →
    block.parent = some p → (p, q) ∈ blocks → block.height = q.height + 1 →
    coinstate.add_block_no_validation crypto block = .ok next →
    Grown crypto ((h, block) :: blocks) next

theorem Grown.tree {blocks : List (Hash × Block)} {coinstate : CoinState}
    (hgrown : Grown crypto blocks coinstate) : Tree.Grown Block.parent Block.height blocks := by
  induction hgrown with
  | root hparent _ _ => exact .root hparent
  | add _ _ hfresh hparent hmem hheight _ ih => exact .add ih hfresh hparent hmem hheight

def addBlocks (crypto : Crypto) (coinstate : CoinState) : List Block → Py CoinState
  | [] => .ok coinstate
  | block :: blocks => do
    let coinstate ← coinstate.add_block_no_validation crypto block
    addBlocks crypto coinstate blocks

-- How the two maps come about, from what they hold for the parent.
def applyUnspent (crypto : Crypto) (before : Option UnspentTransactionOuts) (block : Block) :
    Py UnspentTransactionOuts :=
  uto_apply_block crypto (before.getD ∅) block

def applyIndex (before : Option (Map Nat Block)) (block : Block) : Py (Map Nat Block) :=
  match before with
  | none => .ok (Finmap.singleton 0 block)
  | some block_by_height => .ok (block_by_height.insert block.height block)

-- What a coinstate says about the tree of blocks that it has taken.
structure Represents (crypto : Crypto) (blocks : List (Hash × Block)) (coinstate : CoinState) : Prop where
  hashed : ∀ h block, (h, block) ∈ blocks → block.hash crypto = .ok h
  known : ∀ h block, coinstate.block_by_hash.lookup h = some block ↔ (h, block) ∈ blocks
  unspent : Folds Block.parent (applyUnspent crypto) blocks coinstate.unspent_transaction_outs_by_hash
  index : Folds Block.parent applyIndex blocks coinstate.block_by_height_by_hash
  heads : ∀ h block, coinstate.heads.lookup h = some block ↔
    (h, block) ∈ blocks ∧ Leaf Block.parent blocks h
  current : ∃ h, coinstate.current_chain_hash = some h ∧ Best Block.height blocks h

theorem represents_root {h : Hash} {block : Block} {coinstate : CoinState}
    (hparent : block.parent = none) (hhash : block.hash crypto = .ok h)
    (hadd : empty.add_block_no_validation crypto block = .ok coinstate) :
    Represents crypto [(h, block)] coinstate := by
  have hprevious := Block.parent_eq_none.mp hparent
  obtain ⟨before, after, hash, index, current, hbefore, hafter, hhash', hindex, hcurrent, rfl⟩ :=
    add_block_no_validation_eq_ok.mp hadd
  obtain rfl : h = hash := Except.ok.inj (hhash.symm.trans hhash')
  obtain rfl : ∅ = before := by
    simpa [previous_unspent_transaction_outs, hprevious] using hbefore
  obtain rfl : Finmap.singleton h (Finmap.singleton 0 block) = index := by
    simpa [next_block_by_height_by_hash, hprevious] using hindex
  obtain rfl : h = current := by simpa [next_current_chain_hash, empty] using hcurrent
  refine ⟨?_, ?_, ?_, ?_, ?_, ?_⟩
  · rintro k b hmem
    obtain ⟨rfl, rfl⟩ := Prod.mk.inj (List.mem_singleton.mp hmem)
    exact hhash
  · intro k b
    simp [empty, insert_empty, lookup_singleton_eq_ite, eq_comm]
  · simp only [empty, insert_empty]
    exact folds_singleton hparent hafter
  · exact folds_singleton hparent rfl
  · intro k b
    have hleaf : Leaf Block.parent [(h, block)] k := by simp [Leaf, hparent]
    have herase : (∅ : Map Hash Block).erase block.previous_block_hash = ∅ :=
      Finmap.ext_lookup fun k => by simp [lookup_erase_eq_ite]
    simp [empty, herase, insert_empty, lookup_singleton_eq_ite, hleaf, eq_comm]
  · exact ⟨h, rfl, best_singleton h block⟩

-- The head moves to the new block when that extends it, or stands higher.
theorem best_step {blocks : List (Hash × Block)} {coinstate : CoinState} {h p hash : Hash}
    {block previous : Block} (htree : Tree.Grown Block.parent Block.height blocks)
    (hrep : Represents crypto blocks coinstate) (hparent : block.previous_block_hash = p)
    (hmem : (p, previous) ∈ blocks) (hheight : block.height = previous.height + 1)
    (hcurrent : coinstate.next_current_chain_hash h block = .ok hash) :
    Best Block.height ((h, block) :: blocks) hash := by
  obtain ⟨c, hc, hbest⟩ := hrep.current
  obtain ⟨current, hcmem, hmax⟩ := hbest.mem
  simp only [next_current_chain_hash, hc, hparent] at hcurrent
  split_ifs at hcurrent with hextends
  · obtain rfl := Except.ok.inj hcurrent
    refine best_overtaken fun entry hentry => ?_
    obtain rfl := htree.unique hmem (hextends ▸ hcmem)
    have hle := hmax entry hentry
    omega
  · simp only [bind_eq_ok, getItem_eq_ok, pure_eq_ok, hrep.known] at hcurrent
    obtain ⟨current', hcmem', hchoice⟩ := hcurrent
    obtain rfl := htree.unique hcmem hcmem'
    split_ifs at hchoice with hmore
    · subst hchoice
      refine best_overtaken fun entry hentry => ?_
      have hle := hmax entry hentry
      simp only [Block.get_total_work] at hmore
      omega
    · subst hchoice
      exact hbest.kept htree hcmem (Nat.not_lt.mp hmore)

theorem represents_add {blocks : List (Hash × Block)} {coinstate next : CoinState} {h p : Hash}
    {block previous : Block} (htree : Tree.Grown Block.parent Block.height blocks)
    (hrep : Represents crypto blocks coinstate) (hhash : block.hash crypto = .ok h)
    (hfresh : h ∉ blocks.map Prod.fst) (hparent : block.parent = some p) (hmem : (p, previous) ∈ blocks)
    (hheight : block.height = previous.height + 1)
    (hadd : coinstate.add_block_no_validation crypto block = .ok next) :
    Represents crypto ((h, block) :: blocks) next := by
  obtain ⟨hprevious, rfl⟩ := Block.parent_eq_some.mp hparent
  obtain ⟨before, after, hash, index, current, hbefore, hafter, hhash', hindex, hcurrent, rfl⟩ :=
    add_block_no_validation_eq_ok.mp hadd
  obtain rfl : h = hash := Except.ok.inj (hhash.symm.trans hhash')
  simp only [previous_unspent_transaction_outs, if_neg hprevious, getItem_eq_ok] at hbefore
  simp only [next_block_by_height_by_hash, if_neg hprevious, bind_eq_ok, getItem_eq_ok, pure_eq_ok]
    at hindex
  obtain ⟨block_by_height, hlookup, rfl⟩ := hindex
  have hne : block.previous_block_hash ≠ h := fun heq => hfresh (heq ▸ mem_keys_of_mem hmem)
  refine ⟨?_, ?_, ?_, ?_, ?_, ?_⟩
  · intro k b hb
    rcases List.mem_cons.mp hb with hnew | hold
    · obtain ⟨rfl, rfl⟩ := Prod.mk.inj hnew
      exact hhash
    · exact hrep.hashed k b hold
  · intro k b
    rw [lookup_insert_eq_ite, List.mem_cons, Prod.mk.injEq]
    split_ifs with hk
    · subst hk
      have hnot : (k, b) ∉ blocks := fun hb => hfresh (mem_keys_of_mem hb)
      simp [hnot, eq_comm]
    · simp [hk, hrep.known]
  · exact hrep.unspent.insert htree hfresh hparent hbefore hafter
  · exact hrep.index.insert htree hfresh hparent hlookup rfl
  · intro k b
    rw [lookup_insert_eq_ite, lookup_erase_eq_ite, leaf_cons, List.mem_cons, Prod.mk.injEq, hparent,
      Ne, Option.some.injEq]
    split_ifs with hk hp
    · subst hk
      have hnot : (k, b) ∉ blocks := fun hb => hfresh (mem_keys_of_mem hb)
      simp [hnot, hne, htree.fresh_leaf hfresh, eq_comm]
    · simp [hp]
    · simp [hk, Ne.symm hp, hrep.heads]
  · exact ⟨current, rfl, best_step htree hrep rfl hmem hheight hcurrent⟩

theorem Represents.mem_known {blocks : List (Hash × Block)} {coinstate : CoinState}
    (hrep : Represents crypto blocks coinstate) {h : Hash} :
    h ∈ coinstate.block_by_hash ↔ h ∈ blocks.map Prod.fst := by
  rw [Finmap.mem_iff, List.mem_map]
  constructor
  · intro hfound
    obtain ⟨block, hblock⟩ := hfound
    exact ⟨(h, block), (hrep.known h block).mp hblock, rfl⟩
  · intro hentry
    obtain ⟨entry, hmem, hfst⟩ := hentry
    exact ⟨entry.2, (hrep.known h entry.2).mpr (hfst ▸ hmem)⟩

-- Adding fails for nothing but the transactions, where the parent is known.
theorem Represents.add_ok {blocks : List (Hash × Block)} {coinstate : CoinState} {h p : Hash}
    {block previous : Block} (hrep : Represents crypto blocks coinstate) (hhash : block.hash crypto = .ok h)
    (hparent : block.parent = some p) (hmem : (p, previous) ∈ blocks)
    (happly : ∀ before, coinstate.unspent_transaction_outs_by_hash.lookup p = some before →
      ∃ after, uto_apply_block crypto before block = .ok after) :
    ∃ next, coinstate.add_block_no_validation crypto block = .ok next := by
  obtain ⟨hprevious, rfl⟩ := Block.parent_eq_some.mp hparent
  have hkey := mem_keys_of_mem hmem
  obtain ⟨before, hbefore⟩ := Finmap.mem_iff.mp ((hrep.unspent.dom _).mpr hkey)
  obtain ⟨index, hindex⟩ := Finmap.mem_iff.mp ((hrep.index.dom _).mpr hkey)
  obtain ⟨after, hafter⟩ := happly before hbefore
  obtain ⟨current, hcurrent⟩ : ∃ current, coinstate.next_current_chain_hash h block = .ok current := by
    obtain ⟨c, hc, hbest⟩ := hrep.current
    obtain ⟨best, hbest, _⟩ := hbest.mem
    simp only [next_current_chain_hash, hc]
    split_ifs
    · exact ⟨h, rfl⟩
    · simp [(hrep.known c best).mpr hbest]
  have hunspent : coinstate.previous_unspent_transaction_outs block = .ok before := by
    rw [previous_unspent_transaction_outs, if_neg hprevious, getItem_eq_ok, hbefore]
  have hnext : coinstate.next_block_by_height_by_hash h block =
      .ok (coinstate.block_by_height_by_hash.insert h (index.insert block.height block)) := by
    rw [next_block_by_height_by_hash, if_neg hprevious]
    simp [hindex]
  exact ⟨_, add_block_no_validation_eq_ok.mpr
    ⟨before, after, h, _, current, hunspent, hafter, hhash, hnext, hcurrent, rfl⟩⟩

theorem Grown.represents {blocks : List (Hash × Block)} {coinstate : CoinState}
    (hgrown : Grown crypto blocks coinstate) : Represents crypto blocks coinstate := by
  induction hgrown with
  | root hparent hhash hadd => exact represents_root hparent hhash hadd
  | add hgrown hhash hfresh hparent hmem hheight hadd ih =>
      exact represents_add hgrown.tree ih hhash hfresh hparent hmem hheight hadd

end CoinState

end Skepticoin
