import Skepticoin.CoinState.Growth

namespace Skepticoin

open Guard FMap Tree

namespace CoinState

variable {crypto : Crypto} {blocks : List (Hash × Block)} {coinstate : CoinState}

-- The index of a block of height k holds the heights from 0 to k, and at each
-- of them the ancestor of that height.
def Indexed (blocks : List (Hash × Block)) (h : Hash) (block : Block) (index : Map Nat Block) : Prop :=
  (∀ i, i ∈ index ↔ i ≤ block.height) ∧
    ∀ i ancestor, index.lookup i = some ancestor ↔
      ∃ a, (a, ancestor) ∈ blocks ∧ Tree.Ancestor Block.parent blocks a h ∧ ancestor.height = i

theorem indexed_root (htree : Tree.Grown Block.parent Block.height blocks) {h : Hash} {block : Block}
    (hmem : (h, block) ∈ blocks) (hparent : block.parent = none) (hheight : block.height = 0) :
    Indexed blocks h block (Finmap.singleton 0 block) := by
  refine ⟨fun i => ?_, fun i ancestor => ?_⟩
  · rw [Finmap.mem_singleton]
    omega
  · rw [lookup_singleton_eq_ite]
    constructor
    · intro hlookup
      split_ifs at hlookup with hi
      obtain rfl := Option.some.inj hlookup
      exact ⟨h, hmem, .refl hmem, hheight.trans hi.symm⟩
    · rintro ⟨a, ha, hancestor, rfl⟩
      rcases htree.ancestor_cases hmem hancestor with rfl | ⟨p, hp, _⟩
      · obtain rfl := htree.unique hmem ha
        rw [if_pos hheight]
      · simp [hparent] at hp

theorem indexed_child (htree : Tree.Grown Block.parent Block.height blocks) {h p : Hash}
    {block previous : Block} {index : Map Nat Block} (hmem : (h, block) ∈ blocks)
    (hprevious : (p, previous) ∈ blocks) (hparent : block.parent = some p)
    (hheight : block.height = previous.height + 1) (hindexed : Indexed blocks p previous index) :
    Indexed blocks h block (index.insert block.height block) := by
  obtain ⟨hkeys, hancestors⟩ := hindexed
  refine ⟨fun i => ?_, fun i ancestor => ?_⟩
  · rw [Finmap.mem_insert, hkeys]
    omega
  · rw [lookup_insert_eq_ite]
    constructor
    · intro hlookup
      split_ifs at hlookup with hi
      · obtain rfl := Option.some.inj hlookup
        exact ⟨h, hmem, .refl hmem, hi.symm⟩
      · obtain ⟨a, ha, hancestor, hi⟩ := (hancestors i ancestor).mp hlookup
        exact ⟨a, ha, .step hmem hparent hancestor, hi⟩
    · rintro ⟨a, ha, hancestor, rfl⟩
      rcases htree.ancestor_cases hmem hancestor with rfl | ⟨p', hp', hancestor⟩
      · obtain rfl := htree.unique hmem ha
        rw [if_pos rfl]
      · obtain rfl := Option.some.inj (hparent.symm.trans hp')
        have hle := htree.ancestor_height hprevious ha hancestor
        rw [if_neg (by omega)]
        exact (hancestors _ _).mpr ⟨a, ha, hancestor, rfl⟩

theorem Represents.indexed (htree : Tree.Grown Block.parent Block.height blocks)
    (hrep : Represents crypto blocks coinstate)
    (hroot : ∀ h block, (h, block) ∈ blocks → block.parent = none → block.height = 0) :
    ∀ h block index, (h, block) ∈ blocks →
      coinstate.block_by_height_by_hash.lookup h = some index → Indexed blocks h block index := by
  refine hrep.index.induction htree ?_ ?_
  · intro h block index hmem hparent hindex
    obtain rfl := Except.ok.inj hindex
    exact indexed_root htree hmem hparent (hroot h block hmem hparent)
  · intro h block p previous before index hmem hprevious hparent hheight hindexed hindex
    obtain rfl := Except.ok.inj hindex
    exact indexed_child htree hmem hprevious hparent hheight hindexed

theorem Represents.heads_childless (hrep : Represents crypto blocks coinstate) (h : Hash) (block : Block) :
    coinstate.heads.lookup h = some block ↔ coinstate.block_by_hash.lookup h = some block ∧
      ∀ c child, coinstate.block_by_hash.lookup c = some child → child.parent ≠ some h := by
  rw [hrep.heads, hrep.known]
  refine and_congr_right fun _ => ⟨fun hleaf c child hchild => ?_, fun hchildren entry hentry => ?_⟩
  · exact hleaf (c, child) ((hrep.known c child).mp hchild)
  · exact hchildren entry.1 entry.2 ((hrep.known _ _).mpr hentry)

-- The index holds exactly the ancestors of each known block, the heads are the
-- known blocks without a known child, and the current one of them is the
-- oldest among the highest blocks.
theorem index_and_fork_choice (hgrown : Grown crypto blocks coinstate)
    (hroot : ∀ h block, (h, block) ∈ blocks → block.parent = none → block.height = 0) :
    (∀ h block, coinstate.block_by_hash.lookup h = some block →
      ∃ index, coinstate.block_by_height_by_hash.lookup h = some index ∧
        Indexed blocks h block index) ∧
    (∀ h block, coinstate.heads.lookup h = some block ↔
      coinstate.block_by_hash.lookup h = some block ∧
        ∀ c child, coinstate.block_by_hash.lookup c = some child → child.parent ≠ some h) ∧
    ∃ h block newer older, coinstate.current_chain_hash = some h ∧
      blocks = newer ++ (h, block) :: older ∧
      (∀ entry ∈ newer, entry.2.height ≤ block.height) ∧
      (∀ entry ∈ older, entry.2.height < block.height) ∧
      coinstate.heads.lookup h = some block := by
  have htree := hgrown.tree
  have hrep := hgrown.represents
  refine ⟨fun h block hlookup => ?_, hrep.heads_childless, ?_⟩
  · have hmem := (hrep.known h block).mp hlookup
    have hin := (hrep.index.dom h).mpr (mem_keys_of_mem hmem)
    obtain ⟨index, hindex⟩ := Finmap.mem_iff.mp hin
    exact ⟨index, hindex, hrep.indexed htree hroot h block index hmem hindex⟩
  · obtain ⟨h, hcurrent, hbest⟩ := hrep.current
    have hleaf := hbest.leaf htree
    obtain ⟨newer, block, older, hsplit, hnewer, holder⟩ := hbest
    refine ⟨h, block, newer, older, hcurrent, hsplit, hnewer, holder, ?_⟩
    exact (hrep.heads h block).mpr ⟨by rw [hsplit]; simp, hleaf⟩

-- A block of a given hash, parent and height that moves no money.
def bareBlock (hash previous height : Nat) : Block where
  header := {
    summary := {
      height
      previous_block_hash := .ofNat 32 previous
      merkle_root_hash := zero_hash
      timestamp := height
      target := INITIAL_TARGET
      nonce := 0 }
    pow_evidence := {
      summary_hash := zero_hash
      chain_sample := to_bytes CHAIN_SAMPLE_TOTAL_SIZE 0
      block_hash := zero_hash } }
  transactions := [{ inputs := [], outputs := [] }]
  cached_hash := some (.ofNat 32 hash)

-- A root with two children, the second of which has a child of its own.
def fork : List Block := [bareBlock 1 0 0, bareBlock 2 1 1, bareBlock 3 1 1, bareBlock 4 3 2]

-- The coinstate that has taken the first n blocks of the fork.
def forkCoinstate (n : Nat) : CoinState := (addBlocks .residue empty (fork.take n)).toOption.getD empty

def forkEntries : List (Hash × Block) :=
  [(.ofNat 32 4, bareBlock 4 3 2), (.ofNat 32 3, bareBlock 3 1 1), (.ofNat 32 2, bareBlock 2 1 1),
    (.ofNat 32 1, bareBlock 1 0 0)]

theorem fork_first_grown : Grown .residue (forkEntries.drop 2) (forkCoinstate 2) := by
  have h1 : Grown .residue (forkEntries.drop 3) (forkCoinstate 1) :=
    .root (by decide +kernel) rfl (by decide +kernel)
  exact .add (p := .ofNat 32 1) (q := bareBlock 1 0 0) h1 rfl (by decide +kernel)
    (by decide +kernel) (by decide +kernel) rfl (by decide +kernel)

theorem fork_grown : Grown .residue forkEntries (forkCoinstate 4) := by
  have h3 : Grown .residue (forkEntries.drop 1) (forkCoinstate 3) :=
    .add (p := .ofNat 32 1) (q := bareBlock 1 0 0) fork_first_grown rfl (by decide +kernel)
      (by decide +kernel) (by decide +kernel) rfl (by decide +kernel)
  exact .add (p := .ofNat 32 3) (q := bareBlock 3 1 1) h3 rfl (by decide +kernel)
    (by decide +kernel) (by decide +kernel) rfl (by decide +kernel)

theorem fork_root_height (h : Hash) (block : Block) (hmem : (h, block) ∈ forkEntries) :
    block.parent = none → block.height = 0 := by
  have hall : ∀ entry ∈ forkEntries, entry.2.parent = none → entry.2.height = 0 := by decide +kernel
  exact hall (h, block) hmem

theorem index_and_fork_choice_fork :
    ∃ h block newer older, (forkCoinstate 4).current_chain_hash = some h ∧
      forkEntries = newer ++ (h, block) :: older ∧
      (∀ entry ∈ newer, entry.2.height ≤ block.height) ∧
      (∀ entry ∈ older, entry.2.height < block.height) ∧
      (forkCoinstate 4).heads.lookup h = some block := by
  exact (index_and_fork_choice fork_grown fork_root_height).2.2

end CoinState

end Skepticoin
