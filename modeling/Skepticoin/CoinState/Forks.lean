import Skepticoin.CoinState.Ancestry

namespace Skepticoin

open Guard FMap

namespace CoinState

variable (crypto : Crypto)

-- The opposite of the condition of the while loop.
def on_main (self : CoinState) (block : Block) : Py Bool := do
  let by_height_at_head ← self.by_height_at_head
  match by_height_at_head.lookup block.height with
  | none => return false
  | some other =>
    let other_hash ← other.hash crypto
    let hash ← block.hash crypto
    return other_hash = hash

-- The while loop; it returns no block where the turns do not suffice.
def find_lca_with_main (self : CoinState) : Nat → Block → Py (Option Block)
  | 0, _ => .ok none
  | turns + 1, block => do
    let found ← self.on_main crypto block
    if found then return some block
    else
      let block ← getItem self.block_by_hash block.previous_block_hash
      find_lca_with_main self turns block

-- The element of the list comprehension.
def fork_of (self : CoinState) (turns : Nat) (item : Hash × Block) : Py (Block × Option Block) := do
  let head := item.2
  let lca ← self.find_lca_with_main crypto turns head
  return (head, lca)

def forks (self : CoinState) (turns : Nat) (heads : Items self.heads) : Py (List (Block × Option Block)) :=
  collect (self.fork_of crypto turns) heads.list

end CoinState

section Ancestors

variable {coinstate : CoinState}

def IsAncestor (coinstate : CoinState) (low block : Block) : Prop := ∃ n, coinstate.ancestor n block = some low

-- The highest of the common ancestors, of which every other is an ancestor.
structure HighestCommonAncestor (coinstate : CoinState) (block current lca : Block) : Prop where
  below : IsAncestor coinstate lca block
  below_current : IsAncestor coinstate lca current
  highest : ∀ other, IsAncestor coinstate other block → IsAncestor coinstate other current →
    other.height ≤ lca.height ∧ IsAncestor coinstate other lca

-- What is reported for a head.
structure ForkPair (coinstate : CoinState) (current : Block) (item : Hash × Block) (pair : Block × Block) : Prop where
  head : pair.1 = item.2
  lca : HighestCommonAncestor coinstate item.2 current pair.2
  itself : item.2 = current → pair.2 = current

-- All chains start with the same block of height 0.
def SingleGenesis (coinstate : CoinState) : Prop :=
  ∀ h h' block block', coinstate.block_by_hash.lookup h = some block → coinstate.block_by_hash.lookup h' = some block' →
    block.height = 0 → block'.height = 0 → block = block'

-- The heads are the known blocks without a known child.
def HeadsChildless (coinstate : CoinState) : Prop :=
  ∀ h block, coinstate.heads.lookup h = some block ↔ coinstate.block_by_hash.lookup h = some block ∧
    ∀ c child, coinstate.block_by_hash.lookup c = some child → child.parent ≠ some h

end Ancestors

section Walk

variable {crypto : Crypto} {coinstate : CoinState} {head current : Block} {index main : Map Nat Block}

-- Blocks of one height are compared by their hashes, which are their keys.
theorem on_main_iff (hhead : ChainOf crypto coinstate head index)
    (hmain : ChainOf crypto coinstate current main) (hat : coinstate.by_height_at_head = .ok main) {i : Nat}
    {block : Block} (hblock : index.lookup i = some block) :
    ∃ found, coinstate.on_main crypto block = .ok found ∧ (found = true ↔ main.lookup i = some block) := by
  obtain ⟨rfl, hash, hhash, hstored⟩ := hhead.known i block hblock
  cases hother : main.lookup block.height with
  | none =>
      refine ⟨false, ?_, by simp⟩
      simp [CoinState.on_main, hat, hother]
  | some other =>
      obtain ⟨_, hash', hhash', hstored'⟩ := hmain.known _ other hother
      refine ⟨decide (hash' = hash), ?_, ?_⟩
      · simp [CoinState.on_main, hat, hother, hhash, hhash']
      · rw [decide_eq_true_iff, Option.some.injEq]
        constructor
        · intro heq
          rw [heq] at hstored'
          exact Option.some.inj (hstored'.symm.trans hstored)
        · intro heq
          rw [heq] at hhash'
          exact Except.ok.inj (hhash'.symm.trans hhash)

-- From a block of the chain the walk goes down to the first that the main chain
-- shares. The induction is on its height, and at height 0 there is one block.
theorem find_lca_run (hsingle : SingleGenesis coinstate)
    (hhead : ChainOf crypto coinstate head index) (hmain : ChainOf crypto coinstate current main)
    (hat : coinstate.by_height_at_head = .ok main) {i : Nat} {block : Block} (hblock : index.lookup i = some block) :
    ∃ j ≤ i, ∃ lca, index.lookup j = some lca ∧ main.lookup j = some lca ∧
      (∀ k, j < k → k ≤ i → index.lookup k ≠ main.lookup k) ∧
      ∀ turns > i, coinstate.find_lca_with_main crypto turns block = .ok (some lca) := by
  induction i generalizing block with
  | zero =>
      obtain ⟨genesis, hgenesis⟩ := hmain.exists_at (Nat.zero_le current.height)
      obtain ⟨hheight, hash, _, hstored⟩ := hhead.known 0 block hblock
      obtain ⟨hheight', hash', _, hstored'⟩ := hmain.known 0 genesis hgenesis
      have hsame := hsingle hash hash' block genesis hstored hstored' hheight hheight'
      rw [← hsame] at hgenesis
      obtain ⟨found, hfound, hiff⟩ := on_main_iff hhead hmain hat hblock
      refine ⟨0, Nat.le_refl _, block, hblock, hgenesis, fun k hlow hhigh => by omega, ?_⟩
      intro turns hturns
      obtain ⟨rest, rfl⟩ : ∃ rest, turns = rest + 1 := ⟨turns - 1, by omega⟩
      rw [hiff.mpr hgenesis] at hfound
      simp [CoinState.find_lca_with_main, hfound]
  | succ i ih =>
      obtain ⟨found, hfound, hiff⟩ := on_main_iff hhead hmain hat hblock
      cases found with
      | true =>
          refine ⟨i + 1, Nat.le_refl _, block, hblock, hiff.mp rfl, fun k hlow hhigh => by omega, ?_⟩
          intro turns hturns
          obtain ⟨rest, rfl⟩ : ∃ rest, turns = rest + 1 := ⟨turns - 1, by omega⟩
          simp [CoinState.find_lca_with_main, hfound]
      | false =>
          have hle := (hhead.heights (i + 1)).mp (Finmap.mem_of_lookup_eq_some hblock)
          obtain ⟨previous, hprevious⟩ := hhead.exists_at (show i ≤ head.height by omega)
          obtain ⟨j, hj, lca, hlca, hshared, hapart, hrun⟩ := ih hprevious
          refine ⟨j, by omega, lca, hlca, hshared, ?_, ?_⟩
          · intro k hlow hhigh
            by_cases htop : k = i + 1
            · rw [htop, hblock]
              intro heq
              have hon : (false = true) := hiff.mpr heq.symm
              cases hon
            · exact hapart k hlow (by omega)
          · intro turns hturns
            obtain ⟨rest, rfl⟩ : ∃ rest, turns = rest + 1 := ⟨turns - 1, by omega⟩
            have hstep := hhead.previous hprevious hblock
            simp [CoinState.find_lca_with_main, hfound, hstep, hrun rest (by omega)]

-- The first shared block is the highest common ancestor: what both have below
-- they have at one height.
theorem find_lca_highest (hsingle : SingleGenesis coinstate)
    (hhead : ChainOf crypto coinstate head index) (hmain : ChainOf crypto coinstate current main)
    (hat : coinstate.by_height_at_head = .ok main) :
    ∃ lca, HighestCommonAncestor coinstate head current lca ∧
      ∀ turns > head.height, coinstate.find_lca_with_main crypto turns head = .ok (some lca) := by
  obtain ⟨j, hj, lca, hlca, hshared, hapart, hrun⟩ := find_lca_run hsingle hhead hmain hat hhead.top
  refine ⟨lca, ⟨⟨_, hhead.ancestor hlca⟩, ⟨_, hmain.ancestor hshared⟩, ?_⟩, hrun⟩
  rintro other ⟨n, hn⟩ ⟨n', hn'⟩
  have hin := hhead.mem_of_ancestor hhead.top hn
  have hin' := hmain.mem_of_ancestor hmain.top hn'
  have hlow := (hhead.heights _).mp (Finmap.mem_of_lookup_eq_some hin)
  obtain ⟨hheight, _⟩ := hhead.known j lca hlca
  have hle : other.height ≤ j := by
    by_contra hover
    exact hapart other.height (by omega) hlow (hin.trans hin'.symm)
  have htop := hlca
  rw [← Nat.add_sub_cancel' hle] at htop
  exact ⟨by omega, _, hhead.ancestor_from hin htop⟩

-- A block is the highest ancestor that it shares with itself.
theorem HighestCommonAncestor.eq_of_eq_current {lca : Block}
    (hlca : HighestCommonAncestor coinstate head current lca) (hmain : ChainOf crypto coinstate current main) :
    head = current → lca = current := by
  intro heq
  obtain ⟨n, hn⟩ := hlca.below_current
  have hin := hmain.mem_of_ancestor hmain.top hn
  have hle := (hmain.heights _).mp (Finmap.mem_of_lookup_eq_some hin)
  obtain ⟨hge, _⟩ := hlca.highest current ⟨0, by rw [heq]; rfl⟩ ⟨0, rfl⟩
  rw [Nat.le_antisymm hle hge, hmain.top] at hin
  exact (Option.some.inj hin).symm

end Walk

-- For each childless block there is one pair, with the highest ancestor that
-- it shares with the current head.
theorem forks_correct {crypto : Crypto} {coinstate : CoinState} (h : Consistent crypto coinstate)
    (hsingle : SingleGenesis coinstate) (hheads : HeadsChildless coinstate) (heads : Items coinstate.heads) :
    ∃ (current : Block) (pairs : List (Block × Block)) (bound : Nat), coinstate.head = .ok current ∧
      (∀ turns > bound, coinstate.forks crypto turns heads = .ok (pairs.map fun pair => (pair.1, some pair.2))) ∧
      (heads.list.map Prod.fst).Nodup ∧
      (∀ h block, (h, block) ∈ heads.list ↔ coinstate.block_by_hash.lookup h = some block ∧
        ∀ c child, coinstate.block_by_hash.lookup c = some child → child.parent ≠ some h) ∧
      List.Forall₂ (ForkPair coinstate current) heads.list pairs := by
  obtain ⟨top, hmem, htop⟩ := h.current
  obtain ⟨current, hcurrent⟩ := Finmap.mem_iff.mp hmem
  obtain ⟨main, hmainLookup, hmain⟩ := h.chain hcurrent
  have hat : coinstate.by_height_at_head = .ok main := by simp [CoinState.by_height_at_head, htop, hmainLookup]
  have hhead : coinstate.head = .ok current := by simp [CoinState.head, htop, hcurrent]
  have heach : ∀ item ∈ heads.list, ∃ pair, ForkPair coinstate current item pair ∧
      ∃ bound, ∀ turns > bound, coinstate.fork_of crypto turns item = .ok (pair.1, some pair.2) := by
    intro item hitem
    obtain ⟨hknown, _⟩ := (hheads item.1 item.2).mp ((heads.mem item.1 item.2).mp hitem)
    obtain ⟨index, _, hchain⟩ := h.chain hknown
    obtain ⟨lca, hhighest, hrun⟩ := find_lca_highest hsingle hchain hmain hat
    refine ⟨(item.2, lca), ⟨rfl, hhighest, hhighest.eq_of_eq_current hmain⟩, item.2.height, fun turns hturns => ?_⟩
    rw [CoinState.fork_of, hrun turns hturns]
    rfl
  obtain ⟨pairs, hpairs, bound, hrun⟩ :=
    collect_eventually (g := fun pair : Block × Block => (pair.1, some pair.2)) heach
  refine ⟨current, pairs, bound, hhead, hrun, heads.once, fun k block => ?_, hpairs⟩
  rw [heads.mem, hheads]

-- The two heads of the fork, of which the lower shares the root with the other.
def forkHeads : Items (CoinState.forkCoinstate 4).heads where
  list := CoinState.forkEntries.filter fun entry => ∀ other ∈ CoinState.forkEntries, other.2.parent ≠ some entry.1
  once := by decide +kernel
  mem key value := by
    rw [CoinState.fork_grown.represents.heads, List.mem_filter, decide_eq_true_iff]
    rfl

theorem forks_correct_fork :
    ∃ (current : Block) (pairs : List (Block × Block)) (bound : Nat),
      (CoinState.forkCoinstate 4).head = .ok current ∧
      (∀ turns > bound, (CoinState.forkCoinstate 4).forks .residue turns forkHeads =
        .ok (pairs.map fun pair => (pair.1, some pair.2))) ∧
      List.Forall₂ (ForkPair (CoinState.forkCoinstate 4) current) forkHeads.list pairs := by
  have hrep := CoinState.fork_grown.represents
  have hsingle : SingleGenesis (CoinState.forkCoinstate 4) := by
    have hone : ∀ entry ∈ CoinState.forkEntries, entry.2.height = 0 → entry.2 = CoinState.bareBlock 1 0 0 := by
      decide +kernel
    intro h h' block block' hblock hblock' hheight hheight'
    have hroot := hone (h, block) ((hrep.known h block).mp hblock) hheight
    have hroot' := hone (h', block') ((hrep.known h' block').mp hblock') hheight'
    exact hroot.trans hroot'.symm
  have hheads : HeadsChildless (CoinState.forkCoinstate 4) := hrep.heads_childless
  obtain ⟨current, pairs, bound, hcurrent, hrun, _, _, hpairs⟩ :=
    forks_correct CoinState.fork_consistent hsingle hheads forkHeads
  exact ⟨current, pairs, bound, hcurrent, hrun, hpairs⟩

end Skepticoin
