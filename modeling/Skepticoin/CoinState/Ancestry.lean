import Skepticoin.CoinState.ActiveChain

namespace Skepticoin

open Guard FMap Tree

variable {crypto : Crypto} {coinstate : CoinState}

-- The block some steps back along previous_block_hash.
def CoinState.ancestor (coinstate : CoinState) : Nat → Block → Option Block
  | 0, block => some block
  | n + 1, block => do
    let previous ← coinstate.block_by_hash.lookup block.previous_block_hash
    ancestor coinstate n previous

-- Every known block is later than the known block that it names.
def TimestampsIncrease (coinstate : CoinState) : Prop :=
  ∀ h block previous, coinstate.block_by_hash.lookup h = some block →
    coinstate.block_by_hash.lookup block.previous_block_hash = some previous →
    previous.timestamp < block.timestamp

section ChainOf

variable {top : Block} {index : Map Nat Block}

-- The block named by one of the chain is the one below it.
theorem ChainOf.previous (h : ChainOf crypto coinstate top index) {i : Nat} {previous block : Block}
    (hprevious : index.lookup i = some previous) (hblock : index.lookup (i + 1) = some block) :
    coinstate.block_by_hash.lookup block.previous_block_hash = some previous := by
  obtain ⟨_, hash, hhash, hstored⟩ := h.known i previous hprevious
  have hlinked := h.linked i previous block hprevious hblock
  rwa [Except.ok.inj (hhash.symm.trans hlinked)] at hstored

theorem ChainOf.exists_at (h : ChainOf crypto coinstate top index) {i : Nat} (hi : i ≤ top.height) :
    ∃ block, index.lookup i = some block :=
  Finmap.mem_iff.mp ((h.heights i).mpr hi)

-- Looking up a height is walking back to it, from any block of the chain.
theorem ChainOf.ancestor_from (h : ChainOf crypto coinstate top index) {i n : Nat} {low block : Block}
    (hlow : index.lookup i = some low) (hblock : index.lookup (i + n) = some block) :
    coinstate.ancestor n block = some low := by
  induction n generalizing block with
  | zero => exact hblock.symm.trans hlow
  | succ n ih =>
      have hheight := (h.heights (i + (n + 1))).mp (Finmap.mem_of_lookup_eq_some hblock)
      obtain ⟨previous, hprevious⟩ := h.exists_at (show i + n ≤ top.height by omega)
      rw [CoinState.ancestor, h.previous hprevious hblock]
      exact ih hprevious

theorem ChainOf.ancestor (h : ChainOf crypto coinstate top index) {i : Nat} {low : Block}
    (hlow : index.lookup i = some low) : coinstate.ancestor (top.height - i) top = some low := by
  have hle := (h.heights i).mp (Finmap.mem_of_lookup_eq_some hlow)
  apply h.ancestor_from hlow
  rw [Nat.add_sub_cancel' hle]
  exact h.top

-- And whatever a walk back comes to is in the index, at its own height.
theorem ChainOf.mem_of_ancestor (h : ChainOf crypto coinstate top index) {n i : Nat} {block low : Block}
    (hblock : index.lookup i = some block) (hlow : coinstate.ancestor n block = some low) :
    index.lookup low.height = some low := by
  induction n generalizing i block with
  | zero =>
      obtain ⟨hheight, _⟩ := h.known i block hblock
      rw [← Option.some.inj hlow, hheight, hblock]
  | succ n ih =>
      rw [CoinState.ancestor, Option.bind_eq_bind, Option.bind_eq_some_iff] at hlow
      obtain ⟨previous, hprevious, hrest⟩ := hlow
      exact ih (h.closed i block previous hblock hprevious) hrest

-- Each step up adds at least a second.
theorem ChainOf.timestamp_add_le (h : ChainOf crypto coinstate top index) (htime : TimestampsIncrease coinstate)
    {i n : Nat} {low block : Block} (hlow : index.lookup i = some low) (hblock : index.lookup (i + n) = some block) :
    low.timestamp + n ≤ block.timestamp := by
  induction n generalizing block with
  | zero =>
      have hsame : block = low := Option.some.inj (hblock.symm.trans hlow)
      rw [hsame, Nat.add_zero]
  | succ n ih =>
      have hheight := (h.heights (i + (n + 1))).mp (Finmap.mem_of_lookup_eq_some hblock)
      obtain ⟨previous, hprevious⟩ := h.exists_at (show i + n ≤ top.height by omega)
      obtain ⟨_, hash, _, hstored⟩ := h.known _ block hblock
      have hlater := htime hash block previous hstored (h.previous hprevious hblock)
      have hle := ih hprevious
      omega

end ChainOf

-- The tower of any height, whose blocks come a second after one another.
section Tower

variable {n : Nat}

theorem tower_lookup (hn : n + 1 < 256 ^ 32) {h : Hash} {block : Block} :
    (towerCoinstate n).block_by_hash.lookup h = some block ↔ ∃ i ≤ n, h = .ofNat 32 (i + 1) ∧ block = towerBlock i := by
  rw [(tower_grown hn).represents.known, mem_towerEntries]

theorem tower_consistent (hn : n + 1 < 256 ^ 32) : Consistent .residue (towerCoinstate n) where
  indexed := tower_indexed hn
  hashed h block hlookup := by
    obtain ⟨i, _, rfl, rfl⟩ := (tower_lookup hn).mp hlookup
    rfl
  current := ⟨.ofNat 32 (n + 1), Finmap.mem_of_lookup_eq_some ((tower_lookup hn).mpr ⟨n, Nat.le_refl _, rfl, rfl⟩),
    tower_current hn⟩

theorem tower_increases (hn : n + 1 < 256 ^ 32) : TimestampsIncrease (towerCoinstate n) := by
  intro h block previous hblock hprevious
  obtain ⟨i, hi, rfl, rfl⟩ := (tower_lookup hn).mp hblock
  obtain ⟨j, hj, hname, rfl⟩ := (tower_lookup hn).mp hprevious
  have heq : i = j + 1 := FixedBytes.ofNat_inj (by omega) (by omega) hname
  show j < i
  omega

theorem tower_ancestor (hn : n + 1 < 256 ^ 32) {i : Nat} (hi : i ≤ n) :
    (towerCoinstate n).ancestor (n - i) (towerBlock n) = some (towerBlock i) := by
  have htop := (tower_lookup hn).mpr ⟨n, Nat.le_refl _, rfl, rfl⟩
  obtain ⟨index, _, hchain⟩ := (tower_consistent hn).chain htop
  obtain ⟨block, hblock⟩ := hchain.exists_at (show i ≤ (towerBlock n).height from hi)
  obtain ⟨hheight, h, _, hstored⟩ := hchain.known i block hblock
  obtain ⟨j, _, _, rfl⟩ := (tower_lookup hn).mp hstored
  have hsame : j = i := hheight
  rw [hsame] at hblock
  exact hchain.ancestor hblock

end Tower

end Skepticoin
