import Skepticoin.Consensus.Construction

namespace Skepticoin

open Guard FMap Tree

variable {crypto : Crypto} {coinstate : CoinState}

-- A coinstate with a current head, whose blocks stand under their hashes and
-- are indexed by height.
structure Consistent (crypto : Crypto) (coinstate : CoinState) : Prop where
  indexed : HeightIndexed coinstate
  hashed : ∀ h block, coinstate.block_by_hash.lookup h = some block → block.hash crypto = .ok h
  current : ∃ h ∈ coinstate.block_by_hash, coinstate.current_chain_hash = some h

-- The hash of the block that the current chain has at a height.
def AtHeight (crypto : Crypto) (coinstate : CoinState) (i : Nat) (h : Hash) : Prop :=
  ∃ index block, coinstate.by_height_at_head = .ok index ∧ index.lookup i = some block ∧
    block.hash crypto = .ok h

-- The index of the current head, as a chain: every height up to that of the
-- head holds a known block, which names the one below.
structure ActiveChain (crypto : Crypto) (coinstate : CoinState) (head : Block) (index : Map Nat Block) :
    Prop where
  at_head : coinstate.head = .ok head
  by_height : coinstate.by_height_at_head = .ok index
  heights : ∀ i, i ∈ index ↔ i ≤ head.height
  known : ∀ i block, index.lookup i = some block →
    block.height = i ∧ ∃ h, block.hash crypto = .ok h ∧ coinstate.block_by_hash.lookup h = some block
  linked : ∀ i previous block, index.lookup i = some previous → index.lookup (i + 1) = some block →
    previous.hash crypto = .ok block.previous_block_hash

-- Only its own ancestor is an entry that names itself.
theorem ancestor_of_own_parent {blocks : List (Hash × Block)} {a h : Hash} {block : Block}
    (hunique : ∀ other, (h, other) ∈ blocks → other = block) (hparent : block.parent = some h)
    (ha : Tree.Ancestor Block.parent blocks a h) : a = h := by
  generalize htop : h = top at ha
  induction ha with
  | refl _ => rfl
  | step hmem hp _ ih =>
      subst htop
      rw [hunique _ hmem, hparent] at hp
      have hsame := Option.some.inj hp
      rw [ih hsame, ← hsame]

theorem Consistent.linked (h : Consistent crypto coinstate) {top : Hash} {head : Block}
    {blocks : List (Hash × Block)}
    (hknown : ∀ h block, coinstate.block_by_hash.lookup h = some block ↔ (h, block) ∈ blocks)
    (hindexed : ∀ h block, (h, block) ∈ blocks → ∃ index,
      coinstate.block_by_height_by_hash.lookup h = some index ∧ CoinState.Indexed blocks h block index)
    {index : Map Nat Block} (hindex : CoinState.Indexed blocks top head index) {i : Nat}
    {previous block : Block} (hprevious : index.lookup i = some previous)
    (hblock : index.lookup (i + 1) = some block) :
    previous.hash crypto = .ok block.previous_block_hash := by
  have hunique : ∀ {k b b'}, (k, b) ∈ blocks → (k, b') ∈ blocks → b = b' := by
    intro k b b' hb hb'
    exact Option.some.inj (((hknown k b).mpr hb).symm.trans ((hknown k b').mpr hb'))
  obtain ⟨a, ha, haTop, haHeight⟩ := (hindex.2 (i + 1) block).mp hblock
  obtain ⟨indexA, _, hindexA⟩ := hindexed a block ha
  -- the ancestor one lower, and the parent through which it is one
  have hlow : i ∈ indexA := (hindexA.1 i).mpr (by omega)
  obtain ⟨q, hq⟩ := Finmap.mem_iff.mp hlow
  obtain ⟨b, hb, hba, hqHeight⟩ := (hindexA.2 i q).mp hq
  have hne : b ≠ a := by
    intro heq
    rw [heq] at hb
    rw [hunique hb ha] at hqHeight
    omega
  obtain ⟨p, hp, hbp⟩ : ∃ p, block.parent = some p ∧ Tree.Ancestor Block.parent blocks b p := by
    cases hba with
    | refl _ => exact absurd rfl hne
    | step hmem hp hbp => exact ⟨_, hunique hmem ha ▸ hp, hbp⟩
  obtain ⟨parent, hmem⟩ : ∃ parent, (p, parent) ∈ blocks := by
    cases hbp with
    | refl hmem => exact ⟨_, hmem⟩
    | step hmem _ _ => exact ⟨_, hmem⟩
  obtain ⟨indexP, _, hindexP⟩ := hindexed p parent hmem
  have hpa : Tree.Ancestor Block.parent blocks p a := .step ha hp (.refl hmem)
  have hupper : parent.height ≤ i + 1 := by
    have hin : parent.height ∈ indexA :=
      Finmap.mem_of_lookup_eq_some ((hindexA.2 _ _).mpr ⟨p, hmem, hpa, rfl⟩)
    have hle := (hindexA.1 _).mp hin
    omega
  have hlower : i ≤ parent.height := by
    have hin : i ∈ indexP := Finmap.mem_of_lookup_eq_some ((hindexP.2 i q).mpr ⟨b, hb, hbp, hqHeight⟩)
    exact (hindexP.1 _).mp hin
  have hheight : parent.height = i := by
    by_contra hother
    have htop : parent.height = i + 1 := by omega
    -- a block of the same height would be the block itself
    have hsame : block = parent := by
      have hself := (hindexA.2 (i + 1) block).mpr ⟨a, ha, .refl ha, haHeight⟩
      have hparent := (hindexA.2 (i + 1) parent).mpr ⟨p, hmem, hpa, htop⟩
      exact Option.some.inj (hself.symm.trans hparent)
    have hkey : a = p := by
      have hhash := h.hashed a block ((hknown _ _).mpr ha)
      have hhash' := h.hashed p parent ((hknown _ _).mpr hmem)
      rw [← hsame, hhash] at hhash'
      exact Except.ok.inj hhash'
    rw [← hkey] at hp hbp
    exact hne (ancestor_of_own_parent (fun other hother => hunique hother ha) hp hbp)
  have hlookup := (hindex.2 i parent).mpr ⟨p, hmem, hpa.trans haTop, hheight⟩
  have hsame : parent = previous := Option.some.inj (hlookup.symm.trans hprevious)
  rw [← hsame, h.hashed p parent ((hknown _ _).mpr hmem), (Block.parent_eq_some.mp hp).2]

-- Whatever has grown block by block is consistent.
theorem CoinState.Grown.consistent {blocks : List (Hash × Block)}
    (hgrown : CoinState.Grown crypto blocks coinstate)
    (hroot : ∀ h block, (h, block) ∈ blocks → block.parent = none → block.height = 0)
    (hzero : zero_hash ∉ blocks.map Prod.fst) : Consistent crypto coinstate := by
  have hrep := hgrown.represents
  refine ⟨hgrown.height_indexed hroot hzero, ?_, ?_⟩
  · intro h block hlookup
    exact hrep.hashed h block ((hrep.known h block).mp hlookup)
  · obtain ⟨h, hcurrent, hbest⟩ := hrep.current
    obtain ⟨block, hmem, _⟩ := hbest.mem
    exact ⟨h, Finmap.mem_of_lookup_eq_some ((hrep.known h block).mpr hmem), hcurrent⟩

-- The fork, after its lower branch and with the higher one.
theorem CoinState.fork_first_consistent : Consistent .residue (CoinState.forkCoinstate 2) :=
  fork_first_grown.consistent
    (fun h block hmem => fork_root_height h block (List.mem_of_mem_drop hmem)) (by decide +kernel)

theorem CoinState.fork_consistent : Consistent .residue (CoinState.forkCoinstate 4) :=
  fork_grown.consistent fork_root_height (by decide +kernel)

-- The index of a known block, as a chain: every height up to its own holds a
-- known block, which names the one below. No step back leads out of it.
structure ChainOf (crypto : Crypto) (coinstate : CoinState) (top : Block) (index : Map Nat Block) : Prop where
  heights : ∀ i, i ∈ index ↔ i ≤ top.height
  known : ∀ i block, index.lookup i = some block →
    block.height = i ∧ ∃ h, block.hash crypto = .ok h ∧ coinstate.block_by_hash.lookup h = some block
  linked : ∀ i previous block, index.lookup i = some previous → index.lookup (i + 1) = some block →
    previous.hash crypto = .ok block.previous_block_hash
  closed : ∀ i block previous, index.lookup i = some block →
    coinstate.block_by_hash.lookup block.previous_block_hash = some previous →
    index.lookup previous.height = some previous
  top : index.lookup top.height = some top

theorem Consistent.chain (h : Consistent crypto coinstate) {k : Hash} {top : Block}
    (htop : coinstate.block_by_hash.lookup k = some top) :
    ∃ index, coinstate.block_by_height_by_hash.lookup k = some index ∧ ChainOf crypto coinstate top index := by
  obtain ⟨hzero, blocks, hknown, hindexed⟩ := h.indexed
  have hmem := (hknown k top).mp htop
  obtain ⟨index, hlookup, hindex⟩ := hindexed k top hmem
  refine ⟨index, hlookup, hindex.1, ?_, ?_, ?_, ?_⟩
  · intro i block hblock
    obtain ⟨a, ha, _, hheight⟩ := (hindex.2 i block).mp hblock
    have hstored := (hknown a block).mpr ha
    exact ⟨hheight, a, h.hashed a block hstored, hstored⟩
  · intro i previous block hprevious hblock
    exact h.linked hknown hindexed hindex hprevious hblock
  · intro i block previous hblock hprevious
    obtain ⟨a, ha, hancestor, _⟩ := (hindex.2 i block).mp hblock
    have hne : block.previous_block_hash ≠ zero_hash := fun heq =>
      hzero (heq ▸ Finmap.mem_of_lookup_eq_some hprevious)
    have hparent : block.parent = some block.previous_block_hash := Block.parent_eq_some.mpr ⟨hne, rfl⟩
    have hstored := (hknown _ _).mp hprevious
    exact (hindex.2 _ _).mpr ⟨_, hstored, (Tree.Ancestor.step ha hparent (.refl hstored)).trans hancestor, rfl⟩
  · exact (hindex.2 top.height top).mpr ⟨k, hmem, .refl hmem, rfl⟩

theorem Consistent.active_chain (h : Consistent crypto coinstate) :
    ∃ head index, ActiveChain crypto coinstate head index := by
  obtain ⟨top, hmem, hcurrent⟩ := h.current
  obtain ⟨head, hhead⟩ := Finmap.mem_iff.mp hmem
  obtain ⟨index, hlookup, hchain⟩ := h.chain hhead
  refine ⟨head, index, ?_, ?_, hchain.heights, hchain.known, hchain.linked⟩
  · simp [CoinState.head, hcurrent, hhead]
  · simp [CoinState.by_height_at_head, hcurrent, hlookup]

theorem Consistent.active_chain_of_head (h : Consistent crypto coinstate) {head : Block}
    (hhead : coinstate.head = .ok head) : ∃ index, ActiveChain crypto coinstate head index := by
  obtain ⟨top, index, hchain⟩ := h.active_chain
  rw [Except.ok.inj (hhead.symm.trans hchain.at_head)]
  exact ⟨index, hchain⟩

section ActiveChain

variable {head : Block} {index : Map Nat Block}

theorem ActiveChain.at_height_iff (h : ActiveChain crypto coinstate head index) {i : Nat} {hash : Hash} :
    AtHeight crypto coinstate i hash ↔ ∃ block, index.lookup i = some block ∧ block.hash crypto = .ok hash := by
  constructor
  · intro hat
    obtain ⟨index', block, hindex, hlookup, hhash⟩ := hat
    rw [h.by_height] at hindex
    rw [← Except.ok.inj hindex] at hlookup
    exact ⟨block, hlookup, hhash⟩
  · intro hat
    obtain ⟨block, hlookup, hhash⟩ := hat
    exact ⟨index, block, h.by_height, hlookup, hhash⟩

theorem ActiveChain.exists_at (h : ActiveChain crypto coinstate head index) {i : Nat} (hi : i ≤ head.height) :
    ∃ hash, AtHeight crypto coinstate i hash := by
  obtain ⟨block, hblock⟩ := Finmap.mem_iff.mp ((h.heights i).mpr hi)
  obtain ⟨_, hash, hhash, _⟩ := h.known i block hblock
  exact ⟨hash, h.at_height_iff.mpr ⟨block, hblock, hhash⟩⟩

-- A hash on the current chain is that of a known block of that height.
theorem ActiveChain.known_at (h : ActiveChain crypto coinstate head index) {i : Nat} {hash : Hash}
    (hat : AtHeight crypto coinstate i hash) :
    i ≤ head.height ∧ ∃ block, coinstate.block_by_hash.lookup hash = some block ∧ block.height = i ∧
      index.lookup i = some block := by
  obtain ⟨block, hblock, hhash⟩ := h.at_height_iff.mp hat
  obtain ⟨hheight, hash', hhash', hstored⟩ := h.known i block hblock
  have hsame : hash' = hash := Except.ok.inj (hhash'.symm.trans hhash)
  rw [hsame] at hstored
  exact ⟨(h.heights i).mp (Finmap.mem_of_lookup_eq_some hblock), block, hstored, hheight, hblock⟩

-- So it stands at one height only.
theorem ActiveChain.height_unique (h : ActiveChain crypto coinstate head index) {i j : Nat} {hash : Hash}
    (hi : AtHeight crypto coinstate i hash) (hj : AtHeight crypto coinstate j hash) : i = j := by
  obtain ⟨_, block, hblock, hheight, _⟩ := h.known_at hi
  obtain ⟨_, other, hother, hheight', _⟩ := h.known_at hj
  rw [hblock] at hother
  rw [← hheight, ← hheight', Option.some.inj hother]

-- The block above names the hash just when that hash is on the chain.
theorem ActiveChain.named_iff (h : ActiveChain crypto coinstate head index) {i : Nat} {hash : Hash}
    {next : Block} (hnext : index.lookup (i + 1) = some next) :
    next.previous_block_hash = hash ↔ AtHeight crypto coinstate i hash := by
  have hle := (h.heights (i + 1)).mp (Finmap.mem_of_lookup_eq_some hnext)
  obtain ⟨block, hblock⟩ := Finmap.mem_iff.mp ((h.heights i).mpr (by omega))
  have hlinked := h.linked i block next hblock hnext
  rw [h.at_height_iff]
  constructor
  · intro hname
    exact ⟨block, hblock, hname ▸ hlinked⟩
  · intro hat
    obtain ⟨other, hother, hhash⟩ := hat
    rw [hblock] at hother
    rw [← Option.some.inj hother, hlinked] at hhash
    exact Except.ok.inj hhash

end ActiveChain

end Skepticoin
