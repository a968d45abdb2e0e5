import Skepticoin.CoinState.ActiveChain
import Skepticoin.Networking.Node.Durability

namespace Skepticoin

open Guard FMap Effect

variable {crypto : Crypto} {known : Block → Prop} {coinstate next : CoinState} {block : Block} {hash : Hash}

-- A block stands one higher than whatever block it names, among some that are
-- known.
def OneHigher (crypto : Crypto) (known : Block → Prop) (block : Block) : Prop :=
  ∀ parent, known parent → parent.hash crypto = .ok block.previous_block_hash → block.height = parent.height + 1

-- A coinstate of known blocks that has grown with their heights in order.
structure Leveled (crypto : Crypto) (known : Block → Prop) (coinstate : CoinState) : Prop where
  grown : ∃ entries, CoinState.Grown crypto entries coinstate ∧
    (∀ h block, (h, block) ∈ entries → block.parent = none → block.height = 0) ∧ zero_hash ∉ entries.map Prod.fst
  blocks : ∀ h block, coinstate.block_by_hash.lookup h = some block → known block

theorem Leveled.consistent (h : Leveled crypto known coinstate) : Consistent crypto coinstate := by
  obtain ⟨_, hgrown, hroot, hzero⟩ := h.grown
  exact hgrown.consistent hroot hzero

theorem Leveled.fits (h : Leveled crypto known coinstate)
    (hparent : block.previous_block_hash ∈ coinstate.block_by_hash)
    (hhigher : OneHigher crypto known block) : Fits coinstate block := by
  obtain ⟨parent, hlookup⟩ := Finmap.mem_iff.mp hparent
  exact ⟨parent, hlookup, hhigher parent (h.blocks _ parent hlookup) (h.consistent.hashed _ parent hlookup)⟩

theorem Leveled.add (h : Leveled crypto known coinstate) (hhash : block.hash crypto = .ok hash)
    (hne : hash ≠ zero_hash) (hfresh : hash ∉ coinstate.block_by_hash) (hfits : Fits coinstate block)
    (hknown : known block) (hadd : coinstate.add_block_no_validation crypto block = .ok next) :
    Leveled crypto known next := by
  obtain ⟨entries, hgrown, hroot, hzero⟩ := h.grown
  obtain ⟨parent, hparent, hheight⟩ := hfits
  have hrep := hgrown.represents
  have hmem := (hrep.known _ parent).mp hparent
  have hnamed : block.parent = some block.previous_block_hash :=
    Block.parent_eq_some.mpr ⟨fun heq => hzero (heq ▸ Tree.mem_keys_of_mem hmem), rfl⟩
  have hnot : hash ∉ entries.map Prod.fst := fun hin => hfresh (hrep.mem_known.mpr hin)
  have hnext : CoinState.Grown crypto ((hash, block) :: entries) next :=
    .add hgrown hhash hnot hnamed hmem hheight hadd
  refine ⟨⟨_, hnext, fun k other hother hroot' => ?_, fun hin => ?_⟩, fun k other hother => ?_⟩
  · cases List.mem_cons.mp hother with
    | inl hself =>
        rw [(Prod.mk.inj hself).2, hnamed] at hroot'
        cases hroot'
    | inr hold => exact hroot k other hold hroot'
  · cases List.mem_cons.mp hin with
    | inl hself => exact hne hself.symm
    | inr hold => exact hzero hold
  · cases List.mem_cons.mp ((hnext.represents.known k other).mp hother) with
    | inl hself => exact (Prod.mk.inj hself).2 ▸ hknown
    | inr hold => exact h.blocks k other ((hrep.known k other).mpr hold)

namespace Node

variable {node : Node} {received : Received}

structure OnLevel (crypto : Crypto) (known : Block → Prop) (node : Node) : Prop where
  coinstate : Leveled crypto known node.chain_manager.coinstate
  last : ∀ last, node.chain_manager.last_known_valid_coinstate = some last → Leveled crypto known last

-- A block whose height the node checks itself, or that follows the others.
structure Trustworthy (crypto : Crypto) (known : Block → Prop) (header : MessageHeader) (block : Block) : Prop where
  met : known block
  hash : block.hash crypto ≠ .ok zero_hash
  height : (header.in_response_to = 0 ∨ block.height % IBD_VALIDATION_SKIP = 0) ∧ MAX_KNOWN_HASH_HEIGHT < block.height ∨
    OneHigher crypto known block

theorem Taken.leveled (h : Taken crypto node received hash next) (hlevel : OnLevel crypto known node)
    (htrust : Trustworthy crypto known received.header received.block)
    (hfits : Fits node.chain_manager.coinstate received.block) :
    Leveled crypto known next :=
  hlevel.coinstate.add h.hash (fun heq => htrust.hash (heq ▸ h.hash)) h.unknown hfits htrust.met h.added

theorem Passes.leveled (h : Passes crypto node received hash next) (hlevel : OnLevel crypto known node)
    (htrust : Trustworthy crypto known received.header received.block) : Leveled crypto known next := by
  refine h.toTaken.leveled hlevel htrust ?_
  cases htrust.height with
  | inl hchecked => exact fits_of_validate h.validates hchecked.2
  | inr hhigher => exact hlevel.coinstate.fits h.parent hhigher

theorem Skips.leveled (h : Skips crypto node received hash next) (hlevel : OnLevel crypto known node)
    (htrust : Trustworthy crypto known received.header received.block) : Leveled crypto known next := by
  refine h.toTaken.leveled hlevel htrust ?_
  cases htrust.height with
  | inl hchecked => exact absurd hchecked.1 h.unchecked
  | inr hhigher => exact hlevel.coinstate.fits h.parent hhigher

-- A block that is taken is there afterwards, also where the rest of the handler
-- raises.
theorem Taken.coinstate_after (h : Taken crypto node received hash next)
    (hverdict : ToValidate received →
      validate_block_in_coinstate crypto received.block node.chain_manager.coinstate = .ok ()) :
    (handle_block_received crypto received node).2.chain_manager.coinstate = next := by
  have hcase := handle_block_received_cases crypto node received
  generalize hafter : (handle_block_received crypto received node).2 = after at hcase
  have hfails : ∀ h' other, ¬Fails crypto node received h' other := by
    intro h' other hfails
    obtain ⟨e, he⟩ := hfails.fails
    rw [hverdict hfails.checked] at he
    cases he
  have hsame : ∀ h' other, Taken crypto node received h' other → other = next := by
    intro h' other hother
    have hadded := hother.added
    rw [h.added] at hadded
    exact (Except.ok.inj hadded).symm
  cases hcase with
  | ignored hnone => exact absurd h.toFresh (hnone _)
  | @not_added h' hfresh hnone =>
      have heq : h' = hash := Except.ok.inj (hfresh.hash.symm.trans h.hash)
      exact absurd h (heq ▸ hnone next)
  | rolled_back _ hfailing _ => exact absurd hfailing (hfails _ _)
  | roll_back_raises hfailing _ => exact absurd hfailing (hfails _ _)
  | not_rolled_back hfailing _ => exact absurd hfailing (hfails _ _)
  | passed _ hflushes => exact hsame _ _ hflushes.toTaken
  | pass_raises hpasses _ => exact hsame _ _ hpasses.toTaken
  | skipped _ _ hskips => exact hsame _ _ hskips.toTaken

end Node

section Sample

theorem genesis_grown :
    CoinState.Grown .residue [(BlockStore.residueHash (genesis_block .residue), genesis_block .residue)]
      zeroCoinstate := by
  have hgenesis : (genesis_block .residue).hash .residue = .ok (BlockStore.residueHash (genesis_block .residue)) ∧
      BlockStore.residueHash (genesis_block .residue) ≠ zero_hash := by
    decide +kernel
  exact (CoinState.Validated.genesis hgenesis.1 hgenesis.2 high_runs.1).grown

theorem zero_leveled {known : Block → Prop} (hknown : known (genesis_block .residue)) :
    Leveled .residue known zeroCoinstate := by
  have hkeys : (genesis_block .residue).height = 0 ∧
      zero_hash ≠ BlockStore.residueHash (genesis_block .residue) := by
    decide +kernel
  refine ⟨⟨_, genesis_grown, fun h block hmem _ => ?_, fun hin => ?_⟩, fun h block hlookup => ?_⟩
  · rw [(Prod.mk.inj (List.mem_singleton.mp hmem)).2]
    exact hkeys.1
  · exact hkeys.2 (List.mem_singleton.mp hin)
  · have hmem := (genesis_grown.represents.known h block).mp hlookup
    rw [(Prod.mk.inj (List.mem_singleton.mp hmem)).2]
    exact hknown

theorem genesis_on_level {known : Block → Prop} (hknown : known (genesis_block .residue)) :
    Node.genesisNode.OnLevel .residue known := by
  have hleveled := zero_leveled hknown
  refine ⟨?_, fun last hlast => ?_⟩
  · simp only [Node.genesisNode]
    exact hleveled
  · simp only [Node.genesisNode, Option.some.injEq] at hlast
    exact hlast ▸ hleveled

end Sample

end Skepticoin
