import Skepticoin.Chain.DoubleSpend
import Skepticoin.Chain.Supply
import Skepticoin.CoinState.ForkChoice

namespace Skepticoin

open Guard FMap Tree

namespace CoinState

variable {crypto : Crypto}

-- A coinstate grown from the genesis block by valid blocks, in any tree shape:
-- each one new, checked against the coinstate that held its ancestors. The
-- zero hash stands for no block.
inductive Validated (crypto : Crypto) : List (Hash × Block) → CoinState → Prop
  | genesis {h : Hash} {coinstate : CoinState} :
    (genesis_block crypto).hash crypto = .ok h → h ≠ zero_hash → zero crypto = .ok coinstate →
    Validated crypto [(h, genesis_block crypto)] coinstate
  | add {blocks : List (Hash × Block)} {h : Hash} {block : Block} {coinstate next : CoinState}
      (current_timestamp : Nat) :
    Validated crypto blocks coinstate → block.hash crypto = .ok h → h ≠ zero_hash →
    h ∉ blocks.map Prod.fst → validate_block_by_itself crypto block current_timestamp = .ok () →
    validate_block_past_checkpoints crypto block coinstate = .ok () →
    coinstate.add_block_no_validation crypto block = .ok next →
    Validated crypto ((h, block) :: blocks) next

variable {blocks : List (Hash × Block)} {coinstate : CoinState}

theorem Validated.ne_zero (h : Validated crypto blocks coinstate) : zero_hash ∉ blocks.map Prod.fst := by
  induction h with
  | genesis _ hne _ =>
      intro hmem
      exact hne (List.mem_singleton.mp hmem).symm
  | add _ _ _ hne _ _ _ _ ih =>
      intro hmem
      rw [List.map_cons, List.mem_cons] at hmem
      cases hmem with
      | inl hnew => exact hne hnew.symm
      | inr hold => exact ih hold

-- A block that passes names a known block one lower.
theorem parent_of_validate {block : Block} (hrep : Represents crypto blocks coinstate)
    (hzero : zero_hash ∉ blocks.map Prod.fst)
    (hvalid : validate_block_past_checkpoints crypto block coinstate = .ok ()) :
    ∃ previous, block.parent = some block.previous_block_hash ∧
      (block.previous_block_hash, previous) ∈ blocks ∧ block.height = previous.height + 1 := by
  obtain ⟨_, _, _, _, _, hcoinbase, _⟩ := validate_block_past_checkpoints_eq_ok.mp hvalid
  obtain ⟨⟨previous, hprevious, hheight⟩, _⟩ :=
    validate_coinbase_transaction_in_coinstate_eq_ok.mp hcoinbase
  have hmem := (hrep.known _ _).mp hprevious
  have hne : block.previous_block_hash ≠ zero_hash := fun heq => hzero (heq ▸ mem_keys_of_mem hmem)
  exact ⟨previous, Block.parent_eq_some.mpr ⟨hne, rfl⟩, hmem, hheight⟩

theorem genesis_parent : (genesis_block crypto).parent = none := rfl

theorem Validated.grown (h : Validated crypto blocks coinstate) : Grown crypto blocks coinstate := by
  induction h with
  | genesis hhash _ hzero =>
      rw [zero_eq] at hzero
      exact .root genesis_parent hhash hzero
  | add _ hold hhash _ hfresh _ hvalid hadd ih =>
      obtain ⟨previous, hparent, hmem, hheight⟩ := parent_of_validate ih.represents hold.ne_zero hvalid
      exact .add ih hhash hfresh hparent hmem hheight hadd

-- What is unspent was created by some block, and is no more than the
-- subsidies up to there.
structure Backed (crypto : Crypto) (blocks : List (Hash × Block)) (coinstate : CoinState) : Prop where
  created : ∀ h m, coinstate.unspent_transaction_outs_by_hash.lookup h = some m →
    ∀ reference ∈ m, Created crypto (blocks.map Prod.snd) reference
  total : ∀ h block m, (h, block) ∈ blocks →
    coinstate.unspent_transaction_outs_by_hash.lookup h = some m →
    total Output.value m ≤ ∑ k ∈ Finset.range (block.height + 1), get_block_subsidy k

theorem Backed.add {block : Block} {h : Hash} {next : CoinState} {current_timestamp : Nat}
    (hbacked : Backed crypto blocks coinstate) (hrep : Represents crypto blocks coinstate)
    (hzero : zero_hash ∉ blocks.map Prod.fst) (hhash : block.hash crypto = .ok h)
    (hfresh : h ∉ blocks.map Prod.fst)
    (hself : validate_block_by_itself crypto block current_timestamp = .ok ())
    (hvalid : validate_block_past_checkpoints crypto block coinstate = .ok ())
    (hadd : coinstate.add_block_no_validation crypto block = .ok next) :
    Backed crypto ((h, block) :: blocks) next := by
  obtain ⟨previous, _, hmem, hheight⟩ := parent_of_validate hrep hzero hvalid
  obtain ⟨m, hm⟩ := Finmap.mem_iff.mp ((hrep.unspent.dom _).mpr (mem_keys_of_mem hmem))
  obtain ⟨before, after, hbefore, happly, _, hmap⟩ := maps_of_add hhash hadd
  obtain ⟨hash, after', hhash', hafter, hbound⟩ := supply_step hself hvalid hm hadd
  have hkey : hash = h := Except.ok.inj (hhash'.symm.trans hhash)
  rw [hkey, hmap, Finmap.lookup_insert] at hafter
  have hsame : after = after' := Option.some.inj hafter
  rw [← hsame] at hbound
  constructor
  · intro k m' hlookup reference href
    rw [hmap] at hlookup
    cases lookup_insert_eq_some.mp hlookup with
    | inl hnew =>
        rw [← hnew.2] at href
        cases uto_apply_block_mem happly href with
        | inl hcreated =>
            obtain ⟨transaction, hin, hcreates⟩ := hcreated
            exact ⟨transaction, List.mem_append_left _ hin, hcreates⟩
        | inr hkept =>
            have hold := hbacked.created _ m hm reference (previous_unspent_mem hm hbefore reference hkept.1)
            exact hold.append [block]
    | inr hold => exact (hbacked.created k m' hold.2 reference href).append [block]
  · intro k b m' hb hlookup
    rw [hmap] at hlookup
    cases lookup_insert_eq_some.mp hlookup with
    | inl hnew =>
        have hblock : b = block := by
          cases List.mem_cons.mp hb with
          | inl hentry => exact (Prod.mk.inj hentry).2
          | inr hold => exact absurd (hnew.1 ▸ mem_keys_of_mem hold) hfresh
        have hprevious := hbacked.total _ previous m hmem hm
        rw [← hnew.2, hblock, Finset.sum_range_succ, hheight]
        rw [hheight] at hbound
        omega
    | inr hkept =>
        have hold : (k, b) ∈ blocks := by
          cases List.mem_cons.mp hb with
          | inl hentry => exact absurd (Prod.mk.inj hentry).1 hkept.1
          | inr hold => exact hold
        exact hbacked.total k b m' hold hkept.2

theorem genesis_backed {h : Hash} (hhash : (genesis_block crypto).hash crypto = .ok h)
    (hzero : zero crypto = .ok coinstate) : Backed crypto [(h, genesis_block crypto)] coinstate := by
  rw [zero_eq] at hzero
  have hsubsidy : SubsidizedGenesis (genesis_block crypto) := by
    have hbound : (output_values genesis_transaction).sum ≤ get_block_subsidy 0 := by decide +kernel
    exact ⟨_, rfl, hbound⟩
  obtain ⟨before, after, hbefore, happly, _, hmap⟩ := maps_of_add hhash hzero
  obtain ⟨hash, after', hhash', hafter, hbound⟩ := supply_genesis rfl hsubsidy hzero
  have hkey : hash = h := Except.ok.inj (hhash'.symm.trans hhash)
  rw [hkey, hmap, Finmap.lookup_insert] at hafter
  have hsame : after = after' := Option.some.inj hafter
  have hentry : ∀ k m, coinstate.unspent_transaction_outs_by_hash.lookup k = some m → m = after := by
    intro k m hlookup
    rw [hmap] at hlookup
    cases lookup_insert_eq_some.mp hlookup with
    | inl hnew => exact hnew.2.symm
    | inr hold => cases hold.2
  have hnone : before = ∅ := (Except.ok.inj hbefore).symm
  constructor
  · intro k m hlookup reference href
    rw [hentry k m hlookup] at href
    cases uto_apply_block_mem happly href with
    | inl hcreated =>
        obtain ⟨transaction, hin, hcreates⟩ := hcreated
        exact ⟨transaction, List.mem_append_left _ hin, hcreates⟩
    | inr hkept =>
        rw [hnone] at hkept
        exact absurd hkept.1 Finmap.notMem_empty
  · intro k b m hb hlookup
    have hblock : b = genesis_block crypto := (Prod.mk.inj (List.mem_singleton.mp hb)).2
    have hheight : (genesis_block crypto).height = 0 := rfl
    rw [hentry k m hlookup, hsame, hblock, hheight]
    simpa using hbound

theorem Validated.backed (h : Validated crypto blocks coinstate) : Backed crypto blocks coinstate := by
  induction h with
  | genesis hhash _ hzero => exact genesis_backed hhash hzero
  | add _ hold hhash _ hfresh hself hvalid hadd ih =>
      exact ih.add hold.grown.represents hold.ne_zero hhash hfresh hself hvalid hadd

end CoinState

end Skepticoin
