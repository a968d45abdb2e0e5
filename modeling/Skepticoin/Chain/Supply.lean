import Skepticoin.Chain

namespace Skepticoin

open Guard FMap

variable {crypto : Crypto}

section Apply

-- The measure is the value outside the references that are yet to be spent.
-- Deleting one of them changes nothing, and an output adds at most its own
-- value, also where it overwrites another.

theorem uto_remove_inputs_unreserved (reserved : Finset OutputReference) (inputs : List Input)
    {m m' : UnspentTransactionOuts} (h : uto_remove_inputs m inputs = .ok m') :
    totalOutside Output.value reserved m' =
      totalOutside Output.value ((inputs.map Input.output_reference).toFinset ∪ reserved) m := by
  induction inputs generalizing m with
  | nil =>
      cases h
      simp
  | cons input inputs ih =>
      simp only [uto_remove_inputs, bind_eq_ok, delItem_eq_ok] at h
      obtain ⟨_, ⟨_, rfl⟩, hrest⟩ := h
      rw [ih hrest, totalOutside_erase, List.map_cons, List.toFinset_cons,
        Finset.insert_union]

theorem uto_add_outputs_unreserved (reserved : Finset OutputReference) (transaction : Transaction)
    (i : Nat) (outputs : List Output) {m m' : UnspentTransactionOuts}
    (h : uto_add_outputs crypto transaction m i outputs = .ok m') :
    totalOutside Output.value reserved m' ≤
      totalOutside Output.value reserved m + (outputs.map Output.value).sum := by
  induction outputs generalizing m i with
  | nil =>
      cases h
      simp
  | cons output outputs ih =>
      simp only [uto_add_outputs, bind_eq_ok] at h
      obtain ⟨_, _, reference, _, hrest⟩ := h
      have hinsert := totalOutside_insert_le Output.value reserved reference output m
      have hrest := ih _ hrest
      rw [List.map_cons, List.sum_cons]
      omega

theorem uto_apply_coinbase_unreserved (reserved : Finset OutputReference) {transaction : Transaction}
    {m m' : UnspentTransactionOuts} (h : uto_apply_transaction crypto m transaction true = .ok m') :
    totalOutside Output.value reserved m' ≤
      totalOutside Output.value reserved m + (output_values transaction).sum := by
  simp only [uto_apply_transaction, bind_eq_ok, if_true, Except.ok.injEq, exists_eq_left'] at h
  exact uto_add_outputs_unreserved reserved transaction 0 _ h

theorem uto_apply_transaction_unreserved (reserved : Finset OutputReference) {transaction : Transaction}
    {m m' : UnspentTransactionOuts} (h : uto_apply_transaction crypto m transaction false = .ok m') :
    totalOutside Output.value reserved m' ≤
      totalOutside Output.value ((output_references transaction).toFinset ∪ reserved) m +
        (output_values transaction).sum := by
  simp only [uto_apply_transaction, bind_eq_ok, Bool.false_eq_true, if_false] at h
  obtain ⟨_, hremove, hadd⟩ := h
  have hadded := uto_add_outputs_unreserved reserved transaction 0 _ hadd
  rwa [uto_remove_inputs_unreserved reserved _ hremove] at hadded

theorem uto_apply_transactions_unreserved (reserved : Finset OutputReference)
    (transactions : List Transaction) {m m' : UnspentTransactionOuts}
    (h : uto_apply_transactions crypto m transactions = .ok m') :
    totalOutside Output.value reserved m' ≤
      totalOutside Output.value ((transactions.flatMap output_references).toFinset ∪ reserved) m +
        (transactions.flatMap output_values).sum := by
  induction transactions generalizing m with
  | nil =>
      cases h
      simp
  | cons transaction transactions ih =>
      simp only [uto_apply_transactions, bind_eq_ok] at h
      obtain ⟨_, hfirst, hrest⟩ := h
      have hfirst := uto_apply_transaction_unreserved
        ((transactions.flatMap output_references).toFinset ∪ reserved) hfirst
      have hrest := ih hrest
      rw [List.flatMap_cons, List.flatMap_cons, List.toFinset_append, Finset.union_assoc,
        List.sum_append]
      omega

theorem uto_apply_block_total {block : Block} {coinbase : Transaction} {transactions : List Transaction}
    (hblock : block.transactions = coinbase :: transactions) {m m' : UnspentTransactionOuts}
    (h : uto_apply_block crypto m block = .ok m') :
    total Output.value m' ≤ totalOutside Output.value (transactions.flatMap output_references).toFinset m +
      (output_values coinbase).sum + (transactions.flatMap output_values).sum := by
  simp only [uto_apply_block, hblock, bind_eq_ok] at h
  obtain ⟨_, hcoinbase, hrest⟩ := h
  have hrest := uto_apply_transactions_unreserved ∅ transactions hrest
  rw [totalOutside_nil, Finset.union_empty] at hrest
  have hcoinbase := uto_apply_coinbase_unreserved
    (transactions.flatMap output_references).toFinset hcoinbase
  omega

end Apply

section Fees

theorem input_values_sum {m : UnspentTransactionOuts} {transaction : Transaction} {values : List Nat}
    (h : input_values m transaction = .ok values) :
    values.sum = ((output_references transaction).map (measureAt Output.value m)).sum ∧
      ∀ reference ∈ output_references transaction, reference ∈ m := by
  obtain ⟨inputs, outputs, cached_hash⟩ := transaction
  simp only [input_values, collect_eq_ok, output_references] at h ⊢
  induction h with
  | nil => simp
  | cons h _ ih =>
      simp only [bind_eq_ok, getItem_eq_ok, pure_eq_ok] at h
      obtain ⟨output, hlookup, rfl⟩ := h
      refine ⟨by simp [ih.1, measureAt, hlookup], ?_⟩
      rintro reference href
      rcases List.mem_cons.mp href with rfl | href
      · exact Finmap.mem_of_lookup_eq_some hlookup
      · exact ih.2 _ href

-- The fees are what the inputs of the transactions are worth, less what the
-- transactions pay out.
theorem get_block_fees_eq {m : UnspentTransactionOuts} {transactions : List Transaction} {fees : Int}
    (h : get_block_fees transactions m = .ok fees) :
    fees + (transactions.flatMap output_values).sum =
        ((transactions.flatMap output_references).map (measureAt Output.value m)).sum ∧
      ∀ reference ∈ transactions.flatMap output_references, reference ∈ m := by
  simp only [get_block_fees, bind_eq_ok, pure_eq_ok, collect_eq_ok] at h
  obtain ⟨values, hall, rfl⟩ := h
  induction hall with
  | nil => simp
  | cons h _ ih =>
      simp only [get_transaction_fee, bind_eq_ok, pure_eq_ok] at h
      obtain ⟨ins, hins, rfl⟩ := h
      obtain ⟨hsum, hmem⟩ := input_values_sum hins
      refine ⟨?_, ?_⟩
      · have hrest := ih.1
        simp only [List.flatMap_cons, List.map_append, List.sum_append, List.sum_cons, Nat.cast_add]
        omega
      · intro reference href
        rcases List.mem_append.mp href with href | href
        · exact hmem _ href
        · exact ih.2 _ href

end Fees

section Subsidy

theorem get_block_subsidy_antitone {low high : Nat} (h : low ≤ high) :
    get_block_subsidy high ≤ get_block_subsidy low := by
  have hhalvings : low / SUBSIDY_HALVING_INTERVAL ≤ high / SUBSIDY_HALVING_INTERVAL :=
    Nat.div_le_div_right h
  simp only [get_block_subsidy]
  split_ifs with hh hl hl
  · exact Nat.zero_le _
  · exact Nat.zero_le _
  · omega
  · exact Nat.div_le_div_left (Nat.pow_le_pow_right (by decide) hhalvings) (by positivity)

-- One interval between halvings pays one amount over and over.
theorem sum_subsidy_intervals (n : Nat) :
    ∑ k ∈ Finset.range (SUBSIDY_HALVING_INTERVAL * n), get_block_subsidy k =
      SUBSIDY_HALVING_INTERVAL *
        ∑ j ∈ Finset.range n, get_block_subsidy (SUBSIDY_HALVING_INTERVAL * j) := by
  induction n with
  | zero => simp
  | succ n ih =>
      have hinterval : ∀ k ∈ Finset.range SUBSIDY_HALVING_INTERVAL,
          get_block_subsidy (SUBSIDY_HALVING_INTERVAL * n + k) =
            get_block_subsidy (SUBSIDY_HALVING_INTERVAL * n) := by
        intro k hk
        have hpos : 0 < SUBSIDY_HALVING_INTERVAL := by decide
        rw [Finset.mem_range] at hk
        simp [get_block_subsidy, Nat.mul_add_div hpos, Nat.mul_div_cancel_left n hpos,
          Nat.div_eq_of_lt hk]
      rw [Nat.mul_succ, Finset.sum_range_add, ih, Finset.sum_const_nat hinterval, Finset.card_range,
        Finset.sum_range_succ, Nat.mul_add]

theorem get_block_subsidy_eq_zero {height : Nat} (h : SUBSIDY_HALVING_INTERVAL * 64 ≤ height) :
    get_block_subsidy height = 0 := by
  have hhalvings : 64 ≤ height / SUBSIDY_HALVING_INTERVAL := by
    rw [Nat.le_div_iff_mul_le (by decide), Nat.mul_comm]
    exact h
  simp [get_block_subsidy, hhalvings]

-- After 64 halvings nothing is paid, and the 64 intervals pay MAX_SASHIMI.
theorem sum_subsidy_le (n : Nat) :
    ∑ k ∈ Finset.range n, get_block_subsidy k ≤ MAX_SASHIMI := by
  have hall : ∑ k ∈ Finset.range (SUBSIDY_HALVING_INTERVAL * 64), get_block_subsidy k ≤ MAX_SASHIMI := by
    rw [sum_subsidy_intervals]
    decide +kernel
  rcases Nat.le_total n (SUBSIDY_HALVING_INTERVAL * 64) with hn | hn
  · exact (Finset.sum_le_sum_of_subset (Finset.range_subset_range.mpr hn)).trans hall
  · obtain ⟨extra, rfl⟩ := Nat.exists_eq_add_of_le hn
    have hzero : ∀ k ∈ Finset.range extra, get_block_subsidy (SUBSIDY_HALVING_INTERVAL * 64 + k) = 0 :=
      fun k _ => get_block_subsidy_eq_zero (Nat.le_add_right _ _)
    rw [Finset.sum_range_add, Finset.sum_eq_zero hzero, Nat.add_zero]
    exact hall

end Subsidy

section Chain

-- A first block that pays out no more than its subsidy.
def SubsidizedGenesis (block : Block) : Prop :=
  ∃ coinbase, block.transactions = [coinbase] ∧ (output_values coinbase).sum ≤ get_block_subsidy 0

-- Where the previous hash is zero, the block is validated against one map of
-- unspent outputs and applied to none.
theorem previous_unspent_le {coinstate : CoinState} {block : Block} {m before : UnspentTransactionOuts}
    (reserved : Finset OutputReference)
    (hlookup : coinstate.unspent_transaction_outs_by_hash.lookup block.previous_block_hash = some m)
    (hbefore : coinstate.previous_unspent_transaction_outs block = .ok before) :
    totalOutside Output.value reserved before ≤ totalOutside Output.value reserved m := by
  unfold CoinState.previous_unspent_transaction_outs at hbefore
  split_ifs at hbefore
  · cases hbefore
    simp [totalOutside]
  · rw [getItem_eq_ok, hlookup] at hbefore
    cases hbefore
    exact Nat.le_refl _

-- A block that passes adds at most its subsidy to what was unspent before it.
theorem supply_step {coinstate next : CoinState} {block : Block} {current_timestamp : Nat}
    {m : UnspentTransactionOuts} (hself : validate_block_by_itself crypto block current_timestamp = .ok ())
    (hvalid : validate_block_past_checkpoints crypto block coinstate = .ok ())
    (hlookup : coinstate.unspent_transaction_outs_by_hash.lookup block.previous_block_hash = some m)
    (hadd : coinstate.add_block_no_validation crypto block = .ok next) :
    ∃ hash after, block.hash crypto = .ok hash ∧
      next.unspent_transaction_outs_by_hash.lookup hash = some after ∧
      total Output.value after ≤ total Output.value m + get_block_subsidy block.height := by
  obtain ⟨hash, before, after, hhash, hbefore, hafter, _, hstored⟩ := CoinState.lookup_added hadd
  refine ⟨hash, after, hhash, hstored, ?_⟩
  obtain ⟨_, coinbase, transactions, _, hblock, _, _, _, _, _, _, hnodup, _⟩ :=
    validate_block_by_itself_eq_ok.mp hself
  obtain ⟨_, _, coinbase', _, hblock', hcoinbase, _⟩ := validate_block_past_checkpoints_eq_ok.mp hvalid
  obtain ⟨rfl, rfl⟩ := List.cons.inj (hblock.symm.trans hblock')
  obtain ⟨_, m', fees, hm', hfees, hbound⟩ := validate_coinbase_transaction_in_coinstate_eq_ok.mp hcoinbase
  obtain rfl : m = m' := Option.some.inj (hlookup.symm.trans hm')
  rw [hblock, List.tail_cons] at hfees
  obtain ⟨hfees, hspent⟩ := get_block_fees_eq hfees
  have happly := uto_apply_block_total hblock hafter
  have hprevious := previous_unspent_le (transactions.flatMap output_references).toFinset hlookup hbefore
  have hsplit := totalOutside_add_sum Output.value hnodup hspent
  omega

theorem supply_genesis {coinstate : CoinState} {block : Block} (hprevious : block.previous_block_hash = zero_hash)
    (hgenesis : SubsidizedGenesis block)
    (hadd : CoinState.empty.add_block_no_validation crypto block = .ok coinstate) :
    ∃ hash after, block.hash crypto = .ok hash ∧
      coinstate.unspent_transaction_outs_by_hash.lookup hash = some after ∧
      total Output.value after ≤ get_block_subsidy 0 := by
  obtain ⟨hash, before, after, hhash, hbefore, hafter, _, hstored⟩ := CoinState.lookup_added hadd
  refine ⟨hash, after, hhash, hstored, ?_⟩
  obtain ⟨coinbase, hblock, hbound⟩ := hgenesis
  obtain rfl : ∅ = before := by simpa [CoinState.previous_unspent_transaction_outs, hprevious] using hbefore
  have happly := uto_apply_block_total hblock hafter
  simp only [List.flatMap_nil, List.toFinset_nil, totalOutside_nil, total_empty, List.sum_nil] at happly
  omega

theorem supply_run {blocks : List Block} {block : Block} {coinstate : CoinState}
    (h : Chain crypto SubsidizedGenesis (block :: blocks) coinstate) :
    ∃ hash after, block.hash crypto = .ok hash ∧
      coinstate.unspent_transaction_outs_by_hash.lookup hash = some after ∧
      total Output.value after ≤ ∑ k ∈ Finset.range (blocks.length + 1), get_block_subsidy k := by
  induction blocks generalizing block coinstate with
  | nil =>
      cases h with
      | genesis hprevious hgenesis hadd => simpa using supply_genesis hprevious hgenesis hadd
  | cons parent blocks ih =>
      have hheight := h.length_le_height
      rw [List.length_cons] at hheight ⊢
      cases h with
      | extend _ hchain hparent hself hvalid hadd =>
          obtain ⟨hash, before, hhash, hstored, hbefore⟩ := ih hchain
          obtain rfl : hash = block.previous_block_hash := Except.ok.inj (hhash.symm.trans hparent)
          obtain ⟨hash, after, hhash, hafter, hbound⟩ := supply_step hself hvalid hstored hadd
          refine ⟨hash, after, hhash, hafter, ?_⟩
          have hsubsidy := get_block_subsidy_antitone hheight
          rw [Finset.sum_range_succ]
          omega

-- The supply bound: what is unspent after any chain is at most the sum of the
-- subsidies so far, and that never exceeds MAX_SASHIMI.
theorem supply_bound {blocks : List Block} {block : Block} {coinstate : CoinState}
    (h : Chain crypto SubsidizedGenesis (block :: blocks) coinstate) :
    (∃ hash unspent_transaction_outs, block.hash crypto = .ok hash ∧
      coinstate.unspent_transaction_outs_by_hash.lookup hash = some unspent_transaction_outs ∧
      total Output.value unspent_transaction_outs ≤
        ∑ k ∈ Finset.range (blocks.length + 1), get_block_subsidy k) ∧
    ∀ n, ∑ k ∈ Finset.range (n + 1), get_block_subsidy k ≤ MAX_SASHIMI :=
  ⟨supply_run h, fun n => sum_subsidy_le (n + 1)⟩

theorem supply_bound_sample :
    (∃ hash unspent_transaction_outs, sample_second.hash .residue = .ok hash ∧
      sample_coinstate_second.unspent_transaction_outs_by_hash.lookup hash =
        some unspent_transaction_outs ∧
      total Output.value unspent_transaction_outs ≤ ∑ k ∈ Finset.range 3, get_block_subsidy k) ∧
    ∀ n, ∑ k ∈ Finset.range (n + 1), get_block_subsidy k ≤ MAX_SASHIMI := by
  have hgenesis : SubsidizedGenesis sample_genesis := by
    refine ⟨sample_genesis.transactions.headD genesis_transaction, ?_, ?_⟩
    · decide +kernel
    · decide +kernel
  exact supply_bound (sample_chain hgenesis)

end Chain

end Skepticoin
