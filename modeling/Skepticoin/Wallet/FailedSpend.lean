import Skepticoin.Wallet.Spending

namespace Skepticoin

open Guard FMap Effect

variable {crypto : Crypto} {sign : Signer} {spend : Spend} {m : UnspentTransactionOuts} {turns : Nat}
  {coinstate : CoinState} {wallet after : Wallet}

section Reservations

-- What a turn of the inner loop does to the wallet.
theorem spend_references_cases {reference : OutputReference} {references : List OutputReference} {collected : Collected}
    {result : Py (Transaction ⊕ Collected)}
    (h : spend_references sign spend m collected (reference :: references) wallet = (result, after)) :
    (reference ∈ wallet.spent_transaction_outputs ∧
        spend_references sign spend m collected references wallet = (result, after)) ∨
      reference ∉ wallet.spent_transaction_outputs ∧ (wallet.reserve reference = after ∨ ∃ collected',
        spend_references sign spend m collected' references (wallet.reserve reference) = (result, after)) := by
  rw [spend_references_cons] at h
  by_cases hspent : reference ∈ wallet.spent_transaction_outputs
  · rw [if_pos hspent] at h
    exact .inl ⟨hspent, h⟩
  · rw [if_neg hspent] at h
    refine .inr ⟨hspent, ?_⟩
    cases hlookup : m.lookup reference with
    | none =>
        rw [hlookup] at h
        exact .inl (Prod.mk.inj h).2
    | some output =>
        rw [hlookup] at h
        simp only [] at h
        by_cases henough : spend.needed ≤ (collected.add reference output).collected_value
        · rw [if_pos henough] at h
          exact .inl (Prod.mk.inj h).2
        · rw [if_neg henough] at h
          exact .inr ⟨_, h⟩

-- No turn gives a reservation back, whatever the loop ends with.
theorem spend_references_keeps {references : List OutputReference} {collected : Collected}
    {result : Py (Transaction ⊕ Collected)}
    (h : spend_references sign spend m collected references wallet = (result, after)) :
    wallet.spent_transaction_outputs ⊆ after.spent_transaction_outputs := by
  induction references generalizing collected wallet with
  | nil => rw [(Prod.mk.inj h).2]
  | cons reference references ih =>
      have hreserve : wallet.spent_transaction_outputs ⊆ (wallet.reserve reference).spent_transaction_outputs :=
        Finset.subset_insert _ _
      cases spend_references_cases h with
      | inl hpassed => exact ih hpassed.2
      | inr hreserved =>
          cases hreserved.2 with
          | inl hended => exact hended ▸ hreserve
          | inr hrest =>
              obtain ⟨_, hrest⟩ := hrest
              exact hreserve.trans (ih hrest)

-- However the loop ends, it has reserved the first of the references that were
-- still to be had.
theorem spend_references_reserves {references : List OutputReference} {collected : Collected}
    {result : Py (Transaction ⊕ Collected)}
    (h : spend_references sign spend m collected references wallet = (result, after))
    (hfresh : ∃ reference ∈ references, reference ∉ wallet.spent_transaction_outputs) :
    ∃ reference ∈ after.spent_transaction_outputs, reference ∉ wallet.spent_transaction_outputs := by
  induction references generalizing collected wallet with
  | nil =>
      obtain ⟨_, hnone, _⟩ := hfresh
      cases hnone
  | cons reference references ih =>
      cases spend_references_cases h with
      | inl hpassed =>
          apply ih hpassed.2
          obtain ⟨other, hother, hnot⟩ := hfresh
          cases List.mem_cons.mp hother with
          | inl heq => exact absurd (heq ▸ hpassed.1) hnot
          | inr hmem => exact ⟨other, hmem, hnot⟩
      | inr hreserved =>
          have hself : reference ∈ (wallet.reserve reference).spent_transaction_outputs := Finset.mem_insert_self _ _
          refine ⟨reference, ?_, hreserved.1⟩
          cases hreserved.2 with
          | inl hended => exact hended ▸ hself
          | inr hrest =>
              obtain ⟨_, hrest⟩ := hrest
              exact spend_references_keeps hrest hself

-- Where every reference is reserved already, the loop passes over all of them.
theorem spend_references_passes {references : List OutputReference} (collected : Collected)
    (hspent : ∀ reference ∈ references, reference ∈ wallet.spent_transaction_outputs) :
    spend_references sign spend m collected references wallet = (.ok (.inr collected), wallet) := by
  induction references with
  | nil => rfl
  | cons reference references ih =>
      rw [spend_references_cons, if_pos (hspent reference List.mem_cons_self)]
      exact ih fun other hother => hspent other (List.mem_cons_of_mem _ hother)

end Reservations

-- Nothing that the wallet goes through is left to be reserved.
def NothingToReserve (crypto : Crypto) (coinstate : CoinState) (turns : Nat) (wallet : Wallet) : Prop :=
  ∀ m, coinstate.unspent_transaction_outs_at_head = .ok m →
    ∀ reference ∈ (listed_references (coinstate.public_key_balances_at_head crypto turns) wallet.public_keys).1,
      reference ∈ wallet.spent_transaction_outputs

-- A wallet is as good as another for later spends.
def SpendsAlike (crypto : Crypto) (wallet after : Wallet) : Prop :=
  ∀ sign turns coinstate later,
    (∃ transaction last, create_spend_transaction sign crypto turns coinstate later after = (.ok transaction, last)) ↔
      ∃ transaction last, create_spend_transaction sign crypto turns coinstate later wallet = (.ok transaction, last)

-- A call takes nothing from the wallet just when there is nothing to take.
theorem spend_reserves_nothing_iff {result : Py Transaction}
    (h : create_spend_transaction sign crypto turns coinstate spend wallet = (result, after)) :
    (NothingToReserve crypto coinstate turns wallet → after = wallet) ∧
      (after.spent_transaction_outputs = wallet.spent_transaction_outputs →
        NothingToReserve crypto coinstate turns wallet) := by
  rw [create_spend_transaction] at h
  cases hunspent : coinstate.unspent_transaction_outs_at_head with
  | error raised =>
      rw [hunspent, bind_run_error (raw_run _ _)] at h
      refine ⟨fun _ => (Prod.mk.inj h).2.symm, ?_⟩
      intro _ m hm
      rw [hunspent] at hm
      cases hm
  | ok m =>
      rw [hunspent, bind_run_ok (raw_run _ _), bind_run_ok (read_run wallet), spend_keys_run] at h
      constructor
      · intro hnothing
        rw [spend_references_passes ⟨0, []⟩ (hnothing m hunspent)] at h
        exact (Prod.mk.inj h).2.symm
      · intro hsame m' _ reference hmem
        by_contra hfresh
        cases hloop : spend_references sign spend m ⟨0, []⟩
            (listed_references (coinstate.public_key_balances_at_head crypto turns) wallet.public_keys).1 wallet with
        | mk ended last =>
            have hlast : last = after := by
              rw [hloop] at h
              cases ended with
              | error e => exact (Prod.mk.inj h).2
              | ok ended => cases ended with
                | inl transaction => exact (Prod.mk.inj h).2
                | inr collected => exact (Prod.mk.inj h).2
            obtain ⟨taken, htaken, hnot⟩ := spend_references_reserves hloop ⟨reference, hmem, hfresh⟩
            rw [hlast, hsame] at htaken
            exact hnot htaken

-- A wallet that has too little reserves all that it has.
theorem insufficient_spend_run {balances : Balances} (h : Wallet.BalancesMatch crypto coinstate turns m balances)
    (honce : wallet.public_keys.Nodup) (hwidth : ∀ public_key ∈ wallet.public_keys, public_key.length = 64)
    (hless : totalOutside (Wallet.paidToAny wallet.public_keys) wallet.spent_transaction_outputs m < spend.needed) :
    create_spend_transaction sign crypto turns coinstate spend wallet =
      (.error (.Exception "Insufficient balance"), wallet.reserveAll (spendable balances wallet)) := by
  have hneeded : 0 < spend.needed := Nat.zero_lt_of_lt hless
  have hnone : Greedy.take (worth m) spend.needed (spendable balances wallet) = none := by
    rw [Option.eq_none_iff_forall_ne_some]
    intro taken htake
    have henough := (Greedy.exists_take hneeded).mp ⟨taken, htake⟩
    rw [worth_candidates h.matching honce hwidth] at henough
    omega
  rw [create_spend_run h honce hneeded, hnone, listed_error hwidth]

theorem spendable_reserved (balances : Balances) (wallet : Wallet) :
    spendable balances (wallet.reserveAll (spendable balances wallet)) = [] := by
  rw [spendable, candidates, List.filter_eq_nil_iff]
  intro reference hmem
  have hlisted : reference ∈ (listed_references (.ok balances) wallet.public_keys).1 := hmem
  by_cases hspent : reference ∈ wallet.spent_transaction_outputs <;>
    simp [Wallet.reserveAll, spendable, candidates, hlisted, hspent]

-- After that, no spend at the same head succeeds.
theorem reserved_spend_run {balances : Balances} (h : Wallet.BalancesMatch crypto coinstate turns m balances)
    (honce : wallet.public_keys.Nodup) (hwidth : ∀ public_key ∈ wallet.public_keys, public_key.length = 64)
    (hneeded : 0 < spend.needed) :
    create_spend_transaction sign crypto turns coinstate spend (wallet.reserveAll (spendable balances wallet)) =
      (.error (.Exception "Insufficient balance"), wallet.reserveAll (spendable balances wallet)) := by
  have honce' : (wallet.reserveAll (spendable balances wallet)).public_keys.Nodup := honce
  have hrun : create_spend_transaction sign crypto turns coinstate spend
      (wallet.reserveAll (spendable balances wallet)) = _ := create_spend_run h honce' hneeded
  have herror : (listed_references (.ok balances) (wallet.reserveAll (spendable balances wallet)).public_keys).2 =
      .Exception "Insufficient balance" := listed_error hwidth
  rw [spendable_reserved, herror] at hrun
  rw [hrun, Greedy.take, Wallet.reserveAll_nil]

-- A spend that fails leaves the wallet as it was just when there was nothing to
-- reserve.
theorem failed_spend_unchanged_iff {e : PyError}
    (h : create_spend_transaction sign crypto turns coinstate spend wallet = (.error e, after)) :
    (after.spent_transaction_outputs = wallet.spent_transaction_outputs ∧ SpendsAlike crypto wallet after) ↔
      NothingToReserve crypto coinstate turns wallet := by
  obtain ⟨hkept, hnothing⟩ := spend_reserves_nothing_iff h
  constructor
  · intro hunchanged
    exact hnothing hunchanged.1
  · intro hall
    rw [hkept hall]
    exact ⟨rfl, fun _ _ _ _ => Iff.rfl⟩

theorem failed_spend_unchanged_sample :
    ∃ wallet, create_spend_transaction sample_sign .residue 1 small_coinstate ⟨1000, 0, sample_key, sample_key⟩ wallet =
        (.error (.Exception "Insufficient balance"), wallet) ∧
      wallet.keypairs = Wallet.sample_wallet.keypairs ∧ NothingToReserve .residue small_coinstate 1 wallet := by
  obtain ⟨m, balances, hmatch, _⟩ := small_matches
  have hneeded : 0 < Spend.needed ⟨1000, 0, sample_key, sample_key⟩ := by decide
  have hfails : create_spend_transaction sample_sign .residue 1 small_coinstate ⟨1000, 0, sample_key, sample_key⟩
      (Wallet.sample_wallet.reserveAll (spendable balances Wallet.sample_wallet)) = _ :=
    reserved_spend_run hmatch sample_keys_match.once sample_keys_match.width hneeded
  exact ⟨_, hfails, rfl, (failed_spend_unchanged_iff hfails).mp ⟨rfl, fun _ _ _ _ => Iff.rfl⟩⟩

-- The outputs that a failed spend has gone through are lost to the next one.
theorem failed_spend_reserves :
    ∃ e after, create_spend_transaction sample_sign .residue 1 small_coinstate ⟨1000, 0, sample_key, sample_key⟩
        Wallet.sample_wallet = (.error e, after) ∧
      after.spent_transaction_outputs ≠ Wallet.sample_wallet.spent_transaction_outputs ∧
      (∃ transaction last, create_spend_transaction sample_sign .residue 1 small_coinstate
        ⟨500, 0, sample_key, sample_key⟩ Wallet.sample_wallet = (.ok transaction, last)) ∧
      ¬∃ transaction last, create_spend_transaction sample_sign .residue 1 small_coinstate
        ⟨500, 0, sample_key, sample_key⟩ after = (.ok transaction, last) := by
  obtain ⟨m, balances, hmatch, hfits, htotal, _⟩ := small_matches
  have hless : totalOutside (Wallet.paidToAny Wallet.sample_wallet.public_keys)
      Wallet.sample_wallet.spent_transaction_outputs m < Spend.needed ⟨1000, 0, sample_key, sample_key⟩ := by
    rw [htotal]
    decide
  have hfails : create_spend_transaction sample_sign .residue 1 small_coinstate ⟨1000, 0, sample_key, sample_key⟩
      Wallet.sample_wallet = _ :=
    insufficient_spend_run hmatch sample_keys_match.once sample_keys_match.width hless
  have hlater : 0 < Spend.needed ⟨500, 0, sample_key, sample_key⟩ := by decide
  have hsucceeds := (spend_succeeds_iff hmatch sample_keys_match hlater (by decide) hfits).mpr (by
    rw [htotal]
    decide)
  have hblocked : create_spend_transaction sample_sign .residue 1 small_coinstate ⟨500, 0, sample_key, sample_key⟩
      (Wallet.sample_wallet.reserveAll (spendable balances Wallet.sample_wallet)) = _ :=
    reserved_spend_run hmatch sample_keys_match.once sample_keys_match.width hlater
  have hnone : ¬∃ transaction last, create_spend_transaction sample_sign .residue 1 small_coinstate
      ⟨500, 0, sample_key, sample_key⟩ (Wallet.sample_wallet.reserveAll (spendable balances Wallet.sample_wallet)) =
        (.ok transaction, last) := by
    intro hsuccess
    obtain ⟨transaction, last, hsuccess⟩ := hsuccess
    rw [hblocked] at hsuccess
    cases hsuccess
  refine ⟨_, _, hfails, ?_, hsucceeds, hnone⟩
  intro hsame
  obtain ⟨hkept, hnothing⟩ := spend_reserves_nothing_iff hfails
  rw [hkept (hnothing hsame)] at hnone
  exact hnone hsucceeds

end Skepticoin
