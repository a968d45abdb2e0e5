import Skepticoin.Wallet.Minted
import Skepticoin.Wallet.Signing

namespace Skepticoin

open Guard FMap Effect

variable {crypto : Crypto} {sign : Signer} {spend : Spend} {m : UnspentTransactionOuts} {turns : Nat}
  {coinstate : CoinState} {wallet after : Wallet}

section Spending

variable {balances : Balances}

-- The references that a wallet may spend, in the order in which it does.
abbrev spendable (balances : Balances) (wallet : Wallet) : List OutputReference :=
  candidates wallet (listed_references (.ok balances) wallet.public_keys).1

theorem spendable_owned (h : Matches m balances) {reference : OutputReference}
    (hmem : reference ∈ spendable balances wallet) :
    ∃ output, m.lookup reference = some output ∧ output.public_key.public_key.1 ∈ wallet.public_keys ∧
      reference ∉ wallet.spent_transaction_outputs := by
  obtain ⟨hlisted, hfresh⟩ := List.mem_filter.mp hmem
  obtain ⟨output, hlookup, hkey⟩ := listed_owned h hlisted
  exact ⟨output, hlookup, hkey, by simpa using hfresh⟩

theorem create_spend_run (h : Wallet.BalancesMatch crypto coinstate turns m balances)
    (honce : wallet.public_keys.Nodup) (hneeded : 0 < spend.needed) :
    create_spend_transaction sign crypto turns coinstate spend wallet =
      match Greedy.take (worth m) spend.needed (spendable balances wallet) with
      | some taken =>
        (sign_transaction sign wallet m (spend.transaction (Collected.addAll ⟨0, []⟩ m taken)),
          wallet.reserveAll taken)
      | none =>
        (.error (listed_references (.ok balances) wallet.public_keys).2,
          wallet.reserveAll (spendable balances wallet)) := by
  have hhead : coinstate.public_key_balances_at_head crypto turns = .ok balances := by
    have hunspent := h.unspent
    unfold CoinState.unspent_transaction_outs_at_head at hunspent
    unfold CoinState.public_key_balances_at_head
    cases hcurrent : coinstate.current_chain_hash with
    | none =>
        rw [hcurrent] at hunspent
        cases hunspent
    | some current => exact h.computed
  have hknown : ∀ reference ∈ (listed_references (.ok balances) wallet.public_keys).1, reference ∈ m := by
    intro reference hmem
    obtain ⟨output, hlookup, _⟩ := listed_owned h.matching hmem
    exact Finmap.mem_of_lookup_eq_some hlookup
  have hloop :
      spend_references sign spend m ⟨0, []⟩ (listed_references (.ok balances) wallet.public_keys).1 wallet = _ :=
    spend_references_greedy (nodup_listed h.matching honce) hknown ⟨0, []⟩ wallet hneeded
  have hfilter : ((listed_references (.ok balances) wallet.public_keys).1.filter fun reference =>
      reference ∉ wallet.spent_transaction_outputs) = spendable balances wallet := rfl
  rw [create_spend_transaction, h.unspent, bind_run_ok (raw_run _ _), bind_run_ok (read_run wallet), spend_keys_run,
    hhead, hloop, Nat.sub_zero, hfilter]
  cases Greedy.take (worth m) spend.needed (spendable balances wallet) with
  | none => rfl
  | some taken =>
      simp only []
      cases sign_transaction sign wallet m (spend.transaction (Collected.addAll ⟨0, []⟩ m taken)) <;> rfl

-- What a spend has to be: different outputs that the wallet owns and has not
-- spent, no more of them than it takes, and a payment that the network accepts.
structure Pays (crypto : Crypto) (coinstate : CoinState) (m : UnspentTransactionOuts) (balances : Balances)
    (before after : Wallet) (spend : Spend) (transaction : Transaction) : Prop where
  distinct : (output_references transaction).Nodup
  owned : ∀ reference ∈ output_references transaction, ∃ output, m.lookup reference = some output ∧
    output.public_key.public_key.1 ∈ before.public_keys ∧ reference ∉ before.spent_transaction_outputs
  reserved : ∀ reference ∈ output_references transaction, reference ∈ after.spent_transaction_outputs
  payment : transaction.outputs = [⟨spend.value, spend.output_public_key⟩] ∨ ∃ change, 0 < change ∧
    transaction.outputs = [⟨spend.value, spend.output_public_key⟩, ⟨change, spend.change_address⟩]
  fee : ((output_references transaction).map (worth m)).sum = (output_values transaction).sum + spend.miners_fee
  shortest : output_references transaction <+: spendable balances before ∧
    ((output_references transaction).dropLast.map (worth m)).sum < spend.needed
  valid : ∀ h, coinstate.current_chain_hash = some h →
    validate_non_coinbase_transaction_in_coinstate crypto transaction h coinstate = .ok ()

theorem spend_outputs_cases (spend : Spend) {collected_value : Nat} (henough : spend.needed ≤ collected_value) :
    spend.outputs collected_value = [⟨spend.value, spend.output_public_key⟩] ∧ collected_value = spend.needed ∨
      ∃ change, 0 < change ∧ collected_value = spend.needed + change ∧
        spend.outputs collected_value =
          [⟨spend.value, spend.output_public_key⟩, ⟨change, spend.change_address⟩] := by
  unfold Spend.outputs
  by_cases hexact : collected_value = spend.needed
  · exact .inl ⟨if_neg (not_not.mpr hexact), hexact⟩
  · exact .inr ⟨collected_value - spend.needed, by omega, by omega, if_pos hexact⟩

theorem addAll_references (taken : List OutputReference) :
    output_references (spend.transaction (Collected.addAll ⟨0, []⟩ m taken)) = taken := by
  simp [output_references, Spend.transaction, Collected.addAll, Function.comp_def]

theorem addAll_value (taken : List OutputReference) :
    (Collected.addAll ⟨0, []⟩ m taken).collected_value = (taken.map (worth m)).sum := Nat.zero_add _

-- What the greedy choice comes to.
theorem taken_pays (h : Wallet.BalancesMatch crypto coinstate turns m balances) (hkeys : KeysMatch crypto sign wallet)
    (hneeded : 0 < spend.needed) {taken : List OutputReference} {transaction : Transaction}
    (htake : Greedy.take (worth m) spend.needed (spendable balances wallet) = some taken)
    (hsign : sign_transaction sign wallet m (spend.transaction (Collected.addAll ⟨0, []⟩ m taken)) =
      .ok transaction) :
    Pays crypto coinstate m balances wallet (wallet.reserveAll taken) spend transaction := by
  have hreferences := (signed_output_references hsign).1
  rw [addAll_references] at hreferences
  have houtputs : transaction.outputs = spend.outputs (taken.map (worth m)).sum := by
    rw [(signed_output_references hsign).2, Spend.transaction, addAll_value]
  have hinitial := Greedy.take_initial htake
  have hnodup : (spendable balances wallet).Nodup := (nodup_listed h.matching hkeys.once).filter _
  have hfee : (taken.map (worth m)).sum = (output_values transaction).sum + spend.miners_fee := by
    rw [output_values, houtputs]
    cases spend_outputs_cases spend (Greedy.take_enough htake) with
    | inl hexact =>
        rw [hexact.1, hexact.2, Spend.needed]
        rfl
    | inr hmore =>
        obtain ⟨change, _, hsum, hmore⟩ := hmore
        rw [hmore, hsum, Spend.needed]
        simp only [List.map_cons, List.map_nil, List.sum_cons, List.sum_nil]
        omega
  constructor
  · rw [hreferences]
    exact hnodup.sublist hinitial.sublist
  · rw [hreferences]
    exact fun reference hmem => spendable_owned h.matching (hinitial.subset hmem)
  · rw [hreferences]
    exact fun reference hmem => Finset.mem_union_right _ (List.mem_toFinset.mpr hmem)
  · rw [houtputs]
    cases spend_outputs_cases spend (Greedy.take_enough htake) with
    | inl hexact => exact .inl hexact.1
    | inr hmore =>
        obtain ⟨change, hpositive, _, hmore⟩ := hmore
        exact .inr ⟨change, hpositive, hmore⟩
  · rw [hreferences, hfee]
  · rw [hreferences]
    exact ⟨hinitial, Greedy.take_shortest hneeded htake⟩
  · intro current hcurrent
    have hunspent := h.unspent
    rw [CoinState.unspent_transaction_outs_at_head, hcurrent] at hunspent
    refine validate_non_coinbase_transaction_in_coinstate_eq_ok.mpr
      ⟨m, _, getItem_eq_ok.mp hunspent, signed_spends hkeys hsign, ?_⟩
    rw [hreferences, hfee]
    omega

-- Where the format can hold every unspent output and the payment, it can hold
-- the change.
theorem spend_outputs_fit {taken : List OutputReference} (hneeded : 0 < spend.needed)
    (htake : Greedy.take (worth m) spend.needed (spendable balances wallet) = some taken)
    (hfits : spend.value < 2 ^ 64)
    (hunspent : ∀ reference output, m.lookup reference = some output → output.value < 2 ^ 64) :
    ∀ output ∈ spend.outputs (taken.map (worth m)).sum, output.Fits := by
  have hlast : ((taken.dropLast ++ [taken.getLast (Greedy.take_ne_nil htake)]).map (worth m)).sum =
      (taken.map (worth m)).sum := by
    rw [List.dropLast_append_getLast]
  have hless : worth m (taken.getLast (Greedy.take_ne_nil htake)) < 2 ^ 64 := by
    unfold worth measureAt
    cases hlookup : m.lookup (taken.getLast (Greedy.take_ne_nil htake)) with
    | none => exact Nat.two_pow_pos 64
    | some output => exact hunspent _ output hlookup
  have hshort := Greedy.take_shortest hneeded htake
  rw [List.map_append, List.sum_append, List.map_singleton, List.sum_singleton] at hlast
  intro output houtput
  cases spend_outputs_cases spend (Greedy.take_enough htake) with
  | inl hexact =>
      rw [hexact.1] at houtput
      rw [List.mem_singleton.mp houtput]
      exact hfits
  | inr hmore =>
      obtain ⟨change, _, hsum, hmore⟩ := hmore
      rw [hmore] at houtput
      cases List.mem_cons.mp houtput with
      | inl hpayment => exact hpayment ▸ hfits
      | inr hchange =>
          rw [List.mem_singleton.mp hchange]
          show change < 2 ^ 64
          omega

-- What a spend that succeeds has taken and signed.
theorem spend_eq_ok (h : Wallet.BalancesMatch crypto coinstate turns m balances)
    (honce : wallet.public_keys.Nodup) (hneeded : 0 < spend.needed) {transaction : Transaction} :
    create_spend_transaction sign crypto turns coinstate spend wallet = (.ok transaction, after) ↔
      ∃ taken, Greedy.take (worth m) spend.needed (spendable balances wallet) = some taken ∧
        sign_transaction sign wallet m (spend.transaction (Collected.addAll ⟨0, []⟩ m taken)) = .ok transaction ∧
        wallet.reserveAll taken = after := by
  rw [create_spend_run h honce hneeded]
  cases Greedy.take (worth m) spend.needed (spendable balances wallet) with
  | none => simp
  | some taken => simp [Prod.ext_iff]

-- A spend succeeds just when the wallet has enough.
theorem spend_succeeds_iff (h : Wallet.BalancesMatch crypto coinstate turns m balances)
    (hkeys : KeysMatch crypto sign wallet) (hneeded : 0 < spend.needed) (hfits : spend.value < 2 ^ 64)
    (hunspent : ∀ reference output, m.lookup reference = some output → output.value < 2 ^ 64) :
    (∃ transaction after, create_spend_transaction sign crypto turns coinstate spend wallet =
        (.ok transaction, after)) ↔
      spend.needed ≤ totalOutside (Wallet.paidToAny wallet.public_keys) wallet.spent_transaction_outputs m := by
  rw [← worth_candidates h.matching hkeys.once hkeys.width, ← Greedy.exists_take hneeded]
  constructor
  · intro hsuccess
    obtain ⟨_, _, hsuccess⟩ := hsuccess
    obtain ⟨taken, htake, _⟩ := (spend_eq_ok h hkeys.once hneeded).mp hsuccess
    exact ⟨taken, htake⟩
  · intro henough
    obtain ⟨taken, htake⟩ := henough
    have howned : ∀ reference ∈ output_references (spend.transaction (Collected.addAll ⟨0, []⟩ m taken)),
        ∃ output, m.lookup reference = some output ∧
          output.public_key.public_key.1 ∈ wallet.public_keys := by
      rw [addAll_references]
      intro reference hmem
      obtain ⟨output, hlookup, hkey, _⟩ :=
        spendable_owned h.matching ((Greedy.take_initial htake).subset hmem)
      exact ⟨output, hlookup, hkey⟩
    obtain ⟨transaction, hsign⟩ := sign_transaction_ok hkeys howned (by
      rw [Spend.transaction, addAll_value]
      exact spend_outputs_fit hneeded htake hfits hunspent)
    exact ⟨transaction, wallet.reserveAll taken,
      (spend_eq_ok h hkeys.once hneeded).mpr ⟨taken, htake, hsign, rfl⟩⟩

-- A spend succeeds just when the wallet has enough, and does what was asked.
theorem spend_pays (h : Wallet.BalancesMatch crypto coinstate turns m balances) (hkeys : KeysMatch crypto sign wallet)
    (hvalue : 1 ≤ spend.value) (hfits : spend.value < 2 ^ 64)
    (hunspent : ∀ reference output, m.lookup reference = some output → output.value < 2 ^ 64) :
    ((∃ transaction after, create_spend_transaction sign crypto turns coinstate spend wallet =
        (.ok transaction, after)) ↔
      spend.needed ≤ totalOutside (Wallet.paidToAny wallet.public_keys) wallet.spent_transaction_outputs m) ∧
    ∀ transaction after, create_spend_transaction sign crypto turns coinstate spend wallet = (.ok transaction, after) →
      Pays crypto coinstate m balances wallet after spend transaction := by
  have hneeded : 0 < spend.needed := Nat.lt_of_lt_of_le hvalue (Nat.le_add_right _ _)
  refine ⟨spend_succeeds_iff h hkeys hneeded hfits hunspent, ?_⟩
  intro transaction after hsuccess
  obtain ⟨taken, htake, hsign, rfl⟩ := (spend_eq_ok h hkeys.once hneeded).mp hsuccess
  exact taken_pays h hkeys hneeded htake hsign

theorem spend_pays_sample :
    ∃ m balances transaction after,
      create_spend_transaction sample_sign .residue 1 small_coinstate ⟨500, 50, sample_key, sample_key⟩
        Wallet.sample_wallet = (.ok transaction, after) ∧
      Pays .residue small_coinstate m balances Wallet.sample_wallet after ⟨500, 50, sample_key, sample_key⟩
        transaction := by
  obtain ⟨m, balances, hmatch, hunspent, htotal, _⟩ := small_matches
  have hfits : (⟨500, 50, sample_key, sample_key⟩ : Spend).value < 2 ^ 64 := by decide
  have hpays := spend_pays hmatch sample_keys_match (by decide) hfits hunspent
  obtain ⟨transaction, after, hsuccess⟩ := hpays.1.mpr (by
    rw [htotal]
    decide)
  exact ⟨m, balances, transaction, after, hsuccess, hpays.2 transaction after hsuccess⟩

theorem unfit_spend_fails (h : Wallet.BalancesMatch crypto coinstate turns m balances)
    (hkeys : KeysMatch crypto sign wallet) (hneeded : 0 < spend.needed)
    (hunfit : ∀ taken, Greedy.take (worth m) spend.needed (spendable balances wallet) = some taken →
      ∃ output ∈ spend.outputs (taken.map (worth m)).sum, ¬output.Fits) :
    ¬∃ transaction after, create_spend_transaction sign crypto turns coinstate spend wallet =
      (.ok transaction, after) := by
  intro hsuccess
  obtain ⟨transaction, after, hsuccess⟩ := hsuccess
  obtain ⟨taken, htake, hsign, _⟩ := (spend_eq_ok h hkeys.once hneeded).mp hsuccess
  obtain ⟨output, houtput, hnot⟩ := hunfit taken htake
  have hfits := sign_transaction_fits hsign
  rw [Spend.transaction, addAll_value] at hfits
  exact hnot (hfits output houtput)

-- A spend can be larger than the format, in its payment or in its change.
theorem spend_past_format_fails :
    (∃ m balances,
      Wallet.BalancesMatch .residue
        (minted_coinstate .residue (minting [⟨2 ^ 63, sample_key⟩, ⟨2 ^ 63, sample_key⟩] none)) 1 m balances ∧
      KeysMatch .residue sample_sign Wallet.sample_wallet ∧
      (∀ reference output, m.lookup reference = some output → output.value < 2 ^ 64) ∧
      2 ^ 64 ≤ totalOutside (Wallet.paidToAny Wallet.sample_wallet.public_keys)
        Wallet.sample_wallet.spent_transaction_outputs m ∧
      ¬∃ transaction after, create_spend_transaction sample_sign .residue 1
        (minted_coinstate .residue (minting [⟨2 ^ 63, sample_key⟩, ⟨2 ^ 63, sample_key⟩] none))
        ⟨2 ^ 64, 0, sample_key, sample_key⟩ Wallet.sample_wallet = (.ok transaction, after)) ∧
    ∃ m balances,
      Wallet.BalancesMatch .residue
        (minted_coinstate .residue (minting [⟨2 ^ 64 + 1, sample_key⟩] (some zero_hash))) 1 m balances ∧
      KeysMatch .residue sample_sign Wallet.sample_wallet ∧
      1 ≤ totalOutside (Wallet.paidToAny Wallet.sample_wallet.public_keys)
        Wallet.sample_wallet.spent_transaction_outputs m ∧
      ¬∃ transaction after, create_spend_transaction sample_sign .residue 1
        (minted_coinstate .residue (minting [⟨2 ^ 64 + 1, sample_key⟩] (some zero_hash)))
        ⟨1, 0, sample_key, sample_key⟩ Wallet.sample_wallet = (.ok transaction, after) := by
  constructor
  · obtain ⟨hash, hhash⟩ : ∃ hash,
        (minting [⟨2 ^ 63, sample_key⟩, ⟨2 ^ 63, sample_key⟩] none).hash .residue = .ok hash :=
      minting_hash (by simp [Output.Fits])
    obtain ⟨m, balances, hmatch, hadded⟩ := minted_matches hhash (by simp [minting])
    have hadded' : uto_add_outputs _ _ ∅ 0 [⟨2 ^ 63, sample_key⟩, ⟨2 ^ 63, sample_key⟩] = .ok m := hadded
    refine ⟨m, balances, hmatch, sample_keys_match, ?_, ?_, ?_⟩
    · intro reference output hlookup
      have hmem := (uto_add_outputs_from_empty hadded').2 reference output hlookup
      simp only [List.mem_cons, List.not_mem_nil, or_false, or_self] at hmem
      rw [hmem]
      decide
    · rw [sample_total hadded' (by simp)]
      decide
    · have hneeded : 0 < Spend.needed ⟨2 ^ 64, 0, sample_key, sample_key⟩ := Nat.two_pow_pos 64
      apply unfit_spend_fails hmatch sample_keys_match hneeded
      intro taken _
      refine ⟨⟨2 ^ 64, sample_key⟩, ?_, by simp [Output.Fits]⟩
      unfold Spend.outputs
      split <;> exact List.mem_cons_self
  · have hhash : (minting [⟨2 ^ 64 + 1, sample_key⟩] (some zero_hash)).hash .residue = .ok zero_hash := rfl
    obtain ⟨m, balances, hmatch, hadded⟩ := minted_matches hhash (by simp [minting])
    have hadded' : uto_add_outputs _ _ ∅ 0 [⟨2 ^ 64 + 1, sample_key⟩] = .ok m := hadded
    refine ⟨m, balances, hmatch, sample_keys_match, ?_, ?_⟩
    · rw [sample_total hadded' (by simp)]
      decide
    · have hneeded : 0 < Spend.needed ⟨1, 0, sample_key, sample_key⟩ := Nat.one_pos
      apply unfit_spend_fails hmatch sample_keys_match hneeded
      intro taken htake
      have hworth : ∀ reference ∈ taken, worth m reference = 2 ^ 64 + 1 := by
        intro reference hmem
        obtain ⟨output, hlookup, _⟩ :=
          spendable_owned hmatch.matching ((Greedy.take_initial htake).subset hmem)
        have hone := List.mem_singleton.mp ((uto_add_outputs_from_empty hadded').2 reference output hlookup)
        rw [worth, measureAt, hlookup, hone, Option.elim_some]
      -- one output is enough, and what is left of it is too much
      have hsum : 2 ^ 64 + 1 ≤ (taken.map (worth m)).sum := by
        rw [← hworth _ (List.getLast_mem (Greedy.take_ne_nil htake))]
        exact List.single_le_sum (fun _ _ => Nat.zero_le _) _ (List.mem_map_of_mem (List.getLast_mem _))
      have hmore : (taken.map (worth m)).sum ≠ 1 := by omega
      refine ⟨⟨(taken.map (worth m)).sum - 1, sample_key⟩, ?_, ?_⟩
      · rw [Spend.outputs]
        exact (if_pos hmore).symm ▸ List.mem_cons_of_mem _ List.mem_cons_self
      · show ¬(taken.map (worth m)).sum - 1 < 2 ^ 64
        omega

end Spending

end Skepticoin
