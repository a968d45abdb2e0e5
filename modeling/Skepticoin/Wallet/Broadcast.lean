import Skepticoin.Datatypes.Size
import Skepticoin.Wallet.Spending

namespace Skepticoin

open Guard FMap Effect

variable {crypto : Crypto} {sign : Signer} {spend : Spend} {m : UnspentTransactionOuts} {turns : Nat}
  {coinstate : CoinState} {wallet after : Wallet} {balances : Balances}

section Signed

variable {transaction signed : Transaction}

theorem signed_inputs (h : sign_transaction sign wallet m transaction = .ok signed) :
    ∀ input ∈ signed.inputs, ∃ signature, input.signature = some (.SECP256k1Signature signature) := by
  obtain ⟨_, _, _, hinputs, rfl⟩ := sign_transaction_eq_ok.mp h
  intro input hinput
  obtain ⟨_, _, _, _, signature, _, _, _, hself⟩ := forall₂_mem_left hinputs.flip hinput
  exact ⟨signature, by rw [hself]⟩

-- A signed input is 101 bytes long.
theorem signed_size (h : sign_transaction sign wallet m transaction = .ok signed) :
    signed.size = 1 + (vlq_size transaction.inputs.length + 101 * transaction.inputs.length) +
      (vlq_size transaction.outputs.length + OUTPUT_SIZE * transaction.outputs.length) := by
  obtain ⟨hreferences, houtputs⟩ := signed_output_references h
  have hlength : signed.inputs.length = transaction.inputs.length := by
    have hsame := congrArg List.length hreferences
    rwa [output_references, output_references, List.length_map, List.length_map] at hsame
  have hsize : ∀ input ∈ signed.inputs, input.size = 101 := by
    intro input hinput
    obtain ⟨signature, hsignature⟩ := signed_inputs h input hinput
    rw [Input.size, hsignature]
    rfl
  have hsizes : signed.inputs.map Input.size = List.replicate signed.inputs.length 101 :=
    List.eq_replicate_iff.mpr ⟨List.length_map _, by
      intro size hmem
      obtain ⟨input, hinput, rfl⟩ := List.mem_map.mp hmem
      exact hsize input hinput⟩
  rw [Transaction.size, hsizes, List.sum_replicate, hlength, houtputs, smul_eq_mul, Nat.mul_comm]

theorem signed_serialize_ok (h : sign_transaction sign wallet m transaction = .ok signed) :
    ∃ bytes, signed.serialize = .ok bytes := by
  apply transaction_serialize_ok
  refine ⟨?_, ?_⟩
  · intro input hinput
    obtain ⟨signature, hsignature⟩ := signed_inputs h input hinput
    exact ⟨_, hsignature, trivial⟩
  · rw [(signed_output_references h).2]
    exact sign_transaction_fits h

-- What is signed passes, unless it is too large or spends the reference that
-- coinbases spend.
theorem signed_validates_iff (h : sign_transaction sign wallet m transaction = .ok signed)
    (hinputs : transaction.inputs ≠ []) (honce : (output_references transaction).Nodup)
    (houtputs : transaction.outputs ≠ []) (hpositive : ∀ value ∈ output_values transaction, 0 < value)
    (hsupply : (output_values transaction).sum ≤ MAX_SASHIMI) :
    validate_non_coinbase_transaction_by_itself signed = .ok () ↔
      construct_reference_to_thin_air ∉ output_references transaction ∧ signed.size ≤ MAX_BLOCK_SIZE := by
  obtain ⟨hreferences, hpaid⟩ := signed_output_references h
  have hvalues : output_values signed = output_values transaction := by rw [output_values, hpaid, output_values]
  obtain ⟨bytes, hbytes⟩ := signed_serialize_ok h
  have hlength := transaction_serialize_length hbytes
  rw [validate_non_coinbase_transaction_by_itself_eq_ok, hvalues, hreferences, hpaid, ← hlength]
  constructor
  · intro hvalid
    obtain ⟨_, _, ⟨bytes', hbytes', hsize⟩, _, _, _, hchecked⟩ := hvalid
    rw [← Except.ok.inj (hbytes.symm.trans hbytes')] at hsize
    refine ⟨?_, hsize⟩
    intro hthin
    rw [← hreferences] at hthin
    obtain ⟨input, hinput, hreference⟩ := List.mem_map.mp hthin
    exact (validate_non_coinbase_input_eq_ok.mp (hchecked input hinput)).1 hreference
  · intro hroom
    obtain ⟨hthin, hsize⟩ := hroom
    have hsome : signed.inputs ≠ [] := by
      intro hnil
      rw [output_references, output_references, hnil] at hreferences
      exact hinputs (List.map_eq_nil_iff.mp hreferences.symm)
    have hmost : ∀ value ∈ output_values transaction, value ≤ MAX_SASHIMI :=
      fun value hvalue => (List.single_le_sum (fun _ _ => Nat.zero_le _) value hvalue).trans hsupply
    have hsum : 0 < (output_values transaction).sum := by
      obtain ⟨output, houtput⟩ := List.exists_mem_of_ne_nil _ houtputs
      have hvalue := List.mem_map_of_mem (f := Output.value) houtput
      exact Nat.lt_of_lt_of_le (hpositive _ hvalue) (List.single_le_sum (fun _ _ => Nat.zero_le _) _ hvalue)
    refine ⟨hsome, houtputs, ⟨bytes, hbytes, hsize⟩, fun value hvalue => ⟨hpositive value hvalue, hmost value hvalue⟩,
      ⟨hsum, hsupply⟩, honce, ?_⟩
    intro input hinput
    obtain ⟨signature, hsignature⟩ := signed_inputs h input hinput
    refine validate_non_coinbase_input_eq_ok.mpr ⟨?_, _, hsignature, rfl⟩
    intro hreference
    apply hthin
    rw [← hreferences, ← hreference]
    exact List.mem_map_of_mem hinput

end Signed

-- How many inputs there is room for beside two outputs. Beside one output there
-- is room for one more.
def MOST_INPUTS : Nat := 1978

theorem vlq_size_pos (i : Nat) : 1 ≤ vlq_size i := Nat.le_add_left 1 _

theorem vlq_size_le_two {i : Nat} (h : i < 2 ^ 13) : vlq_size i ≤ 2 := by
  have hbits := (lt_two_pow_iff_bit_length_le i 13).mp h
  rw [vlq_size]
  omega

-- Which numbers of inputs fit.
theorem room_for_inputs (n k : Nat) (hk : k = 1 ∨ k = 2) :
    1 + (vlq_size n + 101 * n) + (vlq_size k + OUTPUT_SIZE * k) ≤ MAX_BLOCK_SIZE ↔ n + k ≤ MOST_INPUTS + 2 := by
  have hone : vlq_size 1 = 1 := by decide
  have htwo : vlq_size 2 = 1 := by decide
  have hpos := vlq_size_pos n
  unfold OUTPUT_SIZE MAX_BLOCK_SIZE MOST_INPUTS FIVE
  constructor
  · intro hsize
    cases hk with
    | inl hk => rw [hk] at hsize ⊢; omega
    | inr hk => rw [hk] at hsize ⊢; omega
  · intro hle
    have hsmall : vlq_size n ≤ 2 := vlq_size_le_two (by omega)
    cases hk with
    | inl hk => rw [hk, hone]; omega
    | inr hk => rw [hk, htwo]; omega

section Broadcast

-- What is paid is no more than what has been collected, and never nothing.
theorem spend_outputs_sound (hvalue : 1 ≤ spend.value) {collected_value : Nat}
    (henough : spend.needed ≤ collected_value) :
    (∀ value ∈ (spend.outputs collected_value).map Output.value, 0 < value) ∧
      ((spend.outputs collected_value).map Output.value).sum ≤ collected_value ∧
      ((spend.outputs collected_value).length = 1 ∧ collected_value = spend.needed ∨
        (spend.outputs collected_value).length = 2 ∧ collected_value ≠ spend.needed) := by
  have hneeded : spend.value ≤ spend.needed := Nat.le_add_right _ _
  cases spend_outputs_cases spend henough with
  | inl hexact =>
      rw [hexact.1]
      refine ⟨?_, ?_, .inl ⟨rfl, hexact.2⟩⟩
      · simpa using Nat.lt_of_lt_of_le Nat.one_pos hvalue
      · simpa using hneeded.trans henough
  | inr hmore =>
      obtain ⟨change, hpositive, hsum, hmore⟩ := hmore
      rw [hmore]
      refine ⟨?_, ?_, .inr ⟨rfl, by omega⟩⟩
      · simp only [List.map_cons, List.map_nil, List.mem_cons, List.not_mem_nil, or_false]
        omega
      · simp only [List.map_cons, List.map_nil, List.sum_cons, List.sum_nil]
        omega

-- Where what is taken can be signed, it passes when there is room for it.
theorem taken_validates_iff (h : Wallet.BalancesMatch crypto coinstate turns m balances)
    (honce : wallet.public_keys.Nodup) (hsupply : total Output.value m ≤ MAX_SASHIMI) (hvalue : 1 ≤ spend.value)
    {taken : List OutputReference} {transaction : Transaction}
    (htake : Greedy.take (worth m) spend.needed (spendable balances wallet) = some taken)
    (hsign : sign_transaction sign wallet m (spend.transaction (Collected.addAll ⟨0, []⟩ m taken)) =
      .ok transaction) :
    validate_non_coinbase_transaction_by_itself transaction = .ok () ↔
      construct_reference_to_thin_air ∉ taken ∧
        (taken.length ≤ MOST_INPUTS ∨ taken.length = MOST_INPUTS + 1 ∧ (taken.map (worth m)).sum = spend.needed) := by
  have hinitial := Greedy.take_initial htake
  have hdistinct : taken.Nodup := ((nodup_listed h.matching honce).filter _).sublist hinitial.sublist
  have hsum : (taken.map (worth m)).sum ≤ MAX_SASHIMI := by
    refine (sum_measureAt_le_total Output.value hdistinct ?_).trans hsupply
    intro reference hmem
    obtain ⟨output, hlookup, _⟩ := spendable_owned h.matching (hinitial.subset hmem)
    exact Finmap.mem_of_lookup_eq_some hlookup
  have hreferences : output_references (spend.transaction (Collected.addAll ⟨0, []⟩ m taken)) = taken :=
    addAll_references taken
  have hlength : (spend.transaction (Collected.addAll ⟨0, []⟩ m taken)).inputs.length = taken.length := by
    rw [← List.length_map Input.output_reference]
    exact congrArg List.length hreferences
  have hinputs : (spend.transaction (Collected.addAll ⟨0, []⟩ m taken)).inputs ≠ [] := by
    intro hnil
    rw [hnil] at hlength
    exact Greedy.take_ne_nil htake (List.eq_nil_of_length_eq_zero hlength.symm)
  have houtputs : (spend.transaction (Collected.addAll ⟨0, []⟩ m taken)).outputs =
      spend.outputs (taken.map (worth m)).sum := by
    rw [Spend.transaction, addAll_value]
  obtain ⟨hpositive, hpaid, hcount⟩ := spend_outputs_sound hvalue (Greedy.take_enough htake)
  have hsome : spend.outputs (taken.map (worth m)).sum ≠ [] := by
    intro hnil
    rw [hnil, List.length_nil] at hcount
    omega
  have hvalidates := signed_validates_iff hsign hinputs (by rw [hreferences]; exact hdistinct)
    (by rw [houtputs]; exact hsome) (by rw [output_values, houtputs]; exact hpositive)
    (by rw [output_values, houtputs]; exact hpaid.trans hsum)
  have hroom := room_for_inputs taken.length (spend.outputs (taken.map (worth m)).sum).length (by omega)
  rw [hvalidates, hreferences, signed_size hsign, hlength, houtputs, hroom]
  refine and_congr_right fun _ => ?_
  omega

-- There is enough before the reference that coinbases spend, and it is found in
-- as few outputs as a transaction has room for.
def Broadcastable (m : UnspentTransactionOuts) (spend : Spend) (references : List OutputReference) : Prop :=
  spend.needed ≤ ((references.takeWhile fun reference => reference ≠ construct_reference_to_thin_air).map (worth m)).sum ∧
    (spend.needed ≤ ((references.take MOST_INPUTS).map (worth m)).sum ∨
      ((references.take (MOST_INPUTS + 1)).map (worth m)).sum = spend.needed)

-- A spend that the wallet creates is accepted by itself just when it is made of
-- few enough outputs.
theorem spend_broadcastable_iff (h : Wallet.BalancesMatch crypto coinstate turns m balances)
    (honce : wallet.public_keys.Nodup) (hsupply : total Output.value m ≤ MAX_SASHIMI) (hvalue : 1 ≤ spend.value)
    {transaction : Transaction}
    (hsuccess : create_spend_transaction sign crypto turns coinstate spend wallet = (.ok transaction, after)) :
    validate_non_coinbase_transaction_by_itself transaction = .ok () ↔
      Broadcastable m spend (spendable balances wallet) := by
  have hneeded : 0 < spend.needed := Nat.lt_of_lt_of_le hvalue (Nat.le_add_right _ _)
  obtain ⟨taken, htake, hsign, _⟩ := (spend_eq_ok h honce hneeded).mp hsuccess
  rw [taken_validates_iff h honce hsupply hvalue htake hsign, Broadcastable]
  have hthin : construct_reference_to_thin_air ∉ taken ↔
      ∀ reference ∈ taken, decide (reference ≠ construct_reference_to_thin_air) = true := by
    simp only [decide_eq_true_eq]
    exact ⟨fun hnot reference hmem heq => hnot (heq ▸ hmem), fun hall hmem => hall _ hmem rfl⟩
  have hfew := Greedy.take_length_le_iff hneeded htake
  have hfirst := List.prefix_iff_eq_take.mp (Greedy.take_initial htake)
  rw [hthin, Greedy.take_all_iff hneeded htake]
  refine and_congr_right fun _ => ?_
  constructor
  · intro hroom
    cases hroom with
    | inl hless => exact .inl ((hfew MOST_INPUTS).mp hless)
    | inr hexact =>
        right
        rw [← hexact.1, ← hfirst]
        exact hexact.2
  · intro htotal
    cases htotal with
    | inl hless => exact .inl ((hfew MOST_INPUTS).mpr hless)
    | inr hexact =>
        have hmost := (hfew (MOST_INPUTS + 1)).mpr (Nat.le_of_eq hexact.symm)
        cases Nat.lt_or_eq_of_le hmost with
        | inl hless => exact .inl (Nat.le_of_lt_succ hless)
        | inr hlength =>
            right
            rw [hfirst, hlength]
            exact ⟨by rw [← hlength, ← hfirst], hexact⟩

theorem spend_broadcastable_iff_sample :
    ∃ m balances transaction after,
      create_spend_transaction sample_sign .residue 1 small_coinstate ⟨500, 50, sample_key, sample_key⟩
        Wallet.sample_wallet = (.ok transaction, after) ∧
      (validate_non_coinbase_transaction_by_itself transaction = .ok () ↔
        Broadcastable m ⟨500, 50, sample_key, sample_key⟩ (spendable balances Wallet.sample_wallet)) := by
  obtain ⟨m, balances, hmatch, hunspent, htotal, hsupply⟩ := small_matches
  have hneeded : 0 < Spend.needed ⟨500, 50, sample_key, sample_key⟩ := by decide
  obtain ⟨transaction, after, hsuccess⟩ :=
    (spend_succeeds_iff hmatch sample_keys_match hneeded (by decide) hunspent).mpr
      (by
        rw [htotal]
        decide)
  exact ⟨m, balances, transaction, after, hsuccess, spend_broadcastable_iff hmatch sample_keys_match.once
    (by rw [hsupply]; decide) (by decide) hsuccess⟩

-- As many outputs as a miner may have come by, of the least that an output is
-- worth.
def dust : List Output := List.replicate 2000 ⟨1, sample_key⟩

theorem dust_spend_too_large :
    ∃ m balances transaction after,
      Wallet.BalancesMatch .residue (minted_coinstate .residue (minting dust none)) 1 m balances ∧
      total Output.value m ≤ MAX_SASHIMI ∧
      create_spend_transaction sample_sign .residue 1 (minted_coinstate .residue (minting dust none))
        ⟨1980, 0, sample_key, sample_key⟩ Wallet.sample_wallet = (.ok transaction, after) ∧
      validate_non_coinbase_transaction_by_itself transaction ≠ .ok () := by
  have hkey : ∀ output ∈ dust, output = ⟨1, sample_key⟩ := fun output hmem => (List.mem_replicate.mp hmem).2
  obtain ⟨hash, hhash⟩ : ∃ hash, (minting dust none).hash .residue = .ok hash :=
    minting_hash fun output hmem => by
      rw [hkey output hmem]
      exact Nat.one_lt_two_pow (by decide)
  have hcount : (minting dust none).outputs.length = 2000 := List.length_replicate
  obtain ⟨m, balances, hmatch, hadded⟩ := minted_matches hhash (by omega)
  have hadded' : uto_add_outputs .residue (minting dust none) ∅ 0 dust = .ok m := hadded
  obtain ⟨htotal, honly⟩ := uto_add_outputs_from_empty hadded'
  have hsum : (dust.map Output.value).sum = 2000 := by rw [dust, List.map_replicate, List.sum_replicate]; rfl
  have hone : ∀ reference output, m.lookup reference = some output → output.value = 1 := fun reference output hlookup =>
    congrArg Output.value (hkey output (honly reference output hlookup))
  have hneeded : 0 < Spend.needed ⟨1980, 0, sample_key, sample_key⟩ := by decide
  obtain ⟨transaction, after, hsuccess⟩ : ∃ transaction after,
      create_spend_transaction sample_sign .residue 1 (minted_coinstate .residue (minting dust none))
        ⟨1980, 0, sample_key, sample_key⟩ Wallet.sample_wallet = (.ok transaction, after) := by
    refine (spend_succeeds_iff hmatch sample_keys_match hneeded (by decide) ?_).mpr ?_
    · intro reference output hlookup
      rw [hone reference output hlookup]
      exact Nat.one_lt_two_pow (by decide)
    · rw [sample_total hadded' fun output hmem => by rw [hkey output hmem], hsum]
      decide
  have hsupply : total Output.value m ≤ MAX_SASHIMI := by
    rw [htotal, hsum]
    decide
  refine ⟨m, balances, transaction, after, hmatch, hsupply, hsuccess, ?_⟩
  intro hvalid
  obtain ⟨taken, htake, hsign, _⟩ := (spend_eq_ok hmatch sample_keys_match.once hneeded).mp hsuccess
  have hroom := ((taken_validates_iff hmatch sample_keys_match.once hsupply (by decide) htake hsign).mp hvalid).2
  -- each output is worth one, so that 1980 of them are taken
  have hworth : taken.map (worth m) = List.replicate taken.length 1 := by
    refine List.eq_replicate_iff.mpr ⟨List.length_map _, ?_⟩
    intro value hmem
    obtain ⟨reference, hreference, rfl⟩ := List.mem_map.mp hmem
    obtain ⟨output, hlookup, _⟩ := spendable_owned hmatch.matching ((Greedy.take_initial htake).subset hreference)
    rw [worth, measureAt, hlookup, Option.elim_some, hone reference output hlookup]
  have henough := Greedy.take_enough htake
  rw [hworth, List.sum_replicate, smul_eq_mul, Nat.mul_one] at henough
  have hmany : 1980 ≤ taken.length := henough
  unfold MOST_INPUTS at hroom
  omega

end Broadcast

end Skepticoin
