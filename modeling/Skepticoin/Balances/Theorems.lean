import Skepticoin.Consensus.Theorems

namespace Skepticoin

open Guard FMap

variable {crypto : Crypto} {m m' : UnspentTransactionOuts} {reference : OutputReference}

-- The output of a transaction that a reference names.
def outputAt (crypto : Crypto) (transaction : Transaction) (reference : OutputReference) : Option Output :=
  if transaction.hash crypto = .ok reference.hash then transaction.outputs[reference.index]? else none

-- What each step leaves under a reference.
theorem uto_remove_inputs_lookup {inputs : List Input} (h : uto_remove_inputs m inputs = .ok m') :
    m'.lookup reference =
      if reference ∈ inputs.map Input.output_reference then none else m.lookup reference := by
  induction inputs generalizing m with
  | nil =>
      rw [← Except.ok.inj h]
      rfl
  | cons input inputs ih =>
      simp only [uto_remove_inputs, bind_eq_ok, delItem_eq_ok] at h
      obtain ⟨rest, ⟨_, hrest⟩, h⟩ := h
      rw [ih h, ← hrest, lookup_erase_eq_ite, List.map_cons]
      by_cases hfirst : reference = input.output_reference
      · simp [hfirst]
      · simp [hfirst]

theorem uto_add_outputs_lookup {transaction : Transaction} {i : Nat} {outputs : List Output}
    (h : uto_add_outputs crypto transaction m i outputs = .ok m') :
    m'.lookup reference =
      if transaction.hash crypto = .ok reference.hash ∧ i ≤ reference.index ∧
          reference.index < i + outputs.length then outputs[reference.index - i]?
      else m.lookup reference := by
  induction outputs generalizing m i with
  | nil =>
      rw [← Except.ok.inj h, if_neg]
      intro hrange
      have hlt := hrange.2.2
      rw [List.length_nil] at hlt
      omega
  | cons output outputs ih =>
      simp only [uto_add_outputs, bind_eq_ok] at h
      obtain ⟨hash, hhash, added, hadded, hrest⟩ := h
      have hadded' := output_reference_new_eq_ok hadded
      rw [ih hrest, lookup_insert_eq_ite, List.length_cons, hhash]
      by_cases hsame : reference.hash = hash
      · -- the new reference, a later one, or one outside the range
        have heq : reference = added ↔ reference.index = i := by
          constructor
          · intro hreference
            rw [hreference]
            exact hadded'.2
          · intro hindex
            obtain ⟨hash', index', _⟩ := reference
            obtain ⟨hash'', index'', _⟩ := added
            have hleft : hash' = hash'' := hsame.trans hadded'.1.symm
            have hright : index' = index'' := hindex.trans hadded'.2.symm
            subst hleft hright
            rfl
        by_cases hindex : reference.index = i
        · rw [if_pos (heq.mpr hindex)]
          simp [hsame, hindex]
        · rw [if_neg (heq.not.mpr hindex)]
          by_cases hlater : i + 1 ≤ reference.index ∧ reference.index < i + 1 + outputs.length
          · have hshift : reference.index - i = (reference.index - (i + 1)) + 1 := by omega
            have hrange : i ≤ reference.index ∧ reference.index < i + (outputs.length + 1) := by omega
            rw [if_pos ⟨by rw [hsame], hlater⟩, if_pos ⟨by rw [hsame], hrange⟩, hshift,
              List.getElem?_cons_succ]
          · have hrange : ¬(i ≤ reference.index ∧ reference.index < i + (outputs.length + 1)) := by omega
            rw [if_neg fun hr => hlater hr.2, if_neg fun hr => hrange hr.2]
      · have hne : ¬(Except.ok hash : Py Hash) = .ok reference.hash := fun heq => hsame (Except.ok.inj heq).symm
        have hother : reference ≠ added := by
          intro heq
          rw [heq] at hsame
          exact hsame hadded'.1
        rw [if_neg fun hr => hne hr.1, if_neg hother, if_neg fun hr => hne hr.1]

theorem uto_apply_transaction_lookup (reference : OutputReference) {transaction : Transaction} {is_coinbase : Bool}
    (h : uto_apply_transaction crypto m transaction is_coinbase = .ok m') :
    m'.lookup reference = (outputAt crypto transaction reference).or
      (if is_coinbase = false ∧ reference ∈ output_references transaction then none
        else m.lookup reference) := by
  obtain ⟨before, hremoved, hafter⟩ : ∃ before : UnspentTransactionOuts,
      before.lookup reference =
        (if is_coinbase = false ∧ reference ∈ output_references transaction then none
          else m.lookup reference) ∧
      uto_add_outputs crypto transaction before 0 transaction.outputs = .ok m' := by
    cases is_coinbase with
    | true => exact ⟨m, by simp, h⟩
    | false =>
        obtain ⟨before, hbefore, hafter⟩ := bind_eq_ok.mp h
        refine ⟨before, ?_, hafter⟩
        rw [uto_remove_inputs_lookup hbefore]
        simp [output_references]
  rw [uto_add_outputs_lookup hafter, hremoved, outputAt, Nat.zero_add]
  by_cases hhash : transaction.hash crypto = .ok reference.hash
  · by_cases hindex : reference.index < transaction.outputs.length
    · rw [if_pos ⟨hhash, Nat.zero_le _, hindex⟩, if_pos hhash, Nat.sub_zero,
        List.getElem?_eq_getElem hindex, Option.some_or]
    · rw [if_neg fun hr => hindex hr.2.2, if_pos hhash, List.getElem?_eq_none (by omega), Option.none_or]
  · rw [if_neg fun hr => hhash hr.1, if_neg hhash, Option.none_or]

-- What is not spent stays, and so does what is created.
theorem uto_apply_transactions_keeps {transactions : List Transaction}
    (h : uto_apply_transactions crypto m transactions = .ok m')
    (hunspent : reference ∉ transactions.flatMap output_references)
    (hsource : reference ∈ m ∨ ∃ t ∈ transactions, (outputAt crypto t reference).isSome) :
    reference ∈ m' := by
  induction transactions generalizing m with
  | nil =>
      rw [← Except.ok.inj h]
      cases hsource with
      | inl hmem => exact hmem
      | inr hcreated =>
          obtain ⟨t, ht, _⟩ := hcreated
          cases ht
  | cons transaction transactions ih =>
      simp only [uto_apply_transactions, bind_eq_ok] at h
      obtain ⟨middle, hfirst, hrest⟩ := h
      rw [List.flatMap_cons, List.mem_append, not_or] at hunspent
      have hlookup := uto_apply_transaction_lookup reference hfirst
      rw [if_neg fun hr => hunspent.1 hr.2] at hlookup
      apply ih hrest hunspent.2
      by_cases hmiddle : (middle.lookup reference).isSome
      · exact .inl (Finmap.lookup_isSome.mp hmiddle)
      · right
        rw [hlookup, Option.isSome_or, Bool.or_eq_true, not_or] at hmiddle
        cases hsource with
        | inl hmem => exact absurd (Finmap.lookup_isSome.mpr hmem) hmiddle.2
        | inr hcreated =>
            obtain ⟨t, ht, hsome⟩ := hcreated
            cases List.mem_cons.mp ht with
            | inl hself => rw [hself] at hsome; exact absurd hsome hmiddle.1
            | inr hlater => exact ⟨t, hlater, hsome⟩

theorem uto_apply_block_keeps {block : Block} {transaction : Transaction}
    (h : uto_apply_block crypto m block = .ok m')
    (hunspent : reference ∉ block.transactions.tail.flatMap output_references)
    (hmem : transaction ∈ block.transactions) (hcreated : (outputAt crypto transaction reference).isSome) :
    reference ∈ m' := by
  unfold uto_apply_block at h
  cases hblock : block.transactions with
  | nil => rw [hblock] at hmem; cases hmem
  | cons coinbase transactions =>
      rw [hblock] at h hunspent hmem
      obtain ⟨middle, hfirst, hrest⟩ := bind_eq_ok.mp h
      apply uto_apply_transactions_keeps hrest hunspent
      cases List.mem_cons.mp hmem with
      | inl hself =>
          left
          have hlookup := uto_apply_transaction_lookup reference hfirst
          rw [← Finmap.lookup_isSome, hlookup, Option.isSome_or, ← hself, hcreated, Bool.true_or]
      | inr hlater => exact .inr ⟨transaction, hlater, hcreated⟩

end Skepticoin
