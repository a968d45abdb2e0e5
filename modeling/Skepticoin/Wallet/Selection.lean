import Skepticoin.Lib.Greedy
import Skepticoin.Wallet.Balance

namespace Skepticoin

open Guard FMap Effect

variable {crypto : Crypto} {sign : Signer} {spend : Spend} {m : UnspentTransactionOuts} {turns : Nat}
  {coinstate : CoinState} {wallet after : Wallet}

def Wallet.reserve (wallet : Wallet) (reference : OutputReference) : Wallet :=
  { wallet with spent_transaction_outputs := insert reference wallet.spent_transaction_outputs }

@[simp] theorem Wallet.reserve_spent (wallet : Wallet) (reference : OutputReference) :
    (wallet.reserve reference).spent_transaction_outputs = insert reference wallet.spent_transaction_outputs := rfl

@[simp] theorem Wallet.reserve_keypairs (wallet : Wallet) (reference : OutputReference) :
    (wallet.reserve reference).keypairs = wallet.keypairs := rfl

section Loops

-- One turn of the inner loop.
theorem spend_references_cons (collected : Collected) (reference : OutputReference)
    (references : List OutputReference) (wallet : Wallet) :
    spend_references sign spend m collected (reference :: references) wallet =
      if reference ∈ wallet.spent_transaction_outputs then
        spend_references sign spend m collected references wallet
      else match m.lookup reference with
        | none => (.error .KeyError, wallet.reserve reference)
        | some output =>
          if spend.needed ≤ (collected.add reference output).collected_value then
            ((sign_transaction sign (wallet.reserve reference) m
              (spend.transaction (collected.add reference output))).map .inl, wallet.reserve reference)
          else
            spend_references sign spend m (collected.add reference output) references (wallet.reserve reference) := by
  rw [spend_references, bind_run_ok (read_run wallet)]
  by_cases hspent : reference ∈ wallet.spent_transaction_outputs
  · rw [if_pos hspent, if_pos hspent]
  · rw [if_neg hspent, if_neg hspent, bind_run_ok (change_run _ _)]
    cases hlookup : m.lookup reference with
    | none =>
        have hraise : getItem m reference = .error .KeyError := by rw [getItem, find, hlookup]
        rw [hraise, bind_run_error (raw_run _ _)]
        rfl
    | some output =>
        have hfound : getItem m reference = .ok output := getItem_eq_ok.mpr hlookup
        rw [hfound, bind_run_ok (raw_run _ _)]
        simp only []
        by_cases henough : spend.needed ≤ (collected.add reference output).collected_value
        · rw [if_pos henough, if_pos henough, bind_run_ok (read_run _)]
          have hreserve : ({ wallet with
              spent_transaction_outputs := insert reference wallet.spent_transaction_outputs } : Wallet) =
              wallet.reserve reference := rfl
          rw [hreserve]
          cases hsign : sign_transaction sign (wallet.reserve reference) m
              (spend.transaction (collected.add reference output)) with
          | ok transaction =>
              rw [bind_run_ok (raw_run _ _)]
              rfl
          | error e =>
              rw [bind_run_error (raw_run _ _)]
              rfl
        · rw [if_neg henough, if_neg henough]
          rfl

-- The loop over more references goes on where the first ones were not enough.
theorem spend_references_append (references references' : List OutputReference) (collected : Collected)
    (wallet : Wallet) :
    spend_references sign spend m collected (references ++ references') wallet =
      match spend_references sign spend m collected references wallet with
      | (.ok (.inr collected), wallet) => spend_references sign spend m collected references' wallet
      | ended => ended := by
  induction references generalizing collected wallet with
  | nil => rfl
  | cons reference references ih =>
      rw [List.cons_append, spend_references_cons, spend_references_cons]
      by_cases hspent : reference ∈ wallet.spent_transaction_outputs
      · rw [if_pos hspent, if_pos hspent, ih]
      · rw [if_neg hspent, if_neg hspent]
        cases m.lookup reference with
        | none => rfl
        | some output =>
            simp only []
            by_cases henough : spend.needed ≤ (collected.add reference output).collected_value
            · rw [if_pos henough, if_pos henough]
              cases sign_transaction sign (wallet.reserve reference) m
                (spend.transaction (collected.add reference output)) <;> rfl
            · rw [if_neg henough, if_neg henough, ih]

-- What the loops go through, and what is raised after it: the references of the
-- keys, up to the first key that is malformed.
def listed_references (public_key_balances : Py Balances) : List Bytes → List OutputReference × PyError
  | [] => ([], .Exception "Insufficient balance")
  | public_key :: public_keys =>
    match SECP256k1PublicKey.new public_key with
    | .error e => ([], e)
    | .ok public_key =>
      match public_key_balances with
      | .error e => ([], e)
      | .ok balances =>
        let rest := listed_references public_key_balances public_keys
        ((balanceOf balances public_key).output_references ++ rest.1, rest.2)

-- The two loops are one loop over the references that are listed.
theorem spend_keys_run (public_keys : List Bytes) (collected : Collected) (wallet : Wallet) :
    spend_keys sign crypto turns coinstate spend m collected public_keys wallet =
      match spend_references sign spend m collected
        (listed_references (coinstate.public_key_balances_at_head crypto turns) public_keys).1 wallet with
      | (.ok (.inl transaction), wallet) => (.ok transaction, wallet)
      | (.ok (.inr _), wallet) =>
        (.error (listed_references (coinstate.public_key_balances_at_head crypto turns) public_keys).2, wallet)
      | (.error e, wallet) => (.error e, wallet) := by
  induction public_keys generalizing collected wallet with
  | nil => rfl
  | cons public_key public_keys ih =>
      rw [spend_keys, listed_references]
      cases SECP256k1PublicKey.new public_key with
      | error e => rw [bind_run_error (raw_run _ _)]; rfl
      | ok key =>
          rw [bind_run_ok (raw_run _ _)]
          cases hbalances : coinstate.public_key_balances_at_head crypto turns with
          | error e => rw [bind_run_error (raw_run _ _)]; rfl
          | ok balances =>
              rw [bind_run_ok (raw_run _ _)]
              rw [hbalances] at ih
              simp only []
              rw [spend_references_append]
              cases hlookup : balances.lookup key with
              | none =>
                  have hnone : balanceOf balances key = ⟨0, []⟩ := by rw [balanceOf, hlookup]; rfl
                  rw [hnone]
                  exact ih collected wallet
              | some balance =>
                  have hsome : balanceOf balances key = balance := by rw [balanceOf, hlookup]; rfl
                  rw [hsome]
                  simp only []
                  rw [bind_run]
                  cases spend_references sign spend m collected balance.output_references wallet with
                  | mk result wallet =>
                      cases result with
                      | error e => rfl
                      | ok ended =>
                          cases ended with
                          | inl transaction => rfl
                          | inr collected => exact ih collected wallet

-- What an output that is unspent is worth.
abbrev worth (m : UnspentTransactionOuts) (reference : OutputReference) : Nat := measureAt Output.value m reference

def Collected.addAll (collected : Collected) (m : UnspentTransactionOuts) (references : List OutputReference) :
    Collected :=
  ⟨collected.collected_value + (references.map (worth m)).sum,
    collected.inputs ++ references.map fun reference => ⟨reference, none⟩⟩

def Wallet.reserveAll (wallet : Wallet) (references : List OutputReference) : Wallet :=
  { wallet with spent_transaction_outputs := wallet.spent_transaction_outputs ∪ references.toFinset }

theorem Wallet.reserveAll_nil (wallet : Wallet) : wallet.reserveAll [] = wallet := by
  rw [Wallet.reserveAll, List.toFinset_nil, Finset.union_empty]

theorem Collected.addAll_nil (collected : Collected) : collected.addAll m [] = collected := by
  rw [Collected.addAll, List.map_nil, List.map_nil, List.sum_nil, List.append_nil, Nat.add_zero]

theorem Wallet.reserve_reserveAll (wallet : Wallet) (reference : OutputReference) (references : List OutputReference) :
    (wallet.reserve reference).reserveAll references = wallet.reserveAll (reference :: references) := by
  simp only [Wallet.reserve, Wallet.reserveAll, List.toFinset_cons, Finset.insert_union, Finset.union_insert]

theorem Collected.add_addAll {reference : OutputReference} {output : Output}
    (hlookup : m.lookup reference = some output)
    (collected : Collected) (references : List OutputReference) :
    (collected.add reference output).addAll m references = collected.addAll m (reference :: references) := by
  have hworth : worth m reference = output.value := by rw [worth, measureAt, hlookup, Option.elim_some]
  simp only [Collected.add, Collected.addAll, List.map_cons, List.sum_cons, hworth, List.append_assoc,
    List.singleton_append, Nat.add_assoc]

-- Where all references can be looked up, the loop takes the fresh ones that the
-- greedy choice takes.
theorem spend_references_greedy {references : List OutputReference} (honce : references.Nodup)
    (hknown : ∀ reference ∈ references, reference ∈ m) (collected : Collected) (wallet : Wallet)
    (hless : collected.collected_value < spend.needed) :
    spend_references sign spend m collected references wallet =
      match Greedy.take (worth m) (spend.needed - collected.collected_value)
        (references.filter fun reference => reference ∉ wallet.spent_transaction_outputs) with
      | some taken =>
        ((sign_transaction sign wallet m (spend.transaction (collected.addAll m taken))).map .inl,
          wallet.reserveAll taken)
      | none =>
        (.ok (.inr (collected.addAll m
            (references.filter fun reference => reference ∉ wallet.spent_transaction_outputs))),
          wallet.reserveAll (references.filter fun reference => reference ∉ wallet.spent_transaction_outputs)) := by
  induction references generalizing collected wallet with
  | nil =>
      rw [List.filter_nil, Greedy.take, Wallet.reserveAll_nil, Collected.addAll_nil]
      rfl
  | cons reference references ih =>
      rw [List.nodup_cons] at honce
      have hrest : ∀ other ∈ references, other ∈ m := fun other hother => hknown other (List.mem_cons_of_mem _ hother)
      rw [spend_references_cons]
      by_cases hspent : reference ∈ wallet.spent_transaction_outputs
      · rw [if_pos hspent, ih honce.2 hrest collected wallet hless, List.filter_cons_of_neg (by simpa using hspent)]
      · obtain ⟨output, hlookup⟩ := Finmap.mem_iff.mp (hknown reference List.mem_cons_self)
        have hworth : worth m reference = output.value := by rw [worth, measureAt, hlookup, Option.elim_some]
        have hsame : (references.filter fun other => other ∉ (wallet.reserve reference).spent_transaction_outputs) =
            references.filter fun other => other ∉ wallet.spent_transaction_outputs := by
          apply List.filter_congr
          intro other hother
          have hne : other ≠ reference := fun heq => honce.1 (heq ▸ hother)
          simp [Wallet.reserve, hne]
        have hvalue : (collected.add reference output).collected_value = collected.collected_value + output.value := rfl
        rw [if_neg hspent, List.filter_cons_of_pos (by simpa using hspent), hlookup]
        simp only []
        by_cases henough : spend.needed ≤ (collected.add reference output).collected_value
        · rw [if_pos henough, Greedy.take_cons_of_le (by rw [hworth]; omega)]
          simp only []
          rw [← Wallet.reserve_reserveAll, ← Collected.add_addAll hlookup, Wallet.reserveAll_nil,
            Collected.addAll_nil]
          rfl
        · have hmore : spend.needed - collected.collected_value - worth m reference =
              spend.needed - (collected.add reference output).collected_value := by
            rw [hworth, hvalue]
            omega
          rw [if_neg henough, Greedy.take_cons_of_lt (by rw [hworth]; omega), hmore,
            ih honce.2 hrest _ (wallet.reserve reference) (by omega), hsame]
          cases Greedy.take (worth m) (spend.needed - (collected.add reference output).collected_value)
            (references.filter fun other => other ∉ wallet.spent_transaction_outputs) with
          | none =>
              simp only [Option.map_none]
              rw [Wallet.reserve_reserveAll, Collected.add_addAll hlookup]
          | some taken =>
              simp only [Option.map_some]
              rw [Wallet.reserve_reserveAll, Collected.add_addAll hlookup]
              rfl

end Loops

-- The references from which a spend chooses, in order.
def candidates (wallet : Wallet) (references : List OutputReference) : List OutputReference :=
  references.filter fun reference => reference ∉ wallet.spent_transaction_outputs

section Listed

variable {balances : Balances}

theorem public_key_new_eq_ok {public_key : Bytes} {key : SECP256k1PublicKey}
    (h : SECP256k1PublicKey.new public_key = .ok key) : key.public_key.1 = public_key := by
  unfold SECP256k1PublicKey.new at h
  split at h
  · rw [← Except.ok.inj h]
  · cases h

-- What is listed is unspent and paid to one of the keys.
theorem listed_owned (h : Matches m balances) {public_keys : List Bytes} {reference : OutputReference}
    (hmem : reference ∈ (listed_references (.ok balances) public_keys).1) :
    ∃ output, m.lookup reference = some output ∧ output.public_key.public_key.1 ∈ public_keys := by
  induction public_keys with
  | nil => cases hmem
  | cons public_key public_keys ih =>
      rw [listed_references] at hmem
      cases hnew : SECP256k1PublicKey.new public_key with
      | error e =>
          rw [hnew] at hmem
          cases hmem
      | ok key =>
          rw [hnew] at hmem
          cases List.mem_append.mp hmem with
          | inl hown =>
              obtain ⟨output, hlookup, hkey⟩ := ((h key).listed reference).mp hown
              exact ⟨output, hlookup, by rw [hkey, public_key_new_eq_ok hnew]; exact List.mem_cons_self⟩
          | inr hother =>
              obtain ⟨output, hlookup, hkey⟩ := ih hother
              exact ⟨output, hlookup, List.mem_cons_of_mem _ hkey⟩

-- Where no key is malformed, all such outputs are listed.
theorem mem_listed (h : Matches m balances) {public_keys : List Bytes}
    (hwidth : ∀ public_key ∈ public_keys, public_key.length = 64) (reference : OutputReference) :
    reference ∈ (listed_references (.ok balances) public_keys).1 ↔
      ∃ output, m.lookup reference = some output ∧ output.public_key.public_key.1 ∈ public_keys := by
  refine ⟨listed_owned h, ?_⟩
  intro howned
  obtain ⟨output, hlookup, hkey⟩ := howned
  induction public_keys with
  | nil => cases hkey
  | cons public_key public_keys ih =>
      have hlength := hwidth public_key List.mem_cons_self
      have hnew : SECP256k1PublicKey.new public_key = .ok ⟨⟨public_key, hlength⟩⟩ := dif_pos hlength
      rw [listed_references, hnew]
      apply List.mem_append.mpr
      cases List.mem_cons.mp hkey with
      | inl hself =>
          exact .inl (((h _).listed reference).mpr ⟨output, hlookup, Wallet.public_key_of_bytes hself hlength⟩)
      | inr hother => exact .inr (ih (fun key hmem => hwidth key (List.mem_cons_of_mem _ hmem)) hother)

-- No output is listed twice, as it is paid to one key.
theorem nodup_listed (h : Matches m balances) {public_keys : List Bytes} (honce : public_keys.Nodup) :
    (listed_references (.ok balances) public_keys).1.Nodup := by
  induction public_keys with
  | nil => exact List.nodup_nil
  | cons public_key public_keys ih =>
      rw [List.nodup_cons] at honce
      rw [listed_references]
      cases hnew : SECP256k1PublicKey.new public_key with
      | error e => exact List.nodup_nil
      | ok key =>
          refine (h key).once.append (ih honce.2) ?_
          intro reference hown hother
          obtain ⟨output, hlookup, hkey⟩ := ((h key).listed reference).mp hown
          obtain ⟨output', hlookup', hkey'⟩ := listed_owned h hother
          rw [← Option.some.inj (hlookup.symm.trans hlookup'), hkey, public_key_new_eq_ok hnew] at hkey'
          exact honce.1 hkey'

theorem listed_error {public_keys : List Bytes} (hwidth : ∀ public_key ∈ public_keys, public_key.length = 64) :
    (listed_references (.ok balances) public_keys).2 = .Exception "Insufficient balance" := by
  induction public_keys with
  | nil => rfl
  | cons public_key public_keys ih =>
      have hnew : SECP256k1PublicKey.new public_key = .ok ⟨⟨public_key, _⟩⟩ :=
        dif_pos (hwidth public_key List.mem_cons_self)
      rw [listed_references, hnew]
      exact ih fun key hkey => hwidth key (List.mem_cons_of_mem _ hkey)

-- What the candidates are worth together.
theorem worth_candidates (h : Matches m balances) {wallet : Wallet} (honce : wallet.public_keys.Nodup)
    (hwidth : ∀ public_key ∈ wallet.public_keys, public_key.length = 64) :
    ((candidates wallet (listed_references (.ok balances) wallet.public_keys).1).map (worth m)).sum =
      totalOutside (Wallet.paidToAny wallet.public_keys) wallet.spent_transaction_outputs m := by
  have hnodup := (nodup_listed h honce).filter fun reference => reference ∉ wallet.spent_transaction_outputs
  have hmem := mem_listed h hwidth
  rw [candidates, ← List.sum_toFinset _ hnodup, totalOutside]
  calc ∑ reference ∈ (candidates wallet (listed_references (.ok balances) wallet.public_keys).1).toFinset,
        worth m reference
      = ∑ reference ∈ (candidates wallet (listed_references (.ok balances) wallet.public_keys).1).toFinset,
          measureAt (Wallet.paidToAny wallet.public_keys) m reference := by
        refine Finset.sum_congr rfl fun reference hreference => ?_
        have hlisted := (List.mem_filter.mp (List.mem_toFinset.mp hreference)).1
        obtain ⟨output, hlookup, hkey⟩ := (hmem reference).mp hlisted
        simp [worth, measureAt, hlookup, Wallet.paidToAny, hkey]
    _ = ∑ reference ∈ m.keys \ wallet.spent_transaction_outputs,
          measureAt (Wallet.paidToAny wallet.public_keys) m reference := by
        apply Finset.sum_subset
        · intro reference hreference
          obtain ⟨hlisted, hfresh⟩ := List.mem_filter.mp (List.mem_toFinset.mp hreference)
          obtain ⟨output, hlookup, _⟩ := (hmem reference).mp hlisted
          rw [Finset.mem_sdiff, Finmap.mem_keys]
          exact ⟨Finmap.mem_of_lookup_eq_some hlookup, by simpa using hfresh⟩
        · intro reference hreference hnot
          obtain ⟨hunspent, hfresh⟩ := Finset.mem_sdiff.mp hreference
          obtain ⟨output, hlookup⟩ := Finmap.mem_iff.mp (Finmap.mem_keys.mp hunspent)
          have hother : output.public_key.public_key.1 ∉ wallet.public_keys := by
            intro hkey
            apply hnot
            rw [List.mem_toFinset, candidates, List.mem_filter]
            exact ⟨(hmem reference).mpr ⟨output, hlookup, hkey⟩, by simpa using hfresh⟩
          simp [measureAt, hlookup, Wallet.paidToAny, hother]

end Listed

end Skepticoin
