import Skepticoin.Lib.Run
import Skepticoin.Wallet.Balance

namespace Skepticoin

open Guard Effect

namespace Wallet

variable {wallet : Wallet} {public_key : Bytes} {label : String} {choice : Nat}

theorem random_choice_mem {public_keys : List Bytes} (h : random_choice choice public_keys = .ok public_key) :
    public_key ∈ public_keys := by
  unfold random_choice at h
  cases hchoice : public_keys[choice % public_keys.length]? with
  | none =>
      rw [hchoice] at h
      cases h
  | some drawn =>
      rw [hchoice] at h
      exact Except.ok.inj h ▸ List.mem_of_getElem? hchoice

theorem random_choice_ok {public_keys : List Bytes} (h : public_keys ≠ []) (choice : Nat) :
    ∃ public_key, random_choice choice public_keys = .ok public_key := by
  have hlt := Nat.mod_lt choice (List.length_pos_iff.mpr h)
  exact ⟨_, by rw [random_choice, List.getElem?_eq_getElem hlt]⟩

-- A call of one of the three methods. The key pair that is generated, and the
-- index that is drawn, come with it.
inductive Call where
  | generate_key (sk : SigningKey)
  | get_annotated_public_key (label : String) (choice : Nat)
  | restore_annotated_public_key (public_key : Bytes) (label : String)

def step (wallet : Wallet) : Call → Wallet
  | .generate_key sk => (generate_key sk wallet).2
  | .get_annotated_public_key label choice => (get_annotated_public_key label choice wallet).2
  | .restore_annotated_public_key public_key label =>
    (restore_annotated_public_key public_key label wallet).2

-- The wallet after some calls, on the empty one.
def after_calls (calls : List Call) : Wallet := Run.after step .empty calls

-- Where the wallet hands out a key, its return leaves everything as it was.
def Undone (wallet : Wallet) (label : String) (choice : Nat) : Prop :=
  ∀ public_key taken, get_annotated_public_key label choice wallet = (.ok public_key, taken) →
    let returned := (restore_annotated_public_key public_key label taken).2
    returned.public_key_annotations = wallet.public_key_annotations ∧
      returned.unused_public_keys.Perm wallet.unused_public_keys

-- The key that is next in turn is one without an annotation, where there are any
-- keys.
def Spare (wallet : Wallet) : Prop :=
  wallet.public_keys ≠ [] →
    ∃ public_key, wallet.unused_public_keys.getLast? = some public_key ∧ public_key ∉ wallet.annotated

-- All keys are annotated or unused. A key that was generated twice may be both.
def Placed (wallet : Wallet) : Prop :=
  ∀ public_key, public_key ∈ wallet.public_keys ↔
    public_key ∈ wallet.annotated ∨ public_key ∈ wallet.unused_public_keys

theorem placed_step (h : wallet.Placed) (call : Call) : (wallet.step call).Placed := by
  cases call with
  | generate_key sk =>
      intro public_key
      show public_key ∈ (Dict.setItem wallet.keypairs sk.public_key.1 sk.private_key).map Prod.fst ↔
        public_key ∈ wallet.annotated ∨ public_key ∈ wallet.unused_public_keys ++ [sk.public_key.1]
      rw [Dict.mem_keys_setItem, List.mem_append, List.mem_singleton, ← or_assoc, ← h]
      rfl
  | get_annotated_public_key label choice =>
      cases hlast : wallet.unused_public_keys.getLast? with
      | none =>
          rw [step, get_annotated_public_key_dry hlast]
          exact h
      | some last =>
          rw [step, get_annotated_public_key_spare hlast]
          intro public_key
          have hold := h public_key
          rw [← List.dropLast_append_getLast? last hlast, List.mem_append, List.mem_singleton] at hold
          show public_key ∈ wallet.public_keys ↔
            public_key ∈ (Dict.setItem wallet.public_key_annotations last label).map Prod.fst ∨
              public_key ∈ wallet.unused_public_keys.dropLast
          rw [Dict.mem_keys_setItem, hold, annotated]
          tauto
  | restore_annotated_public_key restored label =>
      by_cases hannotated : restored ∈ wallet.annotated
      · rw [step, restore_annotated_public_key_annotated hannotated]
        intro public_key
        show public_key ∈ wallet.public_keys ↔
          public_key ∈ (wallet.public_key_annotations.filter fun item => item.1 ≠ restored).map Prod.fst ∨
            public_key ∈ wallet.unused_public_keys ++ [restored]
        rw [annotated_without, h, List.mem_filter, List.mem_append, List.mem_singleton]
        by_cases hself : public_key = restored
        · simp [hself, hannotated]
        · simp [hself]
      · rw [step, restore_annotated_public_key_unknown hannotated]
        exact h

theorem after_calls_placed (calls : List Call) : (after_calls calls).Placed := by
  have hempty : Placed .empty := by
    intro public_key
    simp [empty, public_keys, annotated]
  exact Run.after_keeps Placed (fun _ call h => placed_step h call) hempty calls

theorem undone_of_spare (hlast : wallet.unused_public_keys.getLast? = some public_key)
    (hnew : public_key ∉ wallet.annotated) : wallet.Undone label choice := by
  intro taken_key taken hget
  rw [get_annotated_public_key_spare hlast] at hget
  obtain ⟨hkey, rfl⟩ := Prod.mk.inj hget
  obtain rfl := Except.ok.inj hkey
  have hadded : Dict.setItem wallet.public_key_annotations public_key label =
      wallet.public_key_annotations ++ [(public_key, label)] := Dict.setItem_new _ hnew
  have hkept : (wallet.public_key_annotations.filter fun item => item.1 ≠ public_key) =
      wallet.public_key_annotations := by
    rw [List.filter_eq_self]
    intro item hitem
    have hne : item.1 ≠ public_key := fun heq => hnew (heq ▸ List.mem_map_of_mem hitem)
    simpa using hne
  rw [hadded]
  rw [restore_annotated_public_key_annotated (by simp [annotated])]
  refine ⟨?_, ?_⟩
  · show (wallet.public_key_annotations ++ [(public_key, label)]).filter _ = _
    rw [List.filter_append, hkept]
    simp
  · show (wallet.unused_public_keys.dropLast ++ [public_key]).Perm wallet.unused_public_keys
    rw [List.dropLast_append_getLast? public_key hlast]

-- The return of a key takes its annotation away, whoever made it.
theorem not_undone_of_annotated {taken : Wallet} (hannotated : public_key ∈ wallet.annotated)
    (hget : get_annotated_public_key label choice wallet = (.ok public_key, taken))
    (hkept : public_key ∈ taken.annotated) : ¬wallet.Undone label choice := by
  intro hundone
  have hsame := (hundone public_key taken hget).1
  rw [restore_annotated_public_key_annotated hkept] at hsame
  have hfilter : (taken.public_key_annotations.filter fun item => item.1 ≠ public_key) =
      wallet.public_key_annotations := hsame
  have hmem : public_key ∈ (taken.public_key_annotations.filter fun item => item.1 ≠ public_key).map Prod.fst :=
    hfilter ▸ hannotated
  obtain ⟨item, hitem, heq⟩ := List.mem_map.mp hmem
  simp [heq] at hitem

theorem undone_iff_spare (h : wallet.Placed) (label : String) (choice : Nat) :
    wallet.Undone label choice ↔ wallet.Spare := by
  cases hlast : wallet.unused_public_keys.getLast? with
  | some last =>
      have hget := get_annotated_public_key_spare hlast label choice
      have hkey : last ∈ wallet.public_keys := (h last).mpr (.inr (List.mem_of_getLast? hlast))
      constructor
      · intro hundone _
        refine ⟨last, hlast, fun hannotated => ?_⟩
        exact not_undone_of_annotated hannotated hget (Dict.mem_keys_setItem.mpr (.inr rfl)) hundone
      · intro hspare
        obtain ⟨spare, hspare, hnew⟩ := hspare (List.ne_nil_of_mem hkey)
        exact undone_of_spare hspare hnew
  | none =>
      have hget := get_annotated_public_key_dry hlast label choice
      have hnone : wallet.unused_public_keys = [] := List.getLast?_eq_none_iff.mp hlast
      constructor
      · intro hundone hkeys
        obtain ⟨drawn, hdrawn⟩ := random_choice_ok hkeys choice
        have hannotated : drawn ∈ wallet.annotated := by
          have hplaced := (h drawn).mp (random_choice_mem hdrawn)
          rw [hnone] at hplaced
          exact hplaced.resolve_right List.not_mem_nil
        rw [hdrawn] at hget
        exact absurd hundone (not_undone_of_annotated hannotated hget hannotated)
      · intro hspare drawn taken hdrawn
        rw [hget] at hdrawn
        have hmem := random_choice_mem (Prod.mk.inj hdrawn).1
        obtain ⟨last, hlast', _⟩ := hspare (List.ne_nil_of_mem hmem)
        rw [hlast] at hlast'
        cases hlast'

-- A generated key is new, and a key is returned for the purpose that it is
-- annotated for.
def Careful (wallet : Wallet) : Call → Prop
  | .generate_key sk => sk.public_key.1 ∉ wallet.public_keys
  | .get_annotated_public_key _ _ => True
  | .restore_annotated_public_key public_key label =>
    ∀ purpose, (public_key, purpose) ∈ wallet.public_key_annotations → purpose = label

theorem partitioned_step (h : wallet.Partitioned) {call : Call} (hcareful : wallet.Careful call) :
    (wallet.step call).Partitioned := by
  cases call with
  | generate_key sk => exact generate_key_partitioned h hcareful rfl
  | get_annotated_public_key label choice =>
      cases hget : get_annotated_public_key label choice wallet with
      | mk result taken =>
          rw [step, hget]
          cases result with
          | ok public_key => exact get_annotated_public_key_partitioned h hget
          | error e =>
              cases hlast : wallet.unused_public_keys.getLast? with
              | none =>
                  rw [get_annotated_public_key_dry hlast] at hget
                  exact (Prod.mk.inj hget).2 ▸ h
              | some last =>
                  rw [get_annotated_public_key_spare hlast] at hget
                  cases (Prod.mk.inj hget).1
  | restore_annotated_public_key public_key label =>
      by_cases hannotated : public_key ∈ wallet.annotated
      · have hrun := restore_annotated_public_key_annotated hannotated label
        rw [step, hrun]
        exact restore_annotated_public_key_partitioned h hrun
      · rw [step, restore_annotated_public_key_unknown hannotated]
        exact h

-- An annotation stays until its key is returned for that very purpose.
theorem annotation_step {item : Bytes × String} (h : wallet.Partitioned) {call : Call}
    (hcareful : wallet.Careful call) (hitem : item ∈ wallet.public_key_annotations)
    (hcall : call ≠ .restore_annotated_public_key item.1 item.2) :
    item ∈ (wallet.step call).public_key_annotations := by
  cases call with
  | generate_key sk => exact hitem
  | get_annotated_public_key label choice =>
      cases hlast : wallet.unused_public_keys.getLast? with
      | none =>
          rw [step, get_annotated_public_key_dry hlast]
          exact hitem
      | some last =>
          have hnew : last ∉ wallet.annotated := fun hmem => h.apart last hmem (List.mem_of_getLast? hlast)
          rw [step, get_annotated_public_key_spare hlast]
          show item ∈ Dict.setItem wallet.public_key_annotations last label
          rw [Dict.setItem_new _ hnew]
          exact List.mem_append_left _ hitem
  | restore_annotated_public_key public_key label =>
      by_cases hannotated : public_key ∈ wallet.annotated
      · rw [step, restore_annotated_public_key_annotated hannotated]
        refine List.mem_filter.mpr ⟨hitem, ?_⟩
        have hne : item.1 ≠ public_key := by
          intro heq
          subst heq
          exact hcall (by rw [hcareful item.2 hitem])
        simpa using hne
      · rw [step, restore_annotated_public_key_unknown hannotated]
        exact hitem

theorem annotation_stays {item : Bytes × String} (h : wallet.Partitioned) {calls : List Call}
    (hcareful : Run.Each step Careful wallet calls) (hitem : item ∈ wallet.public_key_annotations)
    (hcalls : .restore_annotated_public_key item.1 item.2 ∉ calls) :
    item ∈ (Run.after step wallet calls).public_key_annotations ∧
      item.1 ∉ (Run.after step wallet calls).unused_public_keys := by
  induction calls generalizing wallet with
  | nil => exact ⟨hitem, h.apart item.1 (List.mem_map_of_mem hitem)⟩
  | cons call calls ih =>
      obtain ⟨hfirst, hrest⟩ := hcareful
      rw [List.mem_cons, not_or] at hcalls
      exact ih (partitioned_step h hfirst) hrest (annotation_step h hfirst hitem (Ne.symm hcalls.1)) hcalls.2

end Wallet

-- A reservation is undone by the return just when the pool of unused keys had
-- not run dry. Where keys are returned for what they are annotated for, no
-- other key becomes unused again.
theorem restore_undoes_reservation_iff (calls : List Wallet.Call) (label : String) (choice : Nat) :
    ((Wallet.after_calls calls).Undone label choice ↔ (Wallet.after_calls calls).Spare) ∧
    ∀ future, Run.Each Wallet.step Wallet.Careful .empty (calls ++ future) →
      ∀ item ∈ (Wallet.after_calls calls).public_key_annotations,
        .restore_annotated_public_key item.1 item.2 ∉ future →
          item ∈ (Wallet.after_calls (calls ++ future)).public_key_annotations ∧
            item.1 ∉ (Wallet.after_calls (calls ++ future)).unused_public_keys := by
  constructor
  · exact Wallet.undone_iff_spare (Wallet.after_calls_placed calls) label choice
  · intro future hcareful item hitem hfuture
    obtain ⟨hpast, hrest⟩ := Run.each_append.mp hcareful
    have hpartitioned : (Wallet.after_calls calls).Partitioned :=
      hpast.keeps Wallet.Partitioned (fun _ _ h hcall => Wallet.partitioned_step h hcall) Wallet.empty_partitioned
    rw [Wallet.after_calls, Run.after_append]
    exact Wallet.annotation_stays hpartitioned hrest hitem hfuture

section Samples

-- A wallet with two keys, the first of which has been annotated for change. The
-- miner is handed the other one and returns it.
def change_key : Bytes := sample_key.public_key.1

def mining_key : FixedBytes 64 := .ofNat 64 8

def two_keys : List Wallet.Call :=
  [.generate_key ⟨change_key, sample_key.public_key⟩, .get_annotated_public_key "change" 0,
    .generate_key ⟨mining_key.1, mining_key⟩]

def mining_pair : List Wallet.Call :=
  [.get_annotated_public_key "reserved for potentially mined block" 0,
    .restore_annotated_public_key mining_key.1 "reserved for potentially mined block"]

theorem restore_undoes_reservation_iff_mining :
    (Wallet.after_calls two_keys).Undone "reserved for potentially mined block" 0 ∧
      (change_key, "change") ∈ (Wallet.after_calls (two_keys ++ mining_pair)).public_key_annotations ∧
      change_key ∉ (Wallet.after_calls (two_keys ++ mining_pair)).unused_public_keys := by
  obtain ⟨hundone, hstays⟩ := restore_undoes_reservation_iff two_keys "reserved for potentially mined block" 0
  have hspare : (Wallet.after_calls two_keys).unused_public_keys.getLast? = some mining_key.1 ∧
      mining_key.1 ∉ (Wallet.after_calls two_keys).annotated := by
    decide +kernel
  have hcareful : Run.Each Wallet.step Wallet.Careful .empty (two_keys ++ mining_pair) := by
    have hnew : change_key ∉ Wallet.empty.public_keys ∧
        mining_key.1 ∉ (Wallet.after_calls (two_keys.take 2)).public_keys := by
      decide +kernel
    have hannotations : (Wallet.after_calls (two_keys ++ mining_pair.take 1)).public_key_annotations =
        [(change_key, "change"), (mining_key.1, "reserved for potentially mined block")] := by
      decide +kernel
    have hother : mining_key.1 ≠ change_key := by decide +kernel
    refine ⟨hnew.1, trivial, hnew.2, trivial, fun purpose hpurpose => ?_, trivial⟩
    have hmem : (mining_key.1, purpose) ∈
        (Wallet.after_calls (two_keys ++ mining_pair.take 1)).public_key_annotations := hpurpose
    rw [hannotations, List.mem_cons, List.mem_singleton, Prod.mk.injEq, Prod.mk.injEq] at hmem
    exact hmem.elim (fun hchange => absurd hchange.1 hother) fun hmining => hmining.2
  have hmem : (change_key, "change") ∈ (Wallet.after_calls two_keys).public_key_annotations := by decide +kernel
  have hunreturned : Wallet.Call.restore_annotated_public_key change_key "change" ∉ mining_pair := by
    simp [mining_pair]
  exact ⟨hundone.mpr fun _ => ⟨_, hspare⟩, hstays mining_pair hcareful (change_key, "change") hmem hunreturned⟩

-- A wallet with one key, which has been annotated for change.
def used_up : List Wallet.Call :=
  [.generate_key ⟨sample_key.public_key.1, sample_key.public_key⟩, .get_annotated_public_key "change" 0]

def sample_return : Wallet.Call :=
  .restore_annotated_public_key sample_key.public_key.1 "reserved for potentially mined block"

-- The miner's return of the key that it was handed makes it unused again.
theorem annotated_key_returned :
    ¬(Wallet.after_calls used_up).Undone "reserved for potentially mined block" 0 ∧
      (sample_key.public_key.1, "change") ∈ (Wallet.after_calls used_up).public_key_annotations ∧
      (Wallet.after_calls (used_up ++
        [.get_annotated_public_key "reserved for potentially mined block" 0, sample_return])).public_key_annotations =
          [] ∧
      (Wallet.after_calls (used_up ++
        [.get_annotated_public_key "reserved for potentially mined block" 0, sample_return])).unused_public_keys =
          [sample_key.public_key.1] := by
  refine ⟨?_, by decide +kernel, by decide +kernel, by decide +kernel⟩
  have hannotated : sample_key.public_key.1 ∈ (Wallet.after_calls used_up).annotated := by decide +kernel
  have hget : Wallet.get_annotated_public_key "reserved for potentially mined block" 0 (Wallet.after_calls used_up) =
      (.ok sample_key.public_key.1, Wallet.after_calls used_up) := by
    decide +kernel
  exact Wallet.not_undone_of_annotated hannotated hget hannotated

end Samples

end Skepticoin
