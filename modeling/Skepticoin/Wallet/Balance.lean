import Skepticoin.Balances.PublicKeys
import Skepticoin.Wallet

namespace Skepticoin

open Guard FMap Effect

variable {crypto : Crypto}

namespace Wallet

section Hex

theorem hexValue_digitChar {n : Nat} (h : n < 16) : hexValue (Nat.digitChar n) = some n := by
  interval_cases n <;> rfl

theorem unhexlify_digits (bytes : Bytes) :
    unhexlify (bytes.flatMap fun b => [Nat.digitChar (b.toNat / 16), Nat.digitChar (b.toNat % 16)]) = .ok bytes := by
  induction bytes with
  | nil => rfl
  | cons b bytes ih =>
      have hlt := b.toNat_lt
      have hhigh : hexValue (Nat.digitChar (b.toNat / 16)) = some (b.toNat / 16) := hexValue_digitChar (by omega)
      have hlow : hexValue (Nat.digitChar (b.toNat % 16)) = some (b.toNat % 16) := hexValue_digitChar (by omega)
      have hbyte : UInt8.ofNat (16 * (b.toNat / 16) + b.toNat % 16) = b := by
        rw [Nat.div_add_mod, UInt8.ofNat_toNat]
      rw [List.flatMap_cons, List.cons_append, List.cons_append, List.nil_append, unhexlify, hhigh, hlow]
      simp [ih, hbyte]

theorem computer_human (bytes : Bytes) : computer (human bytes) = .ok bytes := by
  rw [computer, human, String.toList_ofList, unhexlify_digits]

theorem human_injective : Function.Injective human := by
  intro a b h
  have hsame := computer_human a
  rw [h, computer_human] at hsame
  exact (Except.ok.inj hsame).symm

end Hex

def annotated (wallet : Wallet) : List Bytes := wallet.public_key_annotations.map Prod.fst

-- What each call does, by what it finds.
section Calls

variable {wallet : Wallet} {public_key : Bytes}

theorem get_annotated_public_key_spare (h : wallet.unused_public_keys.getLast? = some public_key)
    (label : String) (choice : Nat) :
    get_annotated_public_key label choice wallet = (.ok public_key, { wallet with
      unused_public_keys := wallet.unused_public_keys.dropLast
      public_key_annotations := Dict.setItem wallet.public_key_annotations public_key label }) := by
  rw [get_annotated_public_key, bind_run_ok (read_run wallet), h]
  rfl

theorem get_annotated_public_key_dry (h : wallet.unused_public_keys.getLast? = none) (label : String)
    (choice : Nat) :
    get_annotated_public_key label choice wallet = (random_choice choice wallet.public_keys, wallet) := by
  rw [get_annotated_public_key, bind_run_ok (read_run wallet), h]
  rfl

theorem restore_annotated_public_key_annotated (h : public_key ∈ wallet.annotated) (label : String) :
    restore_annotated_public_key public_key label wallet = (.ok (), { wallet with
      public_key_annotations := wallet.public_key_annotations.filter fun item => item.1 ≠ public_key
      unused_public_keys := wallet.unused_public_keys ++ [public_key] }) := by
  have hdelete : Dict.delItem PyError.KeyError wallet.public_key_annotations public_key =
      .ok (wallet.public_key_annotations.filter fun item => item.1 ≠ public_key) :=
    Dict.delItem_eq_ok.mpr ⟨h, rfl⟩
  rw [restore_annotated_public_key, bind_run_ok (read_run wallet), hdelete]
  rfl

theorem restore_annotated_public_key_unknown (h : public_key ∉ wallet.annotated) (label : String) :
    restore_annotated_public_key public_key label wallet = (.error .KeyError, wallet) := by
  have hdelete : Dict.delItem PyError.KeyError wallet.public_key_annotations public_key = .error .KeyError :=
    if_neg h
  rw [restore_annotated_public_key, bind_run_ok (read_run wallet), hdelete]
  rfl

theorem annotated_without (wallet : Wallet) (public_key : Bytes) :
    (wallet.public_key_annotations.filter fun item => item.1 ≠ public_key).map Prod.fst =
      wallet.annotated.filter fun key => key ≠ public_key := by
  rw [annotated, List.filter_map]
  rfl

end Calls

-- A wallet as its methods make it. The keys that are generated are fresh, and
-- those that are restored are annotated.
inductive Reached : Wallet → Prop
  | empty : Reached .empty
  | generate_key {wallet after : Wallet} {sk : SigningKey} : Reached wallet → sk.public_key.1 ∉ wallet.public_keys →
    generate_key sk wallet = (.ok (), after) → Reached after
  | get_annotated_public_key {wallet after : Wallet} {label : String} {choice : Nat} {public_key : Bytes} :
    Reached wallet → get_annotated_public_key label choice wallet = (.ok public_key, after) → Reached after
  | restore_annotated_public_key {wallet after : Wallet} {label : String} {public_key : Bytes} :
    Reached wallet → public_key ∈ wallet.public_key_annotations.map Prod.fst →
    restore_annotated_public_key public_key label wallet = (.ok (), after) → Reached after
  | dump_and_load {wallet after : Wallet} : Reached wallet → load wallet.dump = .ok after → Reached after

-- Every key is either annotated or unused, and not both.
structure Partitioned (wallet : Wallet) : Prop where
  keypairs_once : wallet.public_keys.Nodup
  annotated_once : (wallet.public_key_annotations.map Prod.fst).Nodup
  unused_once : wallet.unused_public_keys.Nodup
  apart : ∀ public_key ∈ wallet.public_key_annotations.map Prod.fst, public_key ∉ wallet.unused_public_keys
  together : ∀ public_key, public_key ∈ wallet.public_keys ↔
    public_key ∈ wallet.public_key_annotations.map Prod.fst ∨ public_key ∈ wallet.unused_public_keys
  width : ∀ public_key ∈ wallet.public_keys, public_key.length = 64

variable {wallet after : Wallet}

theorem empty_partitioned : Partitioned .empty where
  keypairs_once := List.nodup_nil
  annotated_once := List.nodup_nil
  unused_once := List.nodup_nil
  apart := fun _ hnone => absurd hnone List.not_mem_nil
  together := by simp [empty, public_keys]
  width := fun _ hnone => absurd hnone List.not_mem_nil

theorem generate_key_partitioned (h : Partitioned wallet) {sk : SigningKey}
    (hfresh : sk.public_key.1 ∉ wallet.public_keys) (hrun : generate_key sk wallet = (.ok (), after)) :
    Partitioned after := by
  obtain ⟨_, rfl⟩ := Prod.mk.inj hrun
  have hkeys : (Dict.setItem wallet.keypairs sk.public_key.1 sk.private_key).map Prod.fst =
      wallet.public_keys ++ [sk.public_key.1] := by
    rw [Dict.setItem_new _ hfresh, List.map_append]
    rfl
  obtain ⟨hannotated, hunused⟩ := not_or.mp fun hmem => hfresh ((h.together _).mpr hmem)
  constructor
  · show ((Dict.setItem wallet.keypairs sk.public_key.1 sk.private_key).map Prod.fst).Nodup
    rw [hkeys]
    exact h.keypairs_once.append (List.nodup_singleton _) (by simpa using hfresh)
  · exact h.annotated_once
  · exact h.unused_once.append (List.nodup_singleton _) (by simpa using hunused)
  · intro public_key hpublic hmem
    cases List.mem_append.mp hmem with
    | inl hold => exact h.apart public_key hpublic hold
    | inr hnew => exact hannotated (List.mem_singleton.mp hnew ▸ hpublic)
  · intro public_key
    show public_key ∈ (Dict.setItem wallet.keypairs sk.public_key.1 sk.private_key).map Prod.fst ↔ _
    rw [hkeys, List.mem_append, h.together, List.mem_append, or_assoc]
  · intro public_key hmem
    have hmem' : public_key ∈ (Dict.setItem wallet.keypairs sk.public_key.1 sk.private_key).map Prod.fst := hmem
    rw [hkeys] at hmem'
    cases List.mem_append.mp hmem' with
    | inl hold => exact h.width public_key hold
    | inr hnew => rw [List.mem_singleton.mp hnew, sk.public_key.2]

theorem get_annotated_public_key_partitioned (h : Partitioned wallet) {label : String} {choice : Nat}
    {public_key : Bytes} (hrun : get_annotated_public_key label choice wallet = (.ok public_key, after)) :
    Partitioned after := by
  cases hlast : wallet.unused_public_keys.getLast? with
  | none =>
      rw [get_annotated_public_key_dry hlast] at hrun
      have hsame : wallet = after := (Prod.mk.inj hrun).2
      exact hsame ▸ h
  | some last =>
      rw [get_annotated_public_key_spare hlast] at hrun
      obtain ⟨_, rfl⟩ := Prod.mk.inj hrun
      have hsplit : wallet.unused_public_keys = wallet.unused_public_keys.dropLast ++ [last] :=
        (List.dropLast_append_getLast? last hlast).symm
      have hunused := h.unused_once
      rw [hsplit] at hunused
      have hlastUnused : last ∈ wallet.unused_public_keys := List.mem_of_getLast? hlast
      have hnew : last ∉ wallet.public_key_annotations.map Prod.fst := fun hmem => h.apart last hmem hlastUnused
      have hgone : last ∉ wallet.unused_public_keys.dropLast := by
        intro hmem
        exact (List.nodup_append.mp hunused).2.2 last hmem last (List.mem_singleton_self last) rfl
      have hannotated : (Dict.setItem wallet.public_key_annotations last label).map Prod.fst =
          wallet.public_key_annotations.map Prod.fst ++ [last] := by
        rw [Dict.setItem_new _ hnew, List.map_append]
        rfl
      constructor
      · exact h.keypairs_once
      · show ((Dict.setItem wallet.public_key_annotations last label).map Prod.fst).Nodup
        rw [hannotated]
        exact h.annotated_once.append (List.nodup_singleton _) (by simpa using hnew)
      · exact (List.nodup_append.mp hunused).1
      · intro public_key hpublic
        have hpublic' : public_key ∈ (Dict.setItem wallet.public_key_annotations last label).map Prod.fst :=
          hpublic
        rw [hannotated] at hpublic'
        cases List.mem_append.mp hpublic' with
        | inl hold => exact fun hmem => h.apart public_key hold (List.mem_of_mem_dropLast hmem)
        | inr hself => exact List.mem_singleton.mp hself ▸ hgone
      · intro public_key
        show _ ↔ public_key ∈ (Dict.setItem wallet.public_key_annotations last label).map Prod.fst ∨
          public_key ∈ wallet.unused_public_keys.dropLast
        have htogether := h.together public_key
        rw [hsplit] at htogether
        rw [hannotated]
        simp only [List.mem_append, List.mem_singleton] at htogether ⊢
        have hkeys : public_key ∈ wallet.public_keys ↔ _ := htogether
        tauto
      · exact h.width

theorem restore_annotated_public_key_partitioned (h : Partitioned wallet) {label : String} {public_key : Bytes}
    (hrun : restore_annotated_public_key public_key label wallet = (.ok (), after)) : Partitioned after := by
  by_cases hannotated : public_key ∈ wallet.annotated
  · rw [restore_annotated_public_key_annotated hannotated] at hrun
    obtain ⟨_, rfl⟩ := Prod.mk.inj hrun
    have hunused := h.apart public_key hannotated
    constructor
    · exact h.keypairs_once
    · show ((wallet.public_key_annotations.filter fun item => item.1 ≠ public_key).map Prod.fst).Nodup
      rw [annotated_without]
      exact h.annotated_once.filter _
    · exact h.unused_once.append (List.nodup_singleton _) (by simpa using hunused)
    · intro key hkey hmem
      have hkey' : key ∈ (wallet.public_key_annotations.filter fun item => item.1 ≠ public_key).map Prod.fst := hkey
      rw [annotated_without, List.mem_filter] at hkey'
      cases List.mem_append.mp hmem with
      | inl hold => exact h.apart key hkey'.1 hold
      | inr hself => simp [List.mem_singleton.mp hself] at hkey'
    · intro key
      show key ∈ wallet.public_keys ↔
        key ∈ (wallet.public_key_annotations.filter fun item => item.1 ≠ public_key).map Prod.fst ∨
          key ∈ wallet.unused_public_keys ++ [public_key]
      rw [annotated_without, h.together, List.mem_filter, List.mem_append, List.mem_singleton]
      by_cases hself : key = public_key
      · exact ⟨fun _ => .inr (.inr hself), fun _ => .inl (hself ▸ hannotated)⟩
      · simp [hself, annotated]
    · exact h.width
  · rw [restore_annotated_public_key_unknown hannotated] at hrun
    cases (Prod.mk.inj hrun).1

-- What is dumped comes back, but for what has been spent.
theorem load_dump (h : Partitioned wallet) :
    load wallet.dump = .ok { wallet with spent_transaction_outputs := ∅ } := by
  have hkeypairs : wallet.dump.keypairs = wallet.keypairs.map fun item => (human item.1, human item.2) := by
    apply Dict.ofItems_of_nodup
    have hmap := h.keypairs_once.map human_injective
    rw [public_keys, List.map_map] at hmap
    rw [List.map_map]
    exact hmap
  have hannotations : wallet.dump.public_key_annotations =
      wallet.public_key_annotations.map fun item => (human item.1, item.2) := by
    apply Dict.ofItems_of_nodup
    have hmap := h.annotated_once.map human_injective
    rw [List.map_map] at hmap
    rw [List.map_map]
    exact hmap
  simp only [load, bind_eq_ok, pure_eq_ok, collect_eq_ok]
  refine ⟨wallet.keypairs, ?_, wallet.unused_public_keys, ?_, wallet.public_key_annotations, ?_, ?_⟩
  · rw [hkeypairs, List.forall₂_map_left_iff, List.forall₂_same]
    intro item _
    simp [computer_human]
  · rw [dump, List.forall₂_map_left_iff, List.forall₂_same]
    exact fun public_key _ => computer_human public_key
  · rw [hannotations, List.forall₂_map_left_iff, List.forall₂_same]
    intro item _
    simp [computer_human]
  · rw [Dict.ofItems_of_nodup h.keypairs_once, Dict.ofItems_of_nodup h.annotated_once]

theorem Reached.partitioned (h : Reached wallet) : Partitioned wallet := by
  induction h with
  | empty => exact empty_partitioned
  | generate_key _ hfresh hrun ih => exact generate_key_partitioned ih hfresh hrun
  | get_annotated_public_key _ hrun ih => exact get_annotated_public_key_partitioned ih hrun
  | restore_annotated_public_key _ _ hrun ih => exact restore_annotated_public_key_partitioned ih hrun
  | dump_and_load _ hload ih =>
      rw [load_dump ih] at hload
      obtain rfl := Except.ok.inj hload
      exact ⟨ih.keypairs_once, ih.annotated_once, ih.unused_once, ih.apart, ih.together, ih.width⟩

theorem public_key_of_bytes {key : SECP256k1PublicKey} {public_key : Bytes} (h : key.public_key.1 = public_key)
    (hlength : public_key.length = 64) : key = ⟨⟨public_key, hlength⟩⟩ := by
  subst h
  rfl

-- What an output pays to any of some keys.
def paidToAny (public_keys : List Bytes) (output : Output) : Nat :=
  if output.public_key.public_key.1 ∈ public_keys then output.value else 0

-- A coinstate whose balances, at its head, are those of its unspent outputs.
structure BalancesMatch (crypto : Crypto) (coinstate : CoinState) (turns : Nat) (m : UnspentTransactionOuts)
    (balances : Balances) : Prop where
  unspent : coinstate.unspent_transaction_outs_at_head = .ok m
  computed : coinstate.public_key_balances crypto turns = .ok balances
  matching : Matches m balances

variable {coinstate : CoinState} {turns : Nat} {m : UnspentTransactionOuts} {balances : Balances}

-- A chain whose blocks spend what is unspent has such balances at its head.
theorem balances_match_at_head {h : Hash} {branch : List Block} (hcurrent : coinstate.current_chain_hash = some h)
    (hbranch : Branch crypto coinstate h branch) (hspends : ∀ block ∈ branch, SpendsUnspent coinstate block)
    (hdistinct : (chainTransactions branch).Pairwise fun a b => a.hash crypto ≠ b.hash crypto) :
    ∃ m balances, coinstate.unspent_transaction_outs_by_hash.lookup h = some m ∧
      ∀ turns, branch.length ≤ turns → BalancesMatch crypto coinstate turns m balances := by
  obtain ⟨m, balances, hunspent, hrun, hmatches⟩ := public_key_balances_at_branch hbranch hspends hdistinct
  refine ⟨m, balances, hunspent, ?_⟩
  intro turns hturns
  refine ⟨?_, ?_, hmatches⟩
  · rw [CoinState.unspent_transaction_outs_at_head, hcurrent]
    exact getItem_eq_ok.mpr hunspent
  · rw [CoinState.public_key_balances, hcurrent]
    exact hrun turns hturns

theorem sum_balances (h : BalancesMatch crypto coinstate turns m balances) {public_keys : List Bytes}
    (honce : public_keys.Nodup) (hwidth : ∀ public_key ∈ public_keys, public_key.length = 64) :
    ∃ values, collect (fun pk => do
        let public_key_balances ← coinstate.public_key_balances crypto turns
        let public_key ← SECP256k1PublicKey.new pk
        return (balanceOf public_key_balances public_key).value) public_keys = .ok values ∧
      values.sum = total (paidToAny public_keys) m := by
  induction public_keys with
  | nil =>
      refine ⟨[], rfl, ?_⟩
      have hzero : paidToAny [] = fun _ => 0 := rfl
      simp [hzero, total]
  | cons public_key public_keys ih =>
      rw [List.nodup_cons] at honce
      obtain ⟨values, hvalues, hsum⟩ := ih honce.2 fun key hkey => hwidth key (List.mem_cons_of_mem _ hkey)
      have hlength := hwidth public_key List.mem_cons_self
      have hbalance := (h.matching ⟨⟨public_key, hlength⟩⟩).value
      have hsplit : paidToAny (public_key :: public_keys) =
          fun output => paidTo ⟨⟨public_key, hlength⟩⟩ output + paidToAny public_keys output := by
        funext output
        unfold paidToAny paidTo
        by_cases hself : output.public_key.public_key.1 = public_key
        · have hkey := public_key_of_bytes hself hlength
          rw [if_pos (hself ▸ List.mem_cons_self), if_pos hkey, if_neg (hself ▸ honce.1), Nat.add_zero]
        · have hkey : output.public_key ≠ ⟨⟨public_key, hlength⟩⟩ := fun heq => hself (by rw [heq])
          rw [if_neg hkey, Nat.zero_add]
          simp only [List.mem_cons, hself, false_or]
      refine ⟨(balanceOf balances ⟨⟨public_key, hlength⟩⟩).value :: values, ?_, ?_⟩
      · rw [collect_eq_ok] at hvalues ⊢
        refine .cons ?_ hvalues
        simp [h.computed, SECP256k1PublicKey.new, hlength]
      · rw [List.sum_cons, hsum, hbalance, hsplit, total_add]
        push_cast
        rfl

-- The wallet's balance is what is unspent and paid to one of its keys.
theorem balance_counts_spendable (hreached : Reached wallet) (h : BalancesMatch crypto coinstate turns m balances) :
    Partitioned wallet ∧
      wallet.get_balance crypto turns coinstate = .ok (total (paidToAny wallet.public_keys) m) := by
  have hpartitioned := hreached.partitioned
  refine ⟨hpartitioned, ?_⟩
  have hmem : ∀ public_key, public_key ∈ wallet.public_key_annotations.map Prod.fst ++ wallet.unused_public_keys ↔
      public_key ∈ wallet.public_keys := by
    intro public_key
    rw [List.mem_append, hpartitioned.together]
  have honce : (wallet.public_key_annotations.map Prod.fst ++ wallet.unused_public_keys).Nodup := by
    refine hpartitioned.annotated_once.append hpartitioned.unused_once ?_
    exact fun public_key hannotated hunused => hpartitioned.apart public_key hannotated hunused
  have hsame : paidToAny (wallet.public_key_annotations.map Prod.fst ++ wallet.unused_public_keys) =
      paidToAny wallet.public_keys := by
    funext output
    simp only [paidToAny, hmem]
  obtain ⟨values, hvalues, hsum⟩ := sum_balances h honce fun public_key hpublic =>
    hpartitioned.width public_key ((hmem public_key).mp hpublic)
  rw [← hsame, ← hsum]
  exact bind_eq_ok.mpr ⟨values, hvalues, rfl⟩

-- A wallet with the one key of the sample chain, which is its own private key.
def sample_wallet : Wallet := ((generate_key ⟨sample_key.public_key.1, sample_key.public_key⟩) .empty).2

-- The same wallet, its key handed out, taken back, dumped and loaded.
theorem sample_wallet_reached : Reached sample_wallet := by
  have hget : get_annotated_public_key "change" 0 sample_wallet = (.ok sample_key.public_key.1, { sample_wallet with
      unused_public_keys := [], public_key_annotations := [(sample_key.public_key.1, "change")] }) := by
    decide +kernel
  have hrestore : restore_annotated_public_key sample_key.public_key.1 "change" { sample_wallet with
      unused_public_keys := [], public_key_annotations := [(sample_key.public_key.1, "change")] } =
      (.ok (), sample_wallet) := by
    decide +kernel
  have hgenerated : Reached sample_wallet := .generate_key .empty List.not_mem_nil rfl
  have hannotated := Reached.get_annotated_public_key hgenerated hget
  have hrestored := Reached.restore_annotated_public_key hannotated List.mem_cons_self hrestore
  exact .dump_and_load hrestored (by decide +kernel)

theorem sample_balances_match : ∃ m balances, BalancesMatch .residue sample_coinstate_second 3 m balances := by
  obtain ⟨hbranch, hspends, hdistinct⟩ := sample_branch
  have hcurrent : sample_coinstate_second.current_chain_hash = some (sample_hash sample_second) := by
    decide +kernel
  obtain ⟨m, balances, _, hmatch⟩ := balances_match_at_head hcurrent hbranch hspends hdistinct
  exact ⟨m, balances, hmatch 3 (Nat.le_refl _)⟩

theorem balance_counts_spendable_sample :
    ∃ (m : UnspentTransactionOuts) (balances : Balances),
      BalancesMatch .residue sample_coinstate_second 3 m balances ∧ Partitioned sample_wallet ∧
      sample_wallet.get_balance .residue 3 sample_coinstate_second =
        .ok (total (paidToAny sample_wallet.public_keys) m) := by
  obtain ⟨m, balances, hmatch⟩ := sample_balances_match
  exact ⟨m, balances, hmatch, balance_counts_spendable sample_wallet_reached hmatch⟩

end Wallet

end Skepticoin
