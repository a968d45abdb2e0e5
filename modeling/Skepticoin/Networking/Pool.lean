import Skepticoin.Chain
import Skepticoin.Datatypes.RoundTrip
import Skepticoin.Networking.Manager

namespace Skepticoin

open Guard FMap Effect

variable {crypto : Crypto}

-- A coinstate as its methods make it, whether or not the blocks are valid.
inductive CoinState.Built (crypto : Crypto) : CoinState → Prop
  | empty : Built crypto .empty
  | add {coinstate next : CoinState} {block : Block} :
    Built crypto coinstate → coinstate.add_block_no_validation crypto block = .ok next → Built crypto next

-- Where there is a current head, its unspent outputs are known.
theorem CoinState.Built.unspent {coinstate : CoinState} (hbuilt : CoinState.Built crypto coinstate) :
    ∀ h, coinstate.current_chain_hash = some h → h ∈ coinstate.unspent_transaction_outs_by_hash := by
  induction hbuilt with
  | empty =>
      intro h hcurrent
      cases hcurrent
  | @add coinstate next block _ hadd ih =>
      obtain ⟨_, _, hash, _, current, _, _, _, _, hcurrent, hnext⟩ :=
        CoinState.add_block_no_validation_eq_ok.mp hadd
      subst hnext
      intro h heq
      rw [← Option.some.inj heq, Finmap.mem_insert]
      unfold CoinState.next_current_chain_hash at hcurrent
      cases hprior : coinstate.current_chain_hash with
      | none =>
          rw [hprior] at hcurrent
          exact .inl (Except.ok.inj hcurrent).symm
      | some prior =>
          simp only [hprior] at hcurrent
          split_ifs at hcurrent with hparent
          · exact .inl (Except.ok.inj hcurrent).symm
          · simp only [bind_eq_ok, pure_eq_ok] at hcurrent
            obtain ⟨_, _, hchoice⟩ := hcurrent
            split_ifs at hchoice
            · exact .inl hchoice.symm
            · exact .inr (hchoice ▸ ih prior hprior)

section Validation

-- The verification answers yes or no.
def VerifyAnswers (crypto : Crypto) : Prop :=
  ∀ public_key signature message, ∃ valid, crypto.verify public_key signature message = .ok valid

theorem residue_answers : VerifyAnswers .residue := fun _ _ _ => ⟨_, rfl⟩

theorem signable_serialize_ok {transaction : Transaction} {bytes : Bytes}
    (h : transaction.serialize = .ok bytes) : ∃ message, transaction.signable_equivalent.serialize = .ok message := by
  obtain ⟨_, outputs, _, houtputs, _⟩ := transaction_serialize_eq_ok.mp h
  have hall : ∀ input ∈ transaction.signable_equivalent.inputs, ∃ bytes, input.stream_serialize = .ok bytes := by
    intro input hinput
    obtain ⟨original, _, heq⟩ := List.mem_map.mp hinput
    obtain ⟨reference, href⟩ := output_reference_serialize_ok original.output_reference
    exact ⟨_, input_serialize_eq_ok.mpr
      ⟨reference, .SignableEquivalent, TYPE_SIGNABLE_EQUIVALENT, heq ▸ href, heq ▸ rfl, rfl, rfl⟩⟩
  obtain ⟨inputs, hinputs⟩ := serialize_list_ok hall
  exact ⟨_, transaction_serialize_eq_ok.mpr ⟨inputs, outputs, hinputs, houtputs, rfl⟩⟩

-- A transaction that is in order by itself is refused at a head in one way
-- only.
theorem validate_at_head_raises (hverify : VerifyAnswers crypto) {transaction : Transaction}
    (hself : validate_non_coinbase_transaction_by_itself transaction = .ok ()) {coinstate : CoinState}
    {h : Hash} (hunspent : h ∈ coinstate.unspent_transaction_outs_by_hash) :
    RaisesOnly PyError.is_validate_transaction_error
      (validate_non_coinbase_transaction_in_coinstate crypto transaction h coinstate) := by
  obtain ⟨_, _, ⟨bytes, hbytes, _⟩, _, _, _, hinputs⟩ :=
    validate_non_coinbase_transaction_by_itself_eq_ok.mp hself
  obtain ⟨message, hmessage⟩ := signable_serialize_ok hbytes
  obtain ⟨m, hm⟩ := Finmap.mem_iff.mp hunspent
  have hspend : ∀ input ∈ transaction.inputs,
      RaisesOnly PyError.is_validate_transaction_error (validate_spend crypto m transaction input) := by
    intro input hin
    obtain ⟨_, signature, hsome, hreal⟩ := validate_non_coinbase_input_eq_ok.mp (hinputs input hin)
    unfold validate_spend
    cases m.lookup input.output_reference with
    | none => exact RaisesOnly.error rfl
    | some output =>
        cases signature with
        | SignableEquivalent => cases hreal
        | CoinbaseData data => cases hreal
        | SECP256k1Signature signature =>
            obtain ⟨valid, hvalid⟩ := hverify output.public_key.public_key signature message
            refine RaisesOnly.bind ?_ fun _ _ => RaisesOnly.ok rfl
            rw [validate_signature_for_spend, hmessage, hsome]
            show RaisesOnly _ (crypto.verify output.public_key.public_key signature message >>= fun valid =>
              raiseIf (¬valid) (.ValidateTransactionError "Wrong signature for claimed output"))
            exact (RaisesOnly.ok hvalid).bind fun _ _ => RaisesOnly.raiseIf rfl
  refine (RaisesOnly.ok (getItem_eq_ok.mpr hm)).bind fun m' hm' => ?_
  have hsame : m = m' := Option.some.inj (hm.symm.trans (getItem_eq_ok.mp hm'))
  subst hsame
  exact (RaisesOnly.collect hspend).bind fun _ _ => RaisesOnly.raiseIf rfl

end Validation

section Pool

-- What of the pool no coinstate can change.
structure PoolOrderly (manager : ChainManager) : Prop where
  by_itself : ∀ t ∈ manager.transaction_pool, validate_non_coinbase_transaction_by_itself t = .ok ()
  distinct : (manager.transaction_pool.flatMap output_references).Nodup

structure PoolValid (crypto : Crypto) (manager : ChainManager) : Prop extends PoolOrderly manager where
  in_coinstate : ∀ h, manager.coinstate.current_chain_hash = some h → ∀ t ∈ manager.transaction_pool,
    validate_non_coinbase_transaction_in_coinstate crypto t h manager.coinstate = .ok ()

theorem PoolOrderly.sublist {manager : ChainManager} {pool : List Transaction} (h : PoolOrderly manager)
    (hsub : List.Sublist pool manager.transaction_pool) :
    PoolOrderly { manager with transaction_pool := pool } :=
  ⟨fun t ht => h.by_itself t (hsub.subset ht), (hsub.flatMap output_references).nodup h.distinct⟩

-- The check that is repeated for a head does not raise for a pooled
-- transaction, so that the pool is filtered.
theorem cleanup_spec (hverify : VerifyAnswers crypto) :
    Spec (fun self => PoolOrderly self ∧ CoinState.Built crypto self.coinstate)
      (ChainManager.cleanup_transaction_pool_for_coinstate crypto)
      fun _ self => PoolValid crypto self := by
  apply Spec.read
  intro before
  apply Spec.raw_bind
  · intro pool hkeep
    apply Spec.change
    rintro self ⟨⟨horderly, _⟩, rfl⟩
    refine ⟨horderly.sublist (keepIf_sublist hkeep), ?_⟩
    intro h hcurrent t ht
    have hvalid := succeeds_eq_ok_true.mp (keepIf_mem hkeep ht)
    rw [ChainManager.validate_in_current_coinstate, hcurrent] at hvalid
    exact hvalid
  · rintro e hkeep self ⟨⟨horderly, hbuilt⟩, rfl⟩
    refine ⟨horderly, ?_⟩
    intro h hcurrent
    exfalso
    obtain ⟨t, ht, hraise⟩ := keepIf_error hkeep
    obtain ⟨hcheck, hkind⟩ := succeeds_error hraise
    rw [ChainManager.validate_in_current_coinstate, hcurrent] at hcheck
    have hself := horderly.by_itself t ht
    have hcaught := validate_at_head_raises hverify hself (hbuilt.unspent h hcurrent) e hcheck
    rw [hkind] at hcaught
    cases hcaught

theorem set_coinstate_spec (hverify : VerifyAnswers crypto) {coinstate : CoinState}
    (hbuilt : CoinState.Built crypto coinstate) (validated : Bool) :
    Spec (PoolValid crypto) (ChainManager.set_coinstate crypto coinstate validated)
      fun _ => PoolValid crypto := by
  unfold ChainManager.set_coinstate
  refine Spec.change_bind (fun self => PoolOrderly self ∧ CoinState.Built crypto self.coinstate)
    ?_ ?_
  · intro self h
    exact ⟨⟨h.by_itself, h.distinct⟩, hbuilt⟩
  · refine Spec.bind (cleanup_spec hverify) ?_ fun _ _ h => h
    intro _
    apply Spec.ite
    · intro _
      apply Spec.change
      intro self h
      exact ⟨⟨h.by_itself, h.distinct⟩, h.in_coinstate⟩
    · intro _ self h
      exact h

-- What is tried before a transaction is taken covers the whole invariant.
theorem PoolValid.append {manager : ChainManager} {transaction : Transaction} (h : PoolValid crypto manager)
    (hvalid : manager.validate_for_pool crypto transaction = .ok ()) :
    PoolValid crypto { manager with transaction_pool := manager.transaction_pool ++ [transaction] } := by
  simp only [ChainManager.validate_for_pool, bind_eq_ok] at hvalid
  obtain ⟨_, hself, _, hcurrent, hdistinct⟩ := hvalid
  refine ⟨⟨?_, (noRepeat_eq_ok.mp hdistinct).1⟩, ?_⟩
  · intro t ht
    cases List.mem_append.mp ht with
    | inl hold => exact h.by_itself t hold
    | inr hnew => exact List.mem_singleton.mp hnew ▸ hself
  · intro hash hhash t ht
    cases List.mem_append.mp ht with
    | inl hold => exact h.in_coinstate hash hhash t hold
    | inr hnew =>
        have hhash' : manager.coinstate.current_chain_hash = some hash := hhash
        rw [ChainManager.validate_in_current_coinstate, hhash'] at hcurrent
        exact List.mem_singleton.mp hnew ▸ hcurrent

theorem add_transaction_to_pool_spec (transaction : Transaction) :
    Spec (PoolValid crypto) (ChainManager.add_transaction_to_pool crypto transaction)
      fun _ => PoolValid crypto := by
  apply Spec.read
  intro before
  refine Spec.raw_bind ?_ fun _ _ _ h => h.1
  intro _ _
  refine Spec.raw_bind ?_ fun _ _ _ h => h.1
  intro valid hvalid
  cases valid with
  | true =>
      have hpassed := succeeds_eq_ok_true.mp hvalid
      rw [if_pos rfl]
      refine Spec.change_bind (PoolValid crypto) ?_ ?_
      · rintro self ⟨h, rfl⟩
        exact h.append hpassed
      · intro self h
        exact h
  | false => exact Spec.raw_bind (fun _ _ _ h => h.1) fun _ _ _ h => h.1

inductive PoolCall where
  | add_transaction_to_pool (transaction : Transaction)
  | set_coinstate (coinstate : CoinState) (validated : Bool)

def PoolCall.run (crypto : Crypto) : PoolCall → Action ChainManager PyError Unit
  | .add_transaction_to_pool transaction => do
    let _ ← ChainManager.add_transaction_to_pool crypto transaction
    pure ()
  | .set_coinstate coinstate validated => ChainManager.set_coinstate crypto coinstate validated

def PoolCall.Built (crypto : Crypto) : PoolCall → Prop
  | .add_transaction_to_pool _ => True
  | .set_coinstate coinstate _ => CoinState.Built crypto coinstate

theorem pool_call_spec (hverify : VerifyAnswers crypto) {call : PoolCall} (hbuilt : call.Built crypto) :
    Spec (PoolValid crypto) (call.run crypto) fun _ => PoolValid crypto := by
  cases call with
  | add_transaction_to_pool transaction =>
      exact Spec.bind (add_transaction_to_pool_spec transaction) (fun _ _ h => h) fun _ _ h => h
  | set_coinstate coinstate validated => exact set_coinstate_spec hverify hbuilt validated

theorem pool_valid_empty {manager : ChainManager} (hempty : manager.transaction_pool = []) :
    PoolValid crypto manager := by
  refine ⟨⟨?_, ?_⟩, ?_⟩
  · simp [hempty]
  · simp [hempty]
  · simp [hempty]

theorem pool_valid_calls (hverify : VerifyAnswers crypto) {manager : ChainManager} (hvalid : PoolValid crypto manager)
    {pool_calls : List PoolCall} (hbuilt : ∀ call ∈ pool_calls, call.Built crypto) :
    PoolValid crypto (calls (pool_calls.map (PoolCall.run crypto)) manager) := by
  apply Spec.calls
  · intro x hx
    obtain ⟨call, hcall, hrun⟩ := List.mem_map.mp hx
    exact hrun ▸ pool_call_spec hverify (hbuilt call hcall)
  · exact hvalid

-- Whatever calls are made, and whether they return or raise.
theorem pool_stays_valid (hverify : VerifyAnswers crypto) (manager : ChainManager)
    (hempty : manager.transaction_pool = []) (pool_calls : List PoolCall)
    (hbuilt : ∀ call ∈ pool_calls, call.Built crypto) :
    PoolValid crypto (calls (pool_calls.map (PoolCall.run crypto)) manager) :=
  pool_valid_calls hverify (pool_valid_empty hempty) hbuilt

theorem sample_built : CoinState.Built .residue sample_coinstate ∧ CoinState.Built .residue sample_coinstate_first := by
  obtain ⟨_, hadd, _, _, _, hadd', _⟩ := sample_runs
  have hfirst : CoinState.Built .residue sample_coinstate := .add .empty hadd
  exact ⟨hfirst, .add hfirst hadd'⟩

-- A spend of the head's coinbase is pooled, and the chain rolled back and
-- extended again.
theorem pool_stays_valid_rollback :
    PoolValid .residue (calls ([.add_transaction_to_pool sample_spend, .set_coinstate sample_coinstate true,
      .set_coinstate sample_coinstate_first false].map (PoolCall.run .residue))
      ⟨sample_coinstate_first, [], none⟩) := by
  refine pool_stays_valid residue_answers _ rfl _ ?_
  intro call hcall
  simp only [List.mem_cons, List.not_mem_nil, or_false] at hcall
  rcases hcall with rfl | rfl | rfl
  · trivial
  · exact sample_built.1
  · exact sample_built.2

-- The same spend, when the coinstate is then set to the empty one.
def headless : ChainManager :=
  calls ([.add_transaction_to_pool sample_spend, .set_coinstate .empty true].map (PoolCall.run .residue))
    ⟨sample_coinstate_first, [], none⟩

theorem headless_pool_kept :
    sample_spend ∈ headless.transaction_pool ∧
    ¬∃ h, headless.coinstate.current_chain_hash = some h ∧
      validate_non_coinbase_transaction_in_coinstate .residue sample_spend h headless.coinstate = .ok () := by
  have hpool : headless.transaction_pool = [sample_spend] := by decide +kernel
  have hcurrent : headless.coinstate.current_chain_hash = none := by decide +kernel
  refine ⟨by simp [hpool], ?_⟩
  intro hvalid
  obtain ⟨h, hsome, _⟩ := hvalid
  rw [hcurrent] at hsome
  cases hsome

end Pool

end Skepticoin
