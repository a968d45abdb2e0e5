import Skepticoin.Networking.Pool

namespace Skepticoin

open Guard FMap Effect Codec

variable {crypto : Crypto}

-- What has been decoded can be serialized again, if not into the same bytes.
section Decoded

theorem consumes_list {α : Type} {stream_serialize : α → Py Bytes} {stream_deserialize : Stream α}
    (h : Consumes stream_deserialize fun a used => stream_serialize a = .ok used) :
    Consumes (stream_deserialize_list stream_deserialize) fun lst _ =>
      ∃ bytes, stream_serialize_list stream_serialize lst = .ok bytes := by
  refine (consumes_vlq.bind fun n => h.times n).mono ?_
  rintro lst _ ⟨_, _, _, _, _, _, chunks, _, hchunks⟩
  apply serialize_list_ok
  intro a ha
  obtain ⟨bytes, _, hbytes⟩ := forall₂_mem_left hchunks ha
  exact ⟨bytes, hbytes⟩

theorem consumes_transaction :
    Consumes (Transaction.stream_deserialize crypto) fun transaction _ =>
      (∃ bytes, transaction.serialize = .ok bytes) ∧ ∃ hash, transaction.hash crypto = .ok hash := by
  refine (Consumes.bind (Consumes.traced ((consumes_safe_read 1).bind fun _ =>
    (Consumes.raw _).bind fun _ => (consumes_list consumes_input).bind fun inputs =>
      (consumes_list consumes_output).bind fun outputs => Consumes.pure (inputs, outputs)))
    fun result => Consumes.pure (Transaction.mk result.1.1 result.1.2
      (some (crypto.sha256d result.2)))).mono ?_
  rintro _ _ ⟨⟨_, _⟩, _, _, rfl, ⟨rfl, ⟨_, _⟩, _, _, rfl, rfl, _, _, _, rfl, _, inputs,
    _, _, rfl, ⟨first, hi⟩, outputs, _, _, rfl, ⟨second, ho⟩, rfl, rfl⟩, rfl, rfl⟩
  exact ⟨⟨_, transaction_serialize_eq_ok.mpr ⟨first, second, hi, ho, rfl⟩⟩, _, rfl⟩

theorem decoded_serializes {stream rest : Bytes} {transaction : Transaction}
    (h : Transaction.stream_deserialize crypto stream = .ok (transaction, rest)) :
    (∃ bytes, transaction.serialize = .ok bytes) ∧ ∃ hash, transaction.hash crypto = .ok hash := by
  obtain ⟨_, _, hdecoded⟩ := consumes_transaction _ _ _ h
  exact hdecoded

end Decoded

section Range

variable {transaction : Transaction} {bytes : Bytes}

def ValuesInRange (transaction : Transaction) : Prop :=
  (∀ value ∈ output_values transaction, 0 < value ∧ value ≤ MAX_SASHIMI) ∧
    (output_values transaction).sum ≤ MAX_SASHIMI

-- Either an earlier check fails, or the values are in range.
def RangeKept (transaction : Transaction) : Prop :=
  transaction.inputs = [] ∨ transaction.outputs = [] ∨
    (∃ bytes, transaction.serialize = .ok bytes ∧ MAX_BLOCK_SIZE < bytes.length) ∨ ValuesInRange transaction

theorem sum_values_pos (hne : transaction.outputs ≠ [])
    (hpos : ∀ value ∈ output_values transaction, 0 < value) : 0 < (output_values transaction).sum := by
  cases houtputs : transaction.outputs with
  | nil => exact absurd houtputs hne
  | cons output outputs =>
      have hfirst : 0 < output.value := hpos _ (by rw [output_values, houtputs]; exact List.mem_cons_self)
      rw [output_values, houtputs, List.map_cons, List.sum_cons]
      omega

-- The range is checked by a helper that raises the more general class.
theorem validate_by_itself_out_of_range (hbytes : transaction.serialize = .ok bytes)
    (h : ¬RangeKept transaction) :
    validate_non_coinbase_transaction_by_itself transaction = .error (.ValidationError "Value out of range.") := by
  unfold RangeKept at h
  push Not at h
  obtain ⟨hinputs, houtputs, hsize, hrange⟩ := h
  have hraise : ∀ value error, validate_sashimi_range value = .error error →
      error = .ValidationError "Value out of range." := by
    intro value error herror
    unfold validate_sashimi_range raiseIf at herror
    split_ifs at herror
    exact (Except.error.inj herror).symm
  have hi : ¬transaction.inputs.length = 0 := fun hzero => hinputs (List.length_eq_zero_iff.mp hzero)
  have ho : ¬transaction.outputs.length = 0 := fun hzero => houtputs (List.length_eq_zero_iff.mp hzero)
  have hs : ¬bytes.length > MAX_BLOCK_SIZE := Nat.not_lt.mpr (hsize bytes hbytes)
  have hpassed : ∀ {c : Prop} [Decidable c] {error : PyError}, ¬c → raiseIf c error = .ok () :=
    fun hc => raiseIf_eq_ok.mpr hc
  rw [validate_non_coinbase_transaction_by_itself, hpassed hi, hpassed ho, hbytes]
  show (raiseIf (bytes.length > MAX_BLOCK_SIZE) _ >>= _) = _
  rw [hpassed hs]
  show (checkAll validate_sashimi_range (output_values transaction) >>= _) = _
  cases hall : checkAll validate_sashimi_range (output_values transaction) with
  | error error =>
      obtain ⟨value, _, herror⟩ := checkAll_error hall
      rw [hraise value error herror]
      rfl
  | ok u =>
      have hvalues : ∀ value ∈ output_values transaction, 0 < value ∧ value ≤ MAX_SASHIMI := fun value hvalue =>
        validate_sashimi_range_eq_ok.mp (checkAll_eq_ok.mp hall value hvalue)
      have hsum : validate_sashimi_range (output_values transaction).sum =
          .error (.ValidationError "Value out of range.") := by
        unfold validate_sashimi_range raiseIf
        rw [if_pos fun hok => hrange ⟨hvalues, hok.2⟩]
      show (validate_sashimi_range (output_values transaction).sum >>= _) = _
      rw [hsum]
      rfl

-- The other checks raise what is caught.
theorem validate_by_itself_raises (hbytes : transaction.serialize = .ok bytes) (h : RangeKept transaction) :
    RaisesOnly PyError.is_validate_transaction_error
      (validate_non_coinbase_transaction_by_itself transaction) := by
  unfold validate_non_coinbase_transaction_by_itself
  refine (RaisesOnly.raiseIf rfl).bind fun _ hinputs => (RaisesOnly.raiseIf rfl).bind fun _ houtputs =>
    (RaisesOnly.ok hbytes).bind fun bytes' hbytes' => (RaisesOnly.raiseIf rfl).bind fun _ hsize => ?_
  rw [raiseIf_eq_ok] at hinputs houtputs hsize
  have hrange : ValuesInRange transaction := by
    obtain hnone | hnone | hlong | hrange := h
    · exact absurd (List.length_eq_zero_iff.mpr hnone) hinputs
    · exact absurd (List.length_eq_zero_iff.mpr hnone) houtputs
    · obtain ⟨bytes'', hbytes'', hlong⟩ := hlong
      rw [Except.ok.inj (hbytes'.symm.trans hbytes'')] at hsize
      exact absurd hlong hsize
    · exact hrange
  have hne : transaction.outputs ≠ [] := fun hnone => houtputs (List.length_eq_zero_iff.mpr hnone)
  have hvalues : checkAll validate_sashimi_range (output_values transaction) = .ok () :=
    checkAll_eq_ok.mpr fun value hvalue => validate_sashimi_range_eq_ok.mpr (hrange.1 value hvalue)
  have hsum : validate_sashimi_range (output_values transaction).sum = .ok () :=
    validate_sashimi_range_eq_ok.mpr ⟨sum_values_pos hne fun value hvalue => (hrange.1 value hvalue).1, hrange.2⟩
  refine (RaisesOnly.ok hvalues).bind fun _ _ => (RaisesOnly.ok hsum).bind fun _ _ =>
    (RaisesOnly.noRepeat rfl _ _).bind fun _ _ => RaisesOnly.checkAll fun input hinput => ?_
  obtain ⟨_, _, hserialized, _⟩ := transaction_serialize_eq_ok.mp hbytes
  obtain ⟨_, _, _, hall, _⟩ := serialize_list_eq_ok.mp hserialized
  obtain ⟨_, _, hown⟩ := forall₂_mem_left (collect_eq_ok.mp hall) hinput
  obtain ⟨_, signature, _, _, hsome, _⟩ := input_serialize_eq_ok.mp hown
  unfold validate_non_coinbase_input
  refine (RaisesOnly.raiseIf rfl).bind fun _ _ => ?_
  rw [hsome]
  exact RaisesOnly.raiseIf rfl

end Range

section Admission

-- What add_transaction_to_pool is to check.
structure Admissible (crypto : Crypto) (manager : ChainManager) (h : Hash) (transaction : Transaction) : Prop where
  by_itself : validate_non_coinbase_transaction_by_itself transaction = .ok ()
  in_coinstate : validate_non_coinbase_transaction_in_coinstate crypto transaction h manager.coinstate = .ok ()
  unshared : ∀ reference ∈ output_references transaction,
    reference ∉ manager.transaction_pool.flatMap output_references

-- The transaction is taken as a whole, or nothing happens.
def AdmittedOrRefused (crypto : Crypto) (manager : ChainManager) (h : Hash) (transaction : Transaction) : Prop :=
  (Admissible crypto manager h transaction →
    ChainManager.add_transaction_to_pool crypto transaction manager =
      (.ok true, { manager with transaction_pool := manager.transaction_pool ++ [transaction] })) ∧
  (¬Admissible crypto manager h transaction →
    ChainManager.add_transaction_to_pool crypto transaction manager = (.ok false, manager))

variable {manager : ChainManager} {h : Hash} {transaction : Transaction}

theorem validate_for_pool_eq_ok (hcurrent : manager.coinstate.current_chain_hash = some h)
    (hpool : (manager.transaction_pool.flatMap output_references).Nodup) :
    manager.validate_for_pool crypto transaction = .ok () ↔ Admissible crypto manager h transaction := by
  simp only [ChainManager.validate_for_pool, ChainManager.validate_in_current_coinstate, hcurrent, bind_eq_ok,
    validate_no_duplicate_output_references_in_transactions, noRepeat_eq_ok, List.flatMap_append,
    List.flatMap_singleton, List.nodup_append]
  constructor
  · rintro ⟨_, hself, _, hvalid, ⟨_, _, hdisjoint⟩, _⟩
    exact ⟨hself, hvalid, fun reference href hin => hdisjoint reference hin reference href rfl⟩
  · rintro ⟨hself, hvalid, hunshared⟩
    have hown := (validate_non_coinbase_transaction_by_itself_eq_ok.mp hself).2.2.2.2.2.1
    refine ⟨(), hself, (), hvalid, ⟨hpool, hown, ?_⟩, by simp⟩
    rintro reference hin _ href rfl
    exact hunshared reference href hin

theorem validate_for_pool_raises (hverify : VerifyAnswers crypto)
    (hcurrent : manager.coinstate.current_chain_hash = some h)
    (hunspent : h ∈ manager.coinstate.unspent_transaction_outs_by_hash)
    (hself : RaisesOnly PyError.is_validate_transaction_error
      (validate_non_coinbase_transaction_by_itself transaction)) :
    RaisesOnly PyError.is_validate_transaction_error (manager.validate_for_pool crypto transaction) := by
  unfold ChainManager.validate_for_pool ChainManager.validate_in_current_coinstate
  rw [hcurrent]
  refine hself.bind fun _ hok => ?_
  exact (validate_at_head_raises hverify hok hunspent).bind fun _ _ => RaisesOnly.noRepeat rfl _ _

-- The three ways in which the call ends.
theorem add_transaction_to_pool_run {bytes : Bytes} {hash : Hash} (hhash : transaction.hash crypto = .ok hash)
    (hbytes : transaction.serialize = .ok bytes) {outcome : Py Bool}
    (houtcome : succeeds PyError.is_validate_transaction_error (manager.validate_for_pool crypto transaction) =
      outcome) :
    ChainManager.add_transaction_to_pool crypto transaction manager = (outcome,
      if outcome = .ok true then { manager with transaction_pool := manager.transaction_pool ++ [transaction] }
      else manager) := by
  unfold ChainManager.add_transaction_to_pool
  rw [bind_run_ok (read_run manager)]
  have hfirst : (raw (transaction.hash crypto) : Action ChainManager PyError Hash) manager = (.ok hash, manager) := by
    rw [raw_run, hhash]
  rw [bind_run_ok hfirst]
  cases outcome with
  | error e =>
      have hsecond : (raw (succeeds PyError.is_validate_transaction_error
          (manager.validate_for_pool crypto transaction)) : Action ChainManager PyError Bool) manager =
            (.error e, manager) := by
        rw [raw_run, houtcome]
      rw [bind_run_error hsecond, if_neg fun heq => by cases heq]
  | ok valid =>
      have hsecond : (raw (succeeds PyError.is_validate_transaction_error
          (manager.validate_for_pool crypto transaction)) : Action ChainManager PyError Bool) manager =
            (.ok valid, manager) := by
        rw [raw_run, houtcome]
      rw [bind_run_ok hsecond]
      cases valid with
      | true => rfl
      | false =>
          have hthird : (raw transaction.serialize : Action ChainManager PyError Bytes) manager =
              (.ok bytes, manager) := by
            rw [raw_run, hbytes]
          rw [if_neg Bool.false_ne_true, bind_run_ok hthird, if_neg fun heq => by cases heq]
          rfl

-- A coinstate stays what its methods made.
theorem pool_call_built {call : PoolCall} (hbuilt : call.Built crypto) :
    Spec (fun self : ChainManager => CoinState.Built crypto self.coinstate) (call.run crypto)
      fun _ self => CoinState.Built crypto self.coinstate := by
  cases call with
  | add_transaction_to_pool transaction =>
      have hadd : Spec (fun self : ChainManager => CoinState.Built crypto self.coinstate)
          (ChainManager.add_transaction_to_pool crypto transaction)
          fun _ self => CoinState.Built crypto self.coinstate := by
        apply Spec.read
        intro before
        refine Spec.raw_bind (fun _ _ => ?_) fun _ _ _ h => h.1
        refine Spec.raw_bind (fun valid _ => ?_) fun _ _ _ h => h.1
        apply Spec.ite
        · intro _
          exact Spec.change_bind (fun self : ChainManager => CoinState.Built crypto self.coinstate)
            (fun _ h => h.1) fun _ h => h
        · intro _
          exact Spec.raw_bind (fun _ _ _ h => h.1) fun _ _ _ h => h.1
      exact hadd.bind (fun _ _ h => h) fun _ _ h => h
  | set_coinstate coinstate validated =>
      have hcleanup : Spec (fun self : ChainManager => CoinState.Built crypto self.coinstate)
          (ChainManager.cleanup_transaction_pool_for_coinstate crypto)
          fun _ self => CoinState.Built crypto self.coinstate := by
        apply Spec.read
        intro before
        exact Spec.raw_bind (fun _ _ => Spec.change fun _ h => h.1) fun _ _ _ h => h.1
      refine Spec.change_bind (fun self : ChainManager => CoinState.Built crypto self.coinstate)
        (fun _ _ => hbuilt) ?_
      exact hcleanup.bind (fun _ => Spec.ite (fun _ => Spec.change fun _ h => h) fun _ _ h => h) fun _ _ h => h

-- Admission does what it is to do just when no value is looked at that is out
-- of range.
theorem pool_admission_iff (hverify : VerifyAnswers crypto) {start : ChainManager}
    (hempty : start.transaction_pool = []) (hstart : CoinState.Built crypto start.coinstate)
    (pool_calls : List PoolCall) (hbuilt : ∀ call ∈ pool_calls, call.Built crypto)
    (hmanager : calls (pool_calls.map (PoolCall.run crypto)) start = manager)
    (hcurrent : manager.coinstate.current_chain_hash = some h) {stream rest : Bytes}
    (hdecoded : Transaction.stream_deserialize crypto stream = .ok (transaction, rest)) :
    AdmittedOrRefused crypto manager h transaction ↔ RangeKept transaction := by
  obtain ⟨⟨bytes, hbytes⟩, hash, hhash⟩ := decoded_serializes hdecoded
  have hpool : (manager.transaction_pool.flatMap output_references).Nodup :=
    hmanager ▸ (pool_valid_calls hverify (pool_valid_empty hempty) hbuilt).distinct
  have hcoinstate : CoinState.Built crypto manager.coinstate := by
    rw [← hmanager]
    refine Spec.calls (P := fun self : ChainManager => CoinState.Built crypto self.coinstate) (fun x hx => ?_) hstart
    obtain ⟨call, hcall, hrun⟩ := List.mem_map.mp hx
    exact hrun ▸ pool_call_built (hbuilt call hcall)
  have hunspent := hcoinstate.unspent h hcurrent
  constructor
  · intro hmeets
    by_contra hrange
    -- the exception leaves the call, whatever else the transaction is
    have hraise := validate_by_itself_out_of_range hbytes hrange
    have hnot : ¬Admissible crypto manager h transaction := by
      intro hadmissible
      rw [hadmissible.by_itself] at hraise
      cases hraise
    have houtcome : succeeds PyError.is_validate_transaction_error (manager.validate_for_pool crypto transaction) =
        .error (.ValidationError "Value out of range.") := by
      rw [ChainManager.validate_for_pool, hraise]
      rfl
    have hrun := add_transaction_to_pool_run hhash hbytes houtcome
    rw [hmeets.2 hnot] at hrun
    cases (Prod.mk.inj hrun).1
  · intro hrange
    have hraises := validate_for_pool_raises hverify hcurrent hunspent (validate_by_itself_raises hbytes hrange)
    have hadmissible : manager.validate_for_pool crypto transaction = .ok () ↔
        Admissible crypto manager h transaction := validate_for_pool_eq_ok hcurrent hpool
    constructor
    · intro hyes
      rw [add_transaction_to_pool_run hhash hbytes (succeeds_eq_ok_true.mpr (hadmissible.mpr hyes)), if_pos rfl]
    · intro hno
      cases succeeds_of_raisesOnly hraises with
      | inl htrue => exact absurd (hadmissible.mp (succeeds_eq_ok_true.mp htrue)) hno
      | inr hfalse =>
          rw [add_transaction_to_pool_run hhash hbytes hfalse.1, if_neg fun heq => by cases heq]

def spend_bytes (transaction : Transaction) : Bytes := transaction.serialize.toOption.getD []

-- As it comes out of the decoder.
def decoded_spend (transaction : Transaction) : Transaction :=
  { transaction with cached_hash := some (Crypto.residue.sha256d (spend_bytes transaction)) }

-- The spend of the head's coinbase is admitted.
theorem pool_admission_iff_sample :
    AdmittedOrRefused .residue ⟨sample_coinstate_first, [], none⟩ sample_second.previous_block_hash
        (decoded_spend sample_spend) ↔ RangeKept (decoded_spend sample_spend) := by
  have hcurrent : sample_coinstate_first.current_chain_hash = some sample_second.previous_block_hash := by
    decide +kernel
  have hdecoded : Transaction.stream_deserialize .residue (spend_bytes sample_spend) =
      .ok (decoded_spend sample_spend, []) := by
    decide +kernel
  have hnone : ∀ call ∈ ([] : List PoolCall), call.Built .residue := fun call hcall => by cases hcall
  have hempty : (⟨sample_coinstate_first, [], none⟩ : ChainManager).transaction_pool = [] := rfl
  have hstart : ∀ coinstate, CoinState.Built .residue coinstate →
      CoinState.Built .residue (⟨coinstate, [], none⟩ : ChainManager).coinstate := fun _ hbuilt => hbuilt
  exact pool_admission_iff residue_answers hempty (hstart _ sample_built.2) [] hnone rfl hcurrent hdecoded

-- The same spend, where the first output is worth nothing.
def zero_spend : Transaction := { sample_spend with outputs := [⟨0, sample_key⟩] }

theorem pool_admission_raises :
    sample_coinstate_first.current_chain_hash = some sample_second.previous_block_hash ∧
    Transaction.stream_deserialize .residue (spend_bytes zero_spend) = .ok (decoded_spend zero_spend, []) ∧
    ¬AdmittedOrRefused .residue ⟨sample_coinstate_first, [], none⟩ sample_second.previous_block_hash
      (decoded_spend zero_spend) := by
  have hraise : (ChainManager.add_transaction_to_pool .residue (decoded_spend zero_spend)
      ⟨sample_coinstate_first, [], none⟩).1 = .error (.ValidationError "Value out of range.") := by
    decide +kernel
  refine ⟨by decide +kernel, by decide +kernel, ?_⟩
  intro hmeets
  by_cases hadmissible : Admissible .residue ⟨sample_coinstate_first, [], none⟩
      sample_second.previous_block_hash (decoded_spend zero_spend)
  · rw [hmeets.1 hadmissible] at hraise
    cases hraise
  · rw [hmeets.2 hadmissible] at hraise
    cases hraise

end Admission

end Skepticoin
