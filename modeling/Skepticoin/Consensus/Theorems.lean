import Skepticoin.Consensus

namespace Skepticoin

open Guard FMap

@[simp] theorem getItem_eq_ok {κ ν : Type} [DecidableEq κ] {m : Map κ ν} {key : κ} {value : ν} :
    getItem m key = .ok value ↔ m.lookup key = some value := find_eq_ok

theorem getItem_insert {κ ν : Type} [DecidableEq κ] (m : Map κ ν) (key other : κ) (value : ν) :
    getItem (m.insert key value) other = if other = key then .ok value else getItem m other := by
  by_cases hother : other = key
  · rw [if_pos hother, hother]
    exact getItem_eq_ok.mpr (Finmap.lookup_insert m)
  · rw [if_neg hother, getItem, getItem, find, find, Finmap.lookup_insert_of_ne m hother]

@[simp] theorem delItem_eq_ok {κ ν : Type} [DecidableEq κ] {m m' : Map κ ν} {key : κ} :
    delItem m key = .ok m' ↔ key ∈ m ∧ m.erase key = m' := delete_eq_ok

-- What a validator that returned normally has checked.
section Validators

variable {crypto : Crypto}

theorem references_thin_air_iff {reference : OutputReference} :
    reference.references_thin_air = true ↔ reference = construct_reference_to_thin_air := by
  obtain ⟨hash, index, index_le⟩ := reference
  simp [OutputReference.references_thin_air, construct_reference_to_thin_air]

theorem validate_non_coinbase_input_eq_ok {input : Input} :
    validate_non_coinbase_input input = .ok () ↔
      input.output_reference ≠ construct_reference_to_thin_air ∧
      ∃ signature, input.signature = some signature ∧ signature.is_not_signature = false := by
  obtain ⟨reference, signature⟩ := input
  cases signature with
  | none => simp [validate_non_coinbase_input]
  | some signature => simp [validate_non_coinbase_input, references_thin_air_iff]

theorem validate_sashimi_range_eq_ok {value : Nat} :
    validate_sashimi_range value = .ok () ↔ 0 < value ∧ value ≤ MAX_SASHIMI := by
  simp [validate_sashimi_range]

theorem validate_non_coinbase_transaction_by_itself_eq_ok {transaction : Transaction} :
    validate_non_coinbase_transaction_by_itself transaction = .ok () ↔
      transaction.inputs ≠ [] ∧ transaction.outputs ≠ [] ∧
      (∃ bytes, transaction.serialize = .ok bytes ∧ bytes.length ≤ MAX_BLOCK_SIZE) ∧
      (∀ value ∈ output_values transaction, 0 < value ∧ value ≤ MAX_SASHIMI) ∧
      (0 < (output_values transaction).sum ∧ (output_values transaction).sum ≤ MAX_SASHIMI) ∧
      (output_references transaction).Nodup ∧
      ∀ input ∈ transaction.inputs, validate_non_coinbase_input input = .ok () := by
  simp only [validate_non_coinbase_transaction_by_itself, bind_eq_ok, raiseIf_eq_ok, exists_const,
    exists_and_right, exists_unit_eq_ok, List.length_eq_zero_iff, checkAll_eq_ok, noRepeat_eq_ok,
    validate_sashimi_range_eq_ok, List.not_mem_nil, not_false_eq_true, implies_true, and_true, not_lt,
    gt_iff_lt]
  constructor
  · rintro ⟨hi, ho, bytes, hbytes, hsize, hrest⟩
    exact ⟨hi, ho, ⟨bytes, hbytes, hsize⟩, hrest⟩
  · rintro ⟨hi, ho, ⟨bytes, hbytes, hsize⟩, hrest⟩
    exact ⟨hi, ho, bytes, hbytes, hsize, hrest⟩

-- A coinbase has one input, out of thin air, with CoinbaseData for signature.
theorem validate_coinbase_transaction_by_itself_eq_ok {transaction : Transaction} :
    validate_coinbase_transaction_by_itself transaction = .ok () ↔
      ∃ data, transaction.inputs = [⟨construct_reference_to_thin_air, some (.CoinbaseData data)⟩] ∧
        data.signature.length ≤ MAX_COINBASE_RANDOM_DATA_SIZE := by
  obtain ⟨inputs, outputs, cached_hash⟩ := transaction
  match inputs with
  | [] => simp [validate_coinbase_transaction_by_itself]
  | _ :: _ :: _ => simp [validate_coinbase_transaction_by_itself]
  | [⟨reference, none⟩] => simp [validate_coinbase_transaction_by_itself, coinbase_data]
  | [⟨reference, some .SignableEquivalent⟩] =>
      simp [validate_coinbase_transaction_by_itself, coinbase_data]
  | [⟨reference, some (.SECP256k1Signature _)⟩] =>
      simp [validate_coinbase_transaction_by_itself, coinbase_data]
  | [⟨reference, some (.CoinbaseData data)⟩] =>
      simp [validate_coinbase_transaction_by_itself, coinbase_data, references_thin_air_iff]

theorem validate_block_header_by_itself_eq_ok {block_header : BlockHeader} {current_timestamp : Nat} :
    validate_block_header_by_itself crypto block_header current_timestamp = .ok () ↔
      (∃ hash, block_header.hash crypto = .ok hash ∧ hash.1 < block_header.summary.target.1) ∧
      block_header.summary.timestamp ≤ current_timestamp + MAX_FUTURE_BLOCK_TIME := by
  simp [validate_block_header_by_itself, validate_proof_of_work, ← and_assoc]

theorem validate_block_by_itself_eq_ok {block : Block} {current_timestamp : Nat} :
    validate_block_by_itself crypto block current_timestamp = .ok () ↔
      validate_block_header_by_itself crypto block.header current_timestamp = .ok () ∧
      ∃ coinbase transactions bytes, block.transactions = coinbase :: transactions ∧
        block.serialize = .ok bytes ∧ bytes.length ≤ MAX_BLOCK_SIZE ∧
        validate_coinbase_transaction_by_itself coinbase = .ok () ∧
        (∃ data, coinbase_data coinbase = some data ∧ data.height = block.height) ∧
        (∀ transaction ∈ transactions,
          validate_non_coinbase_transaction_by_itself transaction = .ok ()) ∧
        validate_no_duplicate_transactions crypto [] transactions = .ok () ∧
        (transactions.flatMap output_references).Nodup ∧
        calc_merkle_root_hash crypto block.transactions = .ok block.header.summary.merkle_root_hash := by
  obtain ⟨header, transactions, cached_hash⟩ := block
  cases transactions with
  | nil => simp [validate_block_by_itself]
  | cons coinbase transactions =>
      cases hdata : coinbase_data coinbase with
      | none => simp [validate_block_by_itself, hdata]
      | some data =>
          simp [validate_block_by_itself, hdata, checkAll_eq_ok, noRepeat_eq_ok,
            validate_no_duplicate_output_references_in_transactions, and_assoc]

theorem validate_coinbase_transaction_in_coinstate_eq_ok {transaction : Transaction} {block : Block}
    {coinstate : CoinState} :
    validate_coinbase_transaction_in_coinstate transaction block coinstate = .ok () ↔
      (∃ previous_block, coinstate.block_by_hash.lookup block.previous_block_hash = some previous_block ∧
        block.height = previous_block.height + 1) ∧
      ∃ unspent_transaction_outs fees,
        coinstate.unspent_transaction_outs_by_hash.lookup block.previous_block_hash =
          some unspent_transaction_outs ∧
        get_block_fees block.transactions.tail unspent_transaction_outs = .ok fees ∧
        ((output_values transaction).sum : Int) ≤ fees + get_block_subsidy block.height := by
  simp only [validate_coinbase_transaction_in_coinstate, bind_eq_ok, getItem_eq_ok, raiseIf_eq_ok,
    exists_const, not_not, gt_iff_lt, not_lt]
  constructor
  · rintro ⟨previous_block, hprevious, hheight, unspent, hunspent, fees, hfees, hbound⟩
    exact ⟨⟨previous_block, hprevious, hheight⟩, unspent, fees, hunspent, hfees, hbound⟩
  · rintro ⟨⟨previous_block, hprevious, hheight⟩, unspent, fees, hunspent, hfees, hbound⟩
    exact ⟨previous_block, hprevious, hheight, unspent, hunspent, fees, hfees, hbound⟩

theorem validate_spend_eq_ok {unspent_transaction_outs : UnspentTransactionOuts}
    {transaction : Transaction} {input : Input} {value : Nat} :
    validate_spend crypto unspent_transaction_outs transaction input = .ok value ↔
      ∃ output, unspent_transaction_outs.lookup input.output_reference = some output ∧
        validate_signature_for_spend crypto input output transaction = .ok () ∧ output.value = value := by
  unfold validate_spend
  cases unspent_transaction_outs.lookup input.output_reference <;> simp

theorem validate_non_coinbase_transaction_in_coinstate_eq_ok {transaction : Transaction}
    {at_hash : Hash} {coinstate : CoinState} :
    validate_non_coinbase_transaction_in_coinstate crypto transaction at_hash coinstate = .ok () ↔
      ∃ unspent_transaction_outs values,
        coinstate.unspent_transaction_outs_by_hash.lookup at_hash = some unspent_transaction_outs ∧
        collect (validate_spend crypto unspent_transaction_outs transaction) transaction.inputs =
          .ok values ∧
        (output_values transaction).sum ≤ values.sum := by
  simp [validate_non_coinbase_transaction_in_coinstate]

theorem validate_block_summary_in_coinstate_eq_ok {block_summary : BlockSummary}
    {coinstate : CoinState} :
    validate_block_summary_in_coinstate crypto block_summary coinstate = .ok () ↔
      ∃ previous_block,
        coinstate.block_by_hash.lookup block_summary.previous_block_hash = some previous_block ∧
        previous_block.timestamp < block_summary.timestamp ∧
        calc_target crypto coinstate (previous_block.height + 1) block_summary.timestamp previous_block =
          .ok block_summary.target := by
  unfold validate_block_summary_in_coinstate
  cases coinstate.block_by_hash.lookup block_summary.previous_block_hash <;> simp

theorem validate_block_past_checkpoints_eq_ok {block : Block} {coinstate : CoinState} :
    validate_block_past_checkpoints crypto block coinstate = .ok () ↔
      validate_block_summary_in_coinstate crypto block.header.summary coinstate = .ok () ∧
      construct_pow_evidence crypto coinstate block.header.summary block.height block.transactions =
        .ok block.header.pow_evidence ∧
      ∃ coinbase transactions, block.transactions = coinbase :: transactions ∧
        validate_coinbase_transaction_in_coinstate coinbase block coinstate = .ok () ∧
        ∀ transaction ∈ transactions, validate_non_coinbase_transaction_in_coinstate crypto transaction
          block.previous_block_hash coinstate = .ok () := by
  obtain ⟨header, transactions, cached_hash⟩ := block
  cases transactions <;>
    simp [validate_block_past_checkpoints, checkAll_eq_ok]

theorem validate_block_in_coinstate_of_lt {block : Block} {coinstate : CoinState}
    (h : MAX_KNOWN_HASH_HEIGHT < block.height) :
    validate_block_in_coinstate crypto block coinstate =
      validate_block_past_checkpoints crypto block coinstate := by
  rw [validate_block_in_coinstate, if_neg (Nat.not_le.mpr h)]

end Validators

end Skepticoin
