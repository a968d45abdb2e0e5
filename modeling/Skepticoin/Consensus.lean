import Skepticoin.CoinState
import Skepticoin.MerkleTree
import Skepticoin.Pow

namespace Skepticoin

open Guard FMap

-- hexlify
def human (bytes : Bytes) : String :=
  String.ofList (bytes.flatMap fun b => [Nat.digitChar (b.toNat / 16), Nat.digitChar (b.toNat % 16)])

variable (crypto : Crypto)

section Shared

def calc_merkle_root_hash (transactions : List Transaction) : Py Hash := do
  let hashes ← collect (Transaction.hash crypto) transactions
  get_merkle_root crypto hashes

-- Python's // rounds down, and to_bytes refuses a negative integer.
def calculate_new_target (previous_target : Hash) (actual_time_passed : Int) : Py Hash := do
  let i_previous_target := from_bytes previous_target.1
  let result : Int :=
    (i_previous_target * actual_time_passed).fdiv DESIRED_TARGET_READJUSTMENT_TIMESPAN
  let result := if result > 2 ^ (32 * 8) - 1 then 2 ^ (32 * 8) - 1 else result
  raiseIf (result < 0) .OverflowError
  return .ofNat 32 result.toNat

def calc_target (coinstate : CoinState) (height : Nat) (current_timestamp : Nat)
    (previous_block : Block) : Py Hash :=
  if height % BLOCKS_BETWEEN_TARGET_READJUSTMENT = 0 then do
    let previous_block_hash ← previous_block.hash crypto
    let block_by_height ← getItem coinstate.block_by_height_by_hash previous_block_hash
    -- no height is negative
    raiseIf (height < BLOCKS_BETWEEN_TARGET_READJUSTMENT) .KeyError
    let interval_start_height := height - BLOCKS_BETWEEN_TARGET_READJUSTMENT
    let interval_start_block ← getItem block_by_height interval_start_height
    let time_passed : Int := current_timestamp - interval_start_block.timestamp
    calculate_new_target previous_block.target time_passed
  else
    return previous_block.target

end Shared

section Construction

-- skepticoin/params.py
def INITIAL_TARGET : Hash := .ofNat 32 (2 ^ (8 * 31))

def construct_minable_summary_genesis (transactions : List Transaction) (current_timestamp nonce : Nat) :
    Py BlockSummary := do
  let merkle_root_hash ← calc_merkle_root_hash crypto transactions
  return {
    height := 0
    previous_block_hash := zero_hash
    merkle_root_hash
    timestamp := current_timestamp
    target := INITIAL_TARGET
    nonce }

def construct_minable_summary (coinstate : CoinState) (transactions : List Transaction)
    (current_timestamp nonce : Nat) : Py BlockSummary :=
  match coinstate.current_chain_hash with
  | none => construct_minable_summary_genesis crypto transactions current_timestamp nonce
  | some current_chain_hash => do
    let previous_block ← coinstate.head
    let height := previous_block.height + 1
    let merkle_root_hash ← calc_merkle_root_hash crypto transactions
    let target ← calc_target crypto coinstate height current_timestamp previous_block
    return {
      height
      previous_block_hash := current_chain_hash
      merkle_root_hash
      timestamp := current_timestamp
      target
      nonce }

def input_values (unspent_transactions : UnspentTransactionOuts) (transaction : Transaction) :
    Py (List Nat) :=
  collect (fun input => do
    let output ← getItem unspent_transactions input.output_reference
    return output.value) transaction.inputs

def output_values (transaction : Transaction) : List Nat := transaction.outputs.map Output.value

def get_transaction_fee (transaction : Transaction) (unspent_transactions : UnspentTransactionOuts) :
    Py Int := do
  let values ← input_values unspent_transactions transaction
  let total_input_value := values.sum
  let total_output_value := (output_values transaction).sum
  return (total_input_value : Int) - total_output_value

def get_block_fees (non_coinbase_transactions : List Transaction)
    (unspent_transaction_outs : UnspentTransactionOuts) : Py Int := do
  let fees ← collect (fun transaction => get_transaction_fee transaction unspent_transaction_outs)
    non_coinbase_transactions
  return fees.sum

def get_block_subsidy (height : Nat) : Nat :=
  let halvings := height / SUBSIDY_HALVING_INTERVAL
  if halvings ≥ 64 then 0 else INITIAL_SUBSIDY / 2 ^ halvings

def construct_reference_to_thin_air : OutputReference := ⟨zero_hash, 0, first_index_le⟩

-- A negative value has no place in an output; the source raises when the
-- transaction is hashed.
def construct_coinbase_transaction (height : Nat) (other_transactions : List Transaction)
    (unspent_transaction_outs : UnspentTransactionOuts) (signature : Bytes)
    (miner_public_key : SECP256k1PublicKey) : Py Transaction := do
  let subsidy := get_block_subsidy height
  let fees ← get_block_fees other_transactions unspent_transaction_outs
  let coinbase_data ← CoinbaseData.new height signature
  let value : Int := subsidy + fees
  raiseIf (value < 0) .StructError
  return {
    inputs := [{
      output_reference := construct_reference_to_thin_air
      signature := some (.CoinbaseData coinbase_data) }]
    outputs := [{
      value := value.toNat
      public_key := miner_public_key }] }

-- int.to_bytes(8, byteorder='big')
def height_to_bytes (current_height : Nat) : Py Bytes :=
  if current_height < 256 ^ 8 then .ok (to_bytes 8 current_height) else .error .OverflowError

def construct_summary_hash (summary : BlockSummary) (current_height : Nat) : Py Hash := do
  let password ← summary.serialize
  let salt ← height_to_bytes current_height
  return crypto.scrypt password salt

def get_block_by_height (coinstate : CoinState) (at_hash : Hash) (h : Nat) : Py Block := do
  let block_by_height ← getItem coinstate.block_by_height_by_hash at_hash
  getItem block_by_height h

def construct_pow_evidence_after_scrypt (summary_hash : Hash) (coinstate : CoinState)
    (summary : BlockSummary) (current_height : Nat) (transactions : List Transaction) :
    Py PowEvidence := do
  let chain_sample ←
    if current_height = 0 then .ok (to_bytes CHAIN_SAMPLE_TOTAL_SIZE 0)
    else
      select_n_k_length_slices_from_chain crypto summary_hash current_height
        (get_block_by_height coinstate summary.previous_block_hash) CHAIN_SAMPLE_COUNT CHAIN_SAMPLE_SIZE
  let serialized_transactions ← stream_serialize_list Transaction.serialize transactions
  return {
    summary_hash
    chain_sample
    block_hash := crypto.blake2 (summary_hash.1 ++ chain_sample ++ serialized_transactions) }

def construct_pow_evidence (coinstate : CoinState) (summary : BlockSummary) (current_height : Nat)
    (transactions : List Transaction) : Py PowEvidence := do
  let summary_hash ← construct_summary_hash crypto summary current_height
  construct_pow_evidence_after_scrypt crypto summary_hash coinstate summary current_height transactions

def construct_block_for_mining_genesis (non_coinbase_transactions : List Transaction)
    (miner_public_key : SECP256k1PublicKey) (current_timestamp : Nat) (random_data : Bytes)
    (nonce : Nat) : Py Block := do
  let coinstate := CoinState.empty
  let current_height := 0
  let coinbase_transaction ← construct_coinbase_transaction current_height non_coinbase_transactions ∅
    random_data miner_public_key
  let transactions := coinbase_transaction :: non_coinbase_transactions
  let summary ← construct_minable_summary crypto coinstate transactions current_timestamp nonce
  let evidence ← construct_pow_evidence crypto coinstate summary current_height transactions
  return ⟨⟨summary, evidence⟩, transactions, none⟩

def construct_block_pow_evidence_input (coinstate : CoinState)
    (non_coinbase_transactions : List Transaction) (miner_public_key : SECP256k1PublicKey)
    (current_timestamp : Nat) (random_data : Bytes) (nonce : Nat) :
    Py (BlockSummary × Nat × List Transaction) := do
  let previous_block ← coinstate.head
  let current_height := previous_block.height + 1
  match coinstate.current_chain_hash with
  | none => .error .AssertionError
  | some current_chain_hash =>
    let unspent_transaction_outs ←
      getItem coinstate.unspent_transaction_outs_by_hash current_chain_hash
    let coinbase_transaction ← construct_coinbase_transaction current_height non_coinbase_transactions
      unspent_transaction_outs random_data miner_public_key
    let transactions := coinbase_transaction :: non_coinbase_transactions
    let summary ← construct_minable_summary crypto coinstate transactions current_timestamp nonce
    return (summary, current_height, transactions)

def construct_block_for_mining (coinstate : CoinState) (non_coinbase_transactions : List Transaction)
    (miner_public_key : SECP256k1PublicKey) (current_timestamp : Nat) (random_data : Bytes)
    (nonce : Nat) : Py Block := do
  let (summary, current_height, transactions) ← construct_block_pow_evidence_input crypto coinstate
    non_coinbase_transactions miner_public_key current_timestamp random_data nonce
  let evidence ← construct_pow_evidence crypto coinstate summary current_height transactions
  return ⟨⟨summary, evidence⟩, transactions, none⟩

end Construction

section Validation

def validate_sashimi_range (value : Nat) : Py Unit :=
  raiseIf (¬(0 < value ∧ value ≤ MAX_SASHIMI)) (.ValidationError "Value out of range.")

def output_references (transaction : Transaction) : List OutputReference :=
  transaction.inputs.map Input.output_reference

-- The body of the last loop of validate_non_coinbase_transaction_by_itself.
def validate_non_coinbase_input (input : Input) : Py Unit := do
  raiseIf input.output_reference.references_thin_air
    (.ValidateTransactionError "Coinbase-like null-reference in non-coinbase transaction.")
  match input.signature with
  | none => .error .AssertionError
  | some signature =>
    raiseIf signature.is_not_signature
      (.ValidateTransactionError "Non-signature Signature class used where a real one is expected.")

def validate_non_coinbase_transaction_by_itself (transaction : Transaction) : Py Unit := do
  raiseIf (transaction.inputs.length = 0) (.ValidateTransactionError "No inputs")
  raiseIf (transaction.outputs.length = 0) (.ValidateTransactionError "No outputs")
  let bytes ← transaction.serialize
  raiseIf (bytes.length > MAX_BLOCK_SIZE) (.ValidateTransactionError "transaction > MAX_BLOCK_SIZE")
  checkAll validate_sashimi_range (output_values transaction)
  validate_sashimi_range (output_values transaction).sum
  noRepeat (.ValidateTransactionError
    "Single output_reference referenced more than once in single transaction.")
    [] (output_references transaction)
  checkAll validate_non_coinbase_input transaction.inputs

def validate_signature_for_spend (input : Input) (previous_output : Output)
    (transaction : Transaction) : Py Unit := do
  let message ← transaction.signable_equivalent.serialize
  match input.signature with
  | none => .error .AssertionError
  | some signature =>
    let valid ← signature.validate crypto previous_output.public_key message
    raiseIf (¬valid) (.ValidateTransactionError "Wrong signature for claimed output")

-- transaction.inputs[0].signature, where that is CoinbaseData
def coinbase_data (transaction : Transaction) : Option CoinbaseData :=
  match transaction.inputs with
  | { signature := some (.CoinbaseData data), .. } :: _ => some data
  | _ => none

def validate_coinbase_transaction_by_itself (transaction : Transaction) : Py Unit := do
  match transaction.inputs with
  | [input] =>
    raiseIf (¬input.output_reference.references_thin_air)
      (.ValidateTransactionError "Coinbase must create its value out of thin air")
    match coinbase_data transaction with
    | none => .error (.ValidateTransactionError "A coinbase transaction should have CoinbaseData")
    | some data =>
      raiseIf (data.signature.length > MAX_COINBASE_RANDOM_DATA_SIZE)
        (.ValidateTransactionError "Random data > MAX_COINBASE_RANDOM_DATA_SIZE")
  | _ => .error (.ValidateTransactionError "Coinbase transaction should have precisely 1 input")

-- Strings of one length compare as the numbers they write.
def validate_proof_of_work (hash target : Hash) : Py Unit :=
  raiseIf (¬hash.1 < target.1) (.ValidatePOWError "hash >= target")

def validate_block_header_by_itself (block_header : BlockHeader) (current_timestamp : Nat) : Py Unit := do
  let hash ← block_header.hash crypto
  validate_proof_of_work hash block_header.summary.target
  raiseIf (block_header.summary.timestamp > current_timestamp + MAX_FUTURE_BLOCK_TIME)
    (.ValidateBlockHeaderError "Block timestamp in the future")

-- Python looks an element up in a set by its hash, and then by equality.
def validate_no_duplicate_transactions (seen_transactions : List (Hash × Transaction)) :
    List Transaction → Py Unit
  | [] => .ok ()
  | transaction :: transactions => do
    let hash ← transaction.hash crypto
    raiseIf (seen_transactions.any fun seen => seen.1 = hash && seen.2.eq transaction)
      (.ValidateTransactionError "Duplicate transaction.")
    validate_no_duplicate_transactions ((hash, transaction) :: seen_transactions) transactions

def validate_no_duplicate_output_references_in_transactions (transactions : List Transaction) : Py Unit :=
  noRepeat (.ValidateTransactionError "Duplicate output_reference.") []
    (transactions.flatMap output_references)

def validate_block_by_itself (block : Block) (current_timestamp : Nat) : Py Unit := do
  validate_block_header_by_itself crypto block.header current_timestamp
  match block.transactions with
  | [] => .error (.ValidateBlockError "No transactions in block")
  | coinbase_transaction :: transactions =>
    let bytes ← block.serialize
    raiseIf (bytes.length > MAX_BLOCK_SIZE) (.ValidateBlockError "Block > MAX_BLOCK_SIZE")
    validate_coinbase_transaction_by_itself coinbase_transaction
    match coinbase_data coinbase_transaction with
    | none => .error .AttributeError
    | some data =>
      raiseIf (data.height ≠ block.height) (.ValidateBlockError "block.height != coinbase.height")
    checkAll validate_non_coinbase_transaction_by_itself transactions
    validate_no_duplicate_transactions crypto [] transactions
    validate_no_duplicate_output_references_in_transactions transactions
    let merkle_root_hash ← calc_merkle_root_hash crypto block.transactions
    raiseIf (block.header.summary.merkle_root_hash ≠ merkle_root_hash)
      (.ValidateBlockError "Incorrect merkle_root_hash")

def validate_coinbase_transaction_in_coinstate (transaction : Transaction) (block : Block)
    (coinstate : CoinState) : Py Unit := do
  let previous_block ← getItem coinstate.block_by_hash block.previous_block_hash
  let calculated_current_height := previous_block.height + 1
  raiseIf (block.height ≠ calculated_current_height)
    (.ValidateBlockHeaderError "Block's reported height incorrect.")
  let unspent_transaction_outs ←
    getItem coinstate.unspent_transaction_outs_by_hash block.previous_block_hash
  let fees ← get_block_fees block.transactions.tail unspent_transaction_outs
  let subsidy := get_block_subsidy block.height
  raiseIf (((output_values transaction).sum : Int) > fees + subsidy)
    (.ValidateTransactionError "Transaction overspending (Coinbase)")

-- The body of the loop over the inputs; it yields the value that is spent.
def validate_spend (unspent_transaction_outs : UnspentTransactionOuts) (transaction : Transaction)
    (input : Input) : Py Nat :=
  match unspent_transaction_outs.lookup input.output_reference with
  | none => .error
    (.ValidateTransactionError "input's output_reference does not exist as an unspent out")
  | some previous_output => do
    validate_signature_for_spend crypto input previous_output transaction
    return previous_output.value

def validate_non_coinbase_transaction_in_coinstate (transaction : Transaction) (at_hash : Hash)
    (coinstate : CoinState) : Py Unit := do
  let unspent_transaction_outs ← getItem coinstate.unspent_transaction_outs_by_hash at_hash
  let values ← collect (validate_spend crypto unspent_transaction_outs transaction) transaction.inputs
  let total_input_value := values.sum
  raiseIf ((output_values transaction).sum > total_input_value)
    (.ValidateTransactionError "Transaction overspending")

def validate_block_summary_in_coinstate (block_summary : BlockSummary) (coinstate : CoinState) :
    Py Unit :=
  match coinstate.block_by_hash.lookup block_summary.previous_block_hash with
  | none => .error (.ValidateBlockHeaderError
    ("previous_block_hash unknown: " ++ human block_summary.previous_block_hash.1))
  | some previous_block => do
    raiseIf (block_summary.timestamp ≤ previous_block.timestamp)
      (.ValidateBlockHeaderError "Timestamps must be strictly increasing.")
    let calculated_current_height := previous_block.height + 1
    let calculated_target ← calc_target crypto coinstate calculated_current_height
      block_summary.timestamp previous_block
    raiseIf (block_summary.target ≠ calculated_target)
      (.ValidateBlockHeaderError "Block's reported target incorrect")

-- The checks of validate_block_in_coinstate that follow the return for blocks
-- up to the last checkpoint.
def validate_block_past_checkpoints (block : Block) (coinstate : CoinState) : Py Unit := do
  validate_block_summary_in_coinstate crypto block.header.summary coinstate
  let reconstructed_evidence ← construct_pow_evidence crypto coinstate block.header.summary block.height
    block.transactions
  raiseIf (block.header.pow_evidence ≠ reconstructed_evidence)
    (.ValidateBlockError "POW Evidence incorrect")
  match block.transactions with
  | [] => .error .IndexError
  | coinbase_transaction :: transactions =>
    validate_coinbase_transaction_in_coinstate coinbase_transaction block coinstate
    checkAll (fun transaction => validate_non_coinbase_transaction_in_coinstate crypto transaction
      block.previous_block_hash coinstate) transactions

def validate_block_in_coinstate (block : Block) (coinstate : CoinState) : Py Unit :=
  if block.height ≤ MAX_KNOWN_HASH_HEIGHT then
    match known_hash block.height with
    | none => .ok ()
    | some hash => do
      let block_hash ← block.hash crypto
      raiseIf (block_hash ≠ hash)
        (.ValidationError ("No forks allowed before block " ++ toString MAX_KNOWN_HASH_HEIGHT))
  else
    validate_block_past_checkpoints crypto block coinstate

def CoinState.add_block (self : CoinState) (block : Block) (current_timestamp : Nat) : Py CoinState := do
  validate_block_by_itself crypto block current_timestamp
  validate_block_in_coinstate crypto block self
  self.add_block_no_validation crypto block

end Validation

end Skepticoin
