import Skepticoin.Wallet

namespace Skepticoin

open FMap

structure PKBalance2 where
  value : Int
  all_output_references : List OutputReference
  unspent_output_references : List OutputReference
  spent_in_transactions : List Transaction

abbrev Balances2 := Map SECP256k1PublicKey PKBalance2

variable (crypto : Crypto)

-- The loop over the inputs. A key with two outputs that are spent in one
-- transaction lists the transaction twice.
def pkb2_remove_inputs (unspent_transaction_outs : UnspentTransactionOuts) (transaction : Transaction)
    (public_key_balances : Balances2) : List Input → Py Balances2
  | [] => .ok public_key_balances
  | input :: inputs => do
    let previously_unspent_output ← getItem unspent_transaction_outs input.output_reference
    let public_key := previously_unspent_output.public_key
    let balance ← getItem public_key_balances public_key
    let balance : PKBalance2 := {
      value := balance.value - previously_unspent_output.value
      all_output_references := balance.all_output_references
      unspent_output_references :=
        balance.unspent_output_references.filter fun reference => reference ≠ input.output_reference
      spent_in_transactions := balance.spent_in_transactions ++ [transaction] }
    pkb2_remove_inputs unspent_transaction_outs transaction (public_key_balances.insert public_key balance) inputs

-- A key that is missing starts with nothing.
def balance2Of (public_key_balances : Balances2) (public_key : SECP256k1PublicKey) : PKBalance2 :=
  (public_key_balances.lookup public_key).getD ⟨0, [], [], []⟩

def pkb2_add_outputs (transaction : Transaction) (public_key_balances : Balances2) (i : Nat) :
    List Output → Py Balances2
  | [] => .ok public_key_balances
  | output :: outputs => do
    let hash ← transaction.hash crypto
    let output_reference ← OutputReference.new hash i
    let balance := balance2Of public_key_balances output.public_key
    let balance : PKBalance2 := {
      value := balance.value + output.value
      all_output_references := balance.all_output_references ++ [output_reference]
      unspent_output_references := balance.unspent_output_references ++ [output_reference]
      spent_in_transactions := balance.spent_in_transactions }
    pkb2_add_outputs transaction (public_key_balances.insert output.public_key balance) (i + 1) outputs

def pkb2_apply_transaction (unspent_transaction_outs : UnspentTransactionOuts)
    (public_key_balances : Balances2) (transaction : Transaction) (is_coinbase : Bool) : Py Balances2 := do
  let public_key_balances ←
    if is_coinbase then .ok public_key_balances
    else pkb2_remove_inputs unspent_transaction_outs transaction public_key_balances transaction.inputs
  pkb2_add_outputs crypto transaction public_key_balances 0 transaction.outputs

def pkb2_apply_transactions (unspent_transaction_outs : UnspentTransactionOuts)
    (public_key_balances : Balances2) : List Transaction → Py Balances2
  | [] => .ok public_key_balances
  | transaction :: transactions => do
    let public_key_balances ←
      pkb2_apply_transaction crypto unspent_transaction_outs public_key_balances transaction false
    pkb2_apply_transactions unspent_transaction_outs public_key_balances transactions

def pkb2_apply_block (unspent_transaction_outs : UnspentTransactionOuts) (public_key_balances : Balances2)
    (block : Block) : Py Balances2 :=
  match block.transactions with
  | [] => .error .IndexError
  | coinbase :: transactions => do
    let public_key_balances ←
      pkb2_apply_transaction crypto unspent_transaction_outs public_key_balances coinbase true
    pkb2_apply_transactions crypto unspent_transaction_outs public_key_balances transactions

def get_unspent_transaction_outs_before_block (coinstate : CoinState) (block : Block) : Py UnspentTransactionOuts :=
  if block.previous_block_hash = zero_hash then .ok ∅
  else getItem coinstate.unspent_transaction_outs_by_hash block.previous_block_hash

def build_pkb2_block (coinstate : CoinState) (block : Block) (public_key_balances_2 : Balances2) : Py Balances2 := do
  let unspent_transaction_outs ← get_unspent_transaction_outs_before_block coinstate block
  pkb2_apply_block crypto unspent_transaction_outs public_key_balances_2 block

-- The loop over the heights.
def build_pkb2_from (coinstate : CoinState) (public_key_balances_2 : Balances2) : List Nat → Py Balances2
  | [] => .ok public_key_balances_2
  | height :: heights => do
    let block_by_height ← coinstate.by_height_at_head
    let block ← getItem block_by_height height
    let public_key_balances_2 ← build_pkb2_block crypto coinstate block public_key_balances_2
    build_pkb2_from coinstate public_key_balances_2 heights

def build_pkb2 (coinstate : CoinState) : Py Balances2 := do
  let head ← coinstate.head
  build_pkb2_from crypto coinstate ∅ (List.range (head.height + 1))

end Skepticoin
