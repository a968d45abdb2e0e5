import Skepticoin.Datatypes
import Skepticoin.Lib.FMap

namespace Skepticoin

open FMap

-- m[key]
def getItem {κ ν : Type} [DecidableEq κ] (m : Map κ ν) (key : κ) : Py ν := find .KeyError key m

-- del m[key]
def delItem {κ ν : Type} [DecidableEq κ] (m : Map κ ν) (key : κ) : Py (Map κ ν) :=
  delete .KeyError key m

abbrev UnspentTransactionOuts := Map OutputReference Output

variable (crypto : Crypto)

def uto_remove_inputs (unspent_transaction_outs : UnspentTransactionOuts) :
    List Input → Py UnspentTransactionOuts
  | [] => .ok unspent_transaction_outs
  | input :: inputs => do
    let unspent_transaction_outs ← delItem unspent_transaction_outs input.output_reference
    uto_remove_inputs unspent_transaction_outs inputs

-- The loop over enumerate(transaction.outputs), from index i on.
def uto_add_outputs (transaction : Transaction) (unspent_transaction_outs : UnspentTransactionOuts)
    (i : Nat) : List Output → Py UnspentTransactionOuts
  | [] => .ok unspent_transaction_outs
  | output :: outputs => do
    let hash ← transaction.hash crypto
    let output_reference ← OutputReference.new hash i
    uto_add_outputs transaction (unspent_transaction_outs.insert output_reference output) (i + 1) outputs

def uto_apply_transaction (unspent_transaction_outs : UnspentTransactionOuts)
    (transaction : Transaction) (is_coinbase : Bool) : Py UnspentTransactionOuts := do
  let unspent_transaction_outs ←
    if is_coinbase then .ok unspent_transaction_outs
    else uto_remove_inputs unspent_transaction_outs transaction.inputs
  uto_add_outputs crypto transaction unspent_transaction_outs 0 transaction.outputs

def uto_apply_transactions (unspent_transaction_outs : UnspentTransactionOuts) :
    List Transaction → Py UnspentTransactionOuts
  | [] => .ok unspent_transaction_outs
  | transaction :: transactions => do
    let unspent_transaction_outs ←
      uto_apply_transaction crypto unspent_transaction_outs transaction false
    uto_apply_transactions unspent_transaction_outs transactions

def uto_apply_block (unspent_transaction_outs : UnspentTransactionOuts) (block : Block) :
    Py UnspentTransactionOuts :=
  match block.transactions with
  | [] => .error .IndexError
  | coinbase :: transactions => do
    let unspent_transaction_outs ←
      uto_apply_transaction crypto unspent_transaction_outs coinbase true
    uto_apply_transactions crypto unspent_transaction_outs transactions

-- The value is a Python integer, which nothing keeps from being negative.
structure PKBalance where
  value : Int
  output_references : List OutputReference
  deriving DecidableEq

abbrev Balances := Map SECP256k1PublicKey PKBalance

-- The loop over the inputs, which looks outputs up in the map before the block.
def pkb_remove_inputs (unspent_transaction_outs : UnspentTransactionOuts) (public_key_balances : Balances) :
    List Input → Py Balances
  | [] => .ok public_key_balances
  | input :: inputs => do
    let previously_unspent_output ← getItem unspent_transaction_outs input.output_reference
    let public_key := previously_unspent_output.public_key
    let balance ← getItem public_key_balances public_key
    let balance : PKBalance := {
      value := balance.value - previously_unspent_output.value
      output_references := balance.output_references.filter fun reference => reference ≠ input.output_reference }
    pkb_remove_inputs unspent_transaction_outs (public_key_balances.insert public_key balance) inputs

-- A key that is missing starts with nothing.
def balanceOf (public_key_balances : Balances) (public_key : SECP256k1PublicKey) : PKBalance :=
  (public_key_balances.lookup public_key).getD ⟨0, []⟩

def pkb_add_outputs (transaction : Transaction) (public_key_balances : Balances) (i : Nat) :
    List Output → Py Balances
  | [] => .ok public_key_balances
  | output :: outputs => do
    let hash ← transaction.hash crypto
    let output_reference ← OutputReference.new hash i
    let balance := balanceOf public_key_balances output.public_key
    let balance : PKBalance := {
      value := balance.value + output.value
      output_references := balance.output_references ++ [output_reference] }
    pkb_add_outputs transaction (public_key_balances.insert output.public_key balance) (i + 1) outputs

def pkb_apply_transaction (unspent_transaction_outs : UnspentTransactionOuts)
    (public_key_balances : Balances) (transaction : Transaction) (is_coinbase : Bool) : Py Balances := do
  let public_key_balances ←
    if is_coinbase then .ok public_key_balances
    else pkb_remove_inputs unspent_transaction_outs public_key_balances transaction.inputs
  pkb_add_outputs crypto transaction public_key_balances 0 transaction.outputs

def pkb_apply_transactions (unspent_transaction_outs : UnspentTransactionOuts)
    (public_key_balances : Balances) : List Transaction → Py Balances
  | [] => .ok public_key_balances
  | transaction :: transactions => do
    let public_key_balances ←
      pkb_apply_transaction crypto unspent_transaction_outs public_key_balances transaction false
    pkb_apply_transactions unspent_transaction_outs public_key_balances transactions

def pkb_apply_block (unspent_transaction_outs : UnspentTransactionOuts) (public_key_balances : Balances)
    (block : Block) : Py Balances :=
  match block.transactions with
  | [] => .error .IndexError
  | coinbase :: transactions => do
    let public_key_balances ←
      pkb_apply_transaction crypto unspent_transaction_outs public_key_balances coinbase true
    pkb_apply_transactions crypto unspent_transaction_outs public_key_balances transactions

namespace PublicKeyBalances

-- The while loop that walks down to a block without parent, and what it has
-- collected, newest block first. Where the turns run out, the source loops on.
def reverse_chain (block_by_hash : Map Hash Block) : Nat → Block → Py (List Block)
  | 0, _ => .error .RecursionError
  | turns + 1, block =>
    if block.previous_block_hash = zero_hash then return [block]
    else do
      let previous ← getItem block_by_hash block.previous_block_hash
      let blocks ← reverse_chain block_by_hash turns previous
      return block :: blocks

def chain_at_hash (block_by_hash : Map Hash Block) (turns : Nat) (hash : Hash) : Py (List Block) := do
  let block ← getItem block_by_hash hash
  let blocks ← reverse_chain block_by_hash turns block
  return blocks.reverse

-- The loop over the blocks of a chain, oldest first.
def apply_blocks (public_key_balances : Balances) (unspent_transaction_outs : UnspentTransactionOuts) :
    List Block → Py Balances
  | [] => .ok public_key_balances
  | block :: blocks => do
    let public_key_balances ← pkb_apply_block crypto unspent_transaction_outs public_key_balances block
    let unspent_transaction_outs ← uto_apply_block crypto unspent_transaction_outs block
    apply_blocks public_key_balances unspent_transaction_outs blocks

def public_key_balances_by_hash (block_by_hash : Map Hash Block) (turns : Nat) (head : Option Hash) :
    Py Balances :=
  match head with
  | none => .ok ∅
  | some head => do
    let blocks ← chain_at_hash block_by_hash turns head
    apply_blocks crypto ∅ ∅ blocks

-- __getitem__, which keeps what it computes.
def getitem (block_by_hash : Map Hash Block) (turns : Nat) (cache : Map Hash Balances) (key : Hash) :
    Py (Balances × Map Hash Balances) :=
  match cache.lookup key with
  | some balances => .ok (balances, cache)
  | none => do
    let balances ← public_key_balances_by_hash crypto block_by_hash turns (some key)
    return (balances, cache.insert key balances)

end PublicKeyBalances

end Skepticoin
