import Skepticoin.Consensus
import Skepticoin.Lib.Effect
import Skepticoin.Networking.Messages

namespace Skepticoin

open Guard FMap Effect

variable (crypto : Crypto)

def get_recent_block_heights (block_height : Nat) : List Nat :=
  let oldness := List.range 10 ++ (List.range' 4 60).map fun x => x ^ 2
  oldness.filterMap fun o => if o ≤ block_height then some (block_height - o) else none

def get_get_blocks_message (coinstate : CoinState) : Py GetBlocksMessage := do
  let head ← coinstate.head
  let heights := get_recent_block_heights head.height
  let potential_start_hashes ← collect (fun height => do
    let block_by_height ← coinstate.by_height_at_head
    let block ← getItem block_by_height height
    block.hash crypto) heights
  return { potential_start_hashes }

structure ChainManager where
  coinstate : CoinState
  transaction_pool : List Transaction
  last_known_valid_coinstate : Option CoinState
  deriving DecidableEq

namespace ChainManager

-- What is_valid of _cleanup_transaction_pool_for_coinstate tries.
def validate_in_current_coinstate (self : ChainManager) (transaction : Transaction) : Py Unit :=
  match self.coinstate.current_chain_hash with
  | none => .error .AssertionError
  | some current_chain_hash =>
    validate_non_coinbase_transaction_in_coinstate crypto transaction current_chain_hash self.coinstate

def is_valid (self : ChainManager) (transaction : Transaction) : Py Bool :=
  succeeds PyError.is_validate_transaction_error (self.validate_in_current_coinstate crypto transaction)

def cleanup_transaction_pool_for_coinstate : Action ChainManager PyError Unit := do
  let self ← read
  let transaction_pool ← raw (keepIf (self.is_valid crypto) self.transaction_pool)
  change fun self => { self with transaction_pool }

def set_coinstate (coinstate : CoinState) (validated : Bool) : Action ChainManager PyError Unit := do
  change fun self => { self with coinstate }
  cleanup_transaction_pool_for_coinstate crypto
  if validated then
    change fun self => { self with last_known_valid_coinstate := some coinstate }
  else
    pure ()

-- What add_transaction_to_pool tries.
def validate_for_pool (self : ChainManager) (transaction : Transaction) : Py Unit := do
  validate_non_coinbase_transaction_by_itself transaction
  self.validate_in_current_coinstate crypto transaction
  validate_no_duplicate_output_references_in_transactions (self.transaction_pool ++ [transaction])

-- The hash is taken for the log before anything is tried, and the bytes are
-- written to a file for debugging when the transaction is refused.
def add_transaction_to_pool (transaction : Transaction) : Action ChainManager PyError Bool := do
  let self ← read
  let _ ← raw (transaction.hash crypto)
  let valid ← raw (succeeds PyError.is_validate_transaction_error
    (self.validate_for_pool crypto transaction))
  if valid then do
    change fun self => { self with transaction_pool := self.transaction_pool ++ [transaction] }
    return true
  else do
    let _ ← raw transaction.serialize
    return false

end ChainManager

end Skepticoin
