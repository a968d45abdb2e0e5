import Skepticoin.Balances
import Skepticoin.Genesis

namespace Skepticoin

open FMap

structure CoinState where
  block_by_hash : Map Hash Block
  unspent_transaction_outs_by_hash : Map Hash UnspentTransactionOuts
  block_by_height_by_hash : Map Hash (Map Nat Block)
  heads : Map Hash Block
  current_chain_hash : Option Hash
  deriving DecidableEq

namespace CoinState

variable (crypto : Crypto)

def empty : CoinState where
  block_by_hash := ∅
  unspent_transaction_outs_by_hash := ∅
  block_by_height_by_hash := ∅
  heads := ∅
  current_chain_hash := none

-- The unspent outputs that a block is applied to.
def previous_unspent_transaction_outs (self : CoinState) (block : Block) : Py UnspentTransactionOuts :=
  if block.previous_block_hash = zero_hash then .ok ∅
  else getItem self.unspent_transaction_outs_by_hash block.previous_block_hash

-- A block with the zero previous hash starts the whole index anew.
def next_block_by_height_by_hash (self : CoinState) (block_hash : Hash) (block : Block) :
    Py (Map Hash (Map Nat Block)) :=
  if block.previous_block_hash = zero_hash then
    .ok (Finmap.singleton block_hash (Finmap.singleton 0 block))
  else do
    let block_by_height ← getItem self.block_by_height_by_hash block.previous_block_hash
    return self.block_by_height_by_hash.insert block_hash (block_by_height.insert block.height block)

-- Strictly more work wins, so that ties are broken first come, first served.
def next_current_chain_hash (self : CoinState) (block_hash : Hash) (block : Block) : Py Hash :=
  match self.current_chain_hash with
  | none => .ok block_hash
  | some current_chain_hash =>
    if current_chain_hash = block.previous_block_hash then .ok block_hash
    else do
      let current ← getItem self.block_by_hash current_chain_hash
      return if block.get_total_work > current.get_total_work then block_hash else current_chain_hash

def add_block_no_validation (self : CoinState) (block : Block) : Py CoinState := do
  let unspent_transaction_outs ← self.previous_unspent_transaction_outs block
  let unspent_transaction_outs ← uto_apply_block crypto unspent_transaction_outs block
  let block_hash ← block.hash crypto
  let block_by_height_by_hash ← self.next_block_by_height_by_hash block_hash block
  let current_chain_hash ← self.next_current_chain_hash block_hash block
  return {
    block_by_hash := self.block_by_hash.insert block_hash block
    unspent_transaction_outs_by_hash :=
      self.unspent_transaction_outs_by_hash.insert block_hash unspent_transaction_outs
    block_by_height_by_hash
    heads := (self.heads.erase block.previous_block_hash).insert block_hash block
    current_chain_hash := some current_chain_hash }

def zero : Py CoinState := do
  let block ← Block.deserialize crypto genesis_block_data
  empty.add_block_no_validation crypto block

def head (self : CoinState) : Py Block :=
  match self.current_chain_hash with
  | none => .error .KeyError
  | some current_chain_hash => getItem self.block_by_hash current_chain_hash

def by_height_at_head (self : CoinState) : Py (Map Nat Block) :=
  match self.current_chain_hash with
  | none => .error .AssertionError
  | some current_chain_hash => getItem self.block_by_height_by_hash current_chain_hash

end CoinState

end Skepticoin
