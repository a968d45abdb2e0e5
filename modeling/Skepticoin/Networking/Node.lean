import Skepticoin.BlockStore
import Skepticoin.Networking.Manager

namespace Skepticoin

open Guard FMap Effect

-- What the handlers of all peers share, and the blocks that have been
-- broadcast.
structure Node where
  chain_manager : ChainManager
  block_store : BlockStore
  broadcast : List Block
  deriving DecidableEq

-- A DATA_BLOCK message, and when it is handled.
structure Received where
  current_timestamp : Nat
  header : MessageHeader
  block : Block
  deriving DecidableEq

namespace Node

variable (crypto : Crypto)

def on_chain_manager {α : Type} : Action ChainManager PyError α → Action Node PyError α :=
  within Node.chain_manager fun self chain_manager => { self with chain_manager }

def on_block_store {α : Type} : Action BlockStore PyError α → Action Node PyError α :=
  within Node.block_store fun self block_store => { self with block_store }

def set_coinstate (coinstate : CoinState) (validated : Bool) : Action Node PyError Unit :=
  on_chain_manager (ChainManager.set_coinstate crypto coinstate validated)

def save_block (block : Block) : Action Node PyError Unit :=
  on_block_store (BlockStore.add_block_to_buffer block)

def flush_blocks : Action Node PyError Unit := on_block_store (BlockStore.flush_blocks_to_disk crypto)

def broadcast_block (block : Block) : Action Node PyError Unit := change fun self =>
  { self with broadcast := self.broadcast ++ [block] }

-- The head is read for the log.
def log_head (coinstate : CoinState) : Action Node PyError Unit := do
  let _ ← raw coinstate.head
  pure ()

-- What follows a block that does not validate in the coinstate.
def roll_back : Action Node PyError Unit := do
  let self ← read
  match self.chain_manager.last_known_valid_coinstate with
  | none => pure ()
  | some last_known_valid_coinstate => set_coinstate crypto last_known_valid_coinstate true
  on_block_store (change fun block_store => { block_store with write_buffer := [] })

def announce (header : MessageHeader) (block : Block) (coinstate_changed : CoinState) :
    Action Node PyError Unit := do
  let head ← raw coinstate_changed.head
  if block.eq head ∧ header.in_response_to = 0 then broadcast_block block else pure ()

-- What follows a block that is new, has a known parent and validates by itself.
def handle_new_block (header : MessageHeader) (block : Block) (coinstate_prior : CoinState) :
    Action Node PyError Unit := do
  save_block block
  let coinstate_changed ← raw (coinstate_prior.add_block_no_validation crypto block)
  if header.in_response_to = 0 ∨ block.height % IBD_VALIDATION_SKIP = 0 then
    match validate_block_in_coinstate crypto block coinstate_prior with
    | .error _ => roll_back crypto
    | .ok () => do
      set_coinstate crypto coinstate_changed true
      flush_blocks crypto
      announce header block coinstate_changed
  else do
    set_coinstate crypto coinstate_changed false
    announce header block coinstate_changed

def handle_block_received (received : Received) : Action Node PyError Unit := do
  let self ← read
  let coinstate_prior := self.chain_manager.coinstate
  let block_hash ← raw (received.block.hash crypto)
  if block_hash ∈ coinstate_prior.block_by_hash then pure ()
  else if received.block.previous_block_hash ∉ coinstate_prior.block_by_hash then
    log_head coinstate_prior
  else
    match validate_block_by_itself crypto received.block received.current_timestamp with
    | .error _ => log_head coinstate_prior
    | .ok () => handle_new_block crypto received.header received.block coinstate_prior

end Node

end Skepticoin
