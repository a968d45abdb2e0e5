import Skepticoin.Networking.Node

namespace Skepticoin

open Guard FMap Effect

-- The watcher's own coinstate is the one it got at the last request. The key is
-- the one that the wallet has handed out.
structure MinerWatcher where
  node : Node
  coinstate : CoinState
  mining_args : Map Nat (BlockSummary × Nat × List Transaction)
  public_key : SECP256k1PublicKey
  sent : List (Nat × BlockSummary × Nat)
  deriving DecidableEq

namespace ChainManager

def get_state (self : ChainManager) : CoinState × List Transaction := (self.coinstate, self.transaction_pool)

end ChainManager

namespace MinerWatcher

variable (crypto : Crypto)

def on_node {α : Type} : Action Node PyError α → Action MinerWatcher PyError α :=
  within MinerWatcher.node fun self node => { self with node }

def send_message (miner_id : Nat) (data : BlockSummary × Nat) : Action MinerWatcher PyError Unit :=
  change fun self => { self with sent := self.sent ++ [(miner_id, data)] }

def handle_request_scrypt_input_message (current_timestamp miner_id nonce : Nat) :
    Action MinerWatcher PyError Unit := do
  let self ← read
  let (coinstate, transactions) := self.node.chain_manager.get_state
  change fun self => { self with coinstate }
  let head ← raw coinstate.head
  let increasing_time := max current_timestamp (head.timestamp + 1)
  let (summary, current_height, transactions) ← raw (construct_block_pow_evidence_input crypto coinstate
    transactions self.public_key increasing_time [] nonce)
  change fun self =>
    { self with mining_args := self.mining_args.insert miner_id (summary, current_height, transactions) }
  send_message miner_id (summary, current_height)

-- What follows a block that has been mined. The key for the next one is the
-- wallet's answer.
def keep_mined_block (current_timestamp : Nat) (next_public_key : SECP256k1PublicKey) (coinstate : CoinState)
    (block : Block) : Action MinerWatcher PyError Unit := do
  on_node (Node.set_coinstate crypto coinstate true)
  on_node (Node.broadcast_block block)
  let coinstate ← raw (coinstate.add_block crypto block current_timestamp)
  change fun self => { self with coinstate }
  on_node (Node.save_block block)
  on_node (Node.flush_blocks crypto)
  change fun self => { self with public_key := next_public_key }

def handle_scrypt_output_message (current_timestamp : Nat) (next_public_key : SECP256k1PublicKey)
    (miner_id : Nat) (summary_hash : Hash) : Action MinerWatcher PyError Unit := do
  let self ← read
  let (summary, current_height, transactions) ← raw (getItem self.mining_args miner_id)
  let evidence ← raw (construct_pow_evidence_after_scrypt crypto summary_hash self.coinstate summary
    current_height transactions)
  let block : Block := ⟨⟨summary, evidence⟩, transactions, none⟩
  let block_hash ← raw (block.hash crypto)
  if block_hash.1 < block.target.1 then
    keep_mined_block crypto current_timestamp next_public_key self.coinstate block
  else
    pure ()

-- What reaches the watcher and the network thread, in any order.
inductive Event where
  | block_received (received : Received)
  | request_scrypt_input (current_timestamp miner_id nonce : Nat)
  | scrypt_output (current_timestamp : Nat) (next_public_key : SECP256k1PublicKey) (miner_id : Nat)
    (summary_hash : Hash)
  deriving DecidableEq

def Event.action : Event → Action MinerWatcher PyError Unit
  | .block_received received => on_node (Node.handle_block_received crypto received)
  | .request_scrypt_input current_timestamp miner_id nonce =>
    handle_request_scrypt_input_message crypto current_timestamp miner_id nonce
  | .scrypt_output current_timestamp next_public_key miner_id summary_hash =>
    handle_scrypt_output_message crypto current_timestamp next_public_key miner_id summary_hash

def run (self : MinerWatcher) (events : List Event) : MinerWatcher :=
  calls (events.map (Event.action crypto)) self

end MinerWatcher

end Skepticoin
