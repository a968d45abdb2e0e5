import Skepticoin.Mining
import Skepticoin.Networking.Node.Soundness

namespace Skepticoin

open Guard FMap Effect

namespace MinerWatcher

variable {crypto : Crypto} {watcher start : MinerWatcher} {events : List Event} {current_timestamp miner_id : Nat}
  {next_public_key : SECP256k1PublicKey} {summary_hash h : Hash} {block : Block} {next : CoinState}

-- The handler completes a block, which add_block accepts.
structure Completes (crypto : Crypto) (watcher : MinerWatcher) (current_timestamp miner_id : Nat)
    (summary_hash : Hash) (block : Block) (h : Hash) (next : CoinState) : Prop where
  evidence : ∃ current_height,
    getItem watcher.mining_args miner_id = .ok (block.header.summary, current_height, block.transactions) ∧
    construct_pow_evidence_after_scrypt crypto summary_hash watcher.coinstate block.header.summary current_height
      block.transactions = .ok block.header.pow_evidence
  new : block.cached_hash = none
  hash : block.hash crypto = .ok h
  solved : h.1 < block.target.1
  accepted : watcher.coinstate.add_block crypto block current_timestamp = .ok next

-- The network's coinstate holds the block, and whatever it held before.
def KeepsAll (before after : MinerWatcher) (h : Hash) : Prop :=
  h ∈ after.node.chain_manager.coinstate.block_by_hash ∧
    ∀ k ∈ before.node.chain_manager.coinstate.block_by_hash, k ∈ after.node.chain_manager.coinstate.block_by_hash

theorem KeepsAll.known {before after : MinerWatcher} (hkeeps : KeepsAll before after h) :
    ∃ block, after.node.chain_manager.coinstate.block_by_hash.lookup h = some block :=
  Finmap.mem_iff.mp hkeeps.1

-- The watcher's own coinstate holds all of that already.
def SnapshotHoldsAll (watcher : MinerWatcher) (h : Hash) : Prop :=
  h ∈ watcher.coinstate.block_by_hash ∧
    ∀ k ∈ watcher.node.chain_manager.coinstate.block_by_hash, k ∈ watcher.coinstate.block_by_hash

def NoLostUpdate (crypto : Crypto) (start : MinerWatcher) (events : List Event) : Prop :=
  ∀ before current_timestamp next_public_key miner_id summary_hash after block h next,
    events = before ++ .scrypt_output current_timestamp next_public_key miner_id summary_hash :: after →
    Completes crypto (run crypto start before) current_timestamp miner_id summary_hash block h next →
    KeepsAll (run crypto start before)
      (run crypto start (before ++ [.scrypt_output current_timestamp next_public_key miner_id summary_hash])) h

def SnapshotsHoldAll (crypto : Crypto) (start : MinerWatcher) (events : List Event) : Prop :=
  ∀ before current_timestamp next_public_key miner_id summary_hash after block h next,
    events = before ++ .scrypt_output current_timestamp next_public_key miner_id summary_hash :: after →
    Completes crypto (run crypto start before) current_timestamp miner_id summary_hash block h next →
    SnapshotHoldsAll (run crypto start before) h

theorem run_append (self : MinerWatcher) (first second : List Event) :
    run crypto self (first ++ second) = run crypto (run crypto self first) second := by
  simp [run, calls]

theorem run_output (self : MinerWatcher) :
    run crypto self [.scrypt_output current_timestamp next_public_key miner_id summary_hash] =
      (handle_scrypt_output_message crypto current_timestamp next_public_key miner_id summary_hash self).2 := rfl

-- What keep_mined_block leaves: the network has the coinstate as it was before
-- the block, and the watcher perhaps the one with it.
structure Mined (crypto : Crypto) (current_timestamp : Nat) (block : Block) (watcher after : MinerWatcher) : Prop where
  mining_args : after.mining_args = watcher.mining_args
  network : after.node.chain_manager.coinstate = watcher.coinstate
  last : after.node.chain_manager.last_known_valid_coinstate =
      watcher.node.chain_manager.last_known_valid_coinstate ∨
    after.node.chain_manager.last_known_valid_coinstate = some watcher.coinstate
  own : after.coinstate = watcher.coinstate ∨
    watcher.coinstate.add_block crypto block current_timestamp = .ok after.coinstate

-- Nothing that follows set_coinstate changes the chain manager.
theorem Mined.on_node {x : Action Node PyError Unit} (hx : ∀ node, (x node).2.chain_manager = node.chain_manager)
    (watcher : MinerWatcher) (block : Block) :
    Spec (Mined crypto current_timestamp block watcher) (MinerWatcher.on_node x)
      fun _ => Mined crypto current_timestamp block watcher := by
  intro self hself
  have hsame : ((MinerWatcher.on_node x self).2).node.chain_manager = self.node.chain_manager := hx self.node
  refine ⟨hself.mining_args, ?_, ?_, hself.own⟩
  · rw [hsame]
    exact hself.network
  · rw [hsame]
    exact hself.last

theorem set_coinstate_mined (watcher : MinerWatcher) (block : Block) :
    Spec (fun self => self = watcher) (on_node (Node.set_coinstate crypto watcher.coinstate true))
      fun _ => Mined crypto current_timestamp block watcher := by
  intro self hself
  rw [hself]
  show Mined crypto current_timestamp block watcher
    { watcher with node := (Node.set_coinstate crypto watcher.coinstate true watcher.node).2 }
  cases Node.set_coinstate_run crypto watcher.node watcher.coinstate true with
  | inl hset =>
      obtain ⟨_, _, hset⟩ := hset
      rw [hset]
      exact ⟨rfl, rfl, .inr rfl, .inl rfl⟩
  | inr hset =>
      obtain ⟨_, _, hset⟩ := hset
      rw [hset]
      exact ⟨rfl, rfl, .inl rfl, .inl rfl⟩

theorem keep_mined_block_mined (crypto : Crypto) (current_timestamp : Nat) (next_public_key : SECP256k1PublicKey)
    (watcher : MinerWatcher) (block : Block) :
    Mined crypto current_timestamp block watcher
      (keep_mined_block crypto current_timestamp next_public_key watcher.coinstate block watcher).2 := by
  have hspec : Spec (fun self => self = watcher)
      (keep_mined_block crypto current_timestamp next_public_key watcher.coinstate block)
      fun _ => Mined crypto current_timestamp block watcher := by
    unfold keep_mined_block
    refine Spec.bind (set_coinstate_mined watcher block) (fun _ => ?_) fun _ _ hself => hself
    refine Spec.bind (Mined.on_node (fun _ => rfl) watcher block) (fun _ => ?_) fun _ _ hself => hself
    refine Spec.raw_bind (fun next hadd => ?_) fun _ _ _ hself => hself
    refine Spec.change_bind (Mined crypto current_timestamp block watcher)
      (fun _ hself => ⟨hself.mining_args, hself.network, hself.last, .inr hadd⟩) ?_
    refine Spec.bind (Mined.on_node (fun _ => rfl) watcher block) (fun _ => ?_) fun _ _ hself => hself
    refine Spec.bind (Mined.on_node (fun _ => rfl) watcher block) (fun _ => ?_) fun _ _ hself => hself
    exact Spec.change fun _ hself => ⟨hself.mining_args, hself.network, hself.last, hself.own⟩
  exact hspec watcher rfl

theorem Completes.coinstate (hcompletes : Completes crypto watcher current_timestamp miner_id summary_hash block h next)
    (next_public_key : SECP256k1PublicKey) :
    (handle_scrypt_output_message crypto current_timestamp next_public_key miner_id summary_hash
      watcher).2.node.chain_manager.coinstate = watcher.coinstate := by
  obtain ⟨⟨summary, evidence⟩, transactions, cached_hash⟩ := block
  obtain ⟨⟨current_height, hargs, hevidence⟩, hnew, hhash, hsolved, _⟩ := hcompletes
  have hnone : cached_hash = none := hnew
  subst hnone
  unfold handle_scrypt_output_message
  rw [bind_run_ok (read_run watcher), hargs, bind_run_ok (raw_run _ _)]
  simp only [hevidence]
  rw [bind_run_ok (raw_run _ _), hhash, bind_run_ok (raw_run _ _), if_pos hsolved]
  exact (keep_mined_block_mined crypto current_timestamp next_public_key watcher _).network

theorem keeps_all_iff (hcompletes : Completes crypto watcher current_timestamp miner_id summary_hash block h next)
    (next_public_key : SECP256k1PublicKey) :
    KeepsAll watcher (handle_scrypt_output_message crypto current_timestamp next_public_key miner_id summary_hash
      watcher).2 h ↔ SnapshotHoldsAll watcher h := by
  rw [KeepsAll, hcompletes.coinstate next_public_key, SnapshotHoldsAll]

-- In a run nothing is lost just when the watcher's copy had nothing to gain.
theorem no_lost_update_iff (crypto : Crypto) (start : MinerWatcher) (events : List Event) :
    NoLostUpdate crypto start events ↔ SnapshotsHoldAll crypto start events := by
  constructor
  · intro hlost before current_timestamp next_public_key miner_id summary_hash after block h next hsplit hcompletes
    have hkeeps := hlost before current_timestamp next_public_key miner_id summary_hash after block h next hsplit
      hcompletes
    rw [run_append] at hkeeps
    exact (keeps_all_iff hcompletes next_public_key).mp hkeeps
  · intro hholds before current_timestamp next_public_key miner_id summary_hash after block h next hsplit hcompletes
    rw [run_append]
    apply (keeps_all_iff hcompletes next_public_key).mpr
    exact hholds before current_timestamp next_public_key miner_id summary_hash after block h next hsplit hcompletes

-- A miner's block and one that arrives from the network meanwhile, both on top
-- of the same head above the checkpoints.
section Mined

def minedStore : BlockStore :=
  let store := (BlockStore.new checkpointCrypto).toOption.getD
    { committed := ⟨[], [], [], []⟩, pending := none, write_buffer := [] }
  (BlockStore.write_blocks_to_disk checkpointCrypto [checkpointBlock, pastBlock] store).2

def minedStart : MinerWatcher where
  node := {
    chain_manager := ⟨pastCoinstate, [], some pastCoinstate⟩
    block_store := minedStore
    broadcast := [] }
  coinstate := pastCoinstate
  mining_args := ∅
  public_key := ⟨.ofNat 64 8⟩
  sent := []

def minedEvents : List Event :=
  [.request_scrypt_input (1 + pastBlock.timestamp) 0 0, .block_received (Node.sent 0 Node.topBlock)]

def minedBlock : Block :=
  (construct_block_for_mining checkpointCrypto pastCoinstate [] ⟨.ofNat 64 8⟩ (1 + pastBlock.timestamp)
    [] 0).toOption.getD pastBlock

def minedHash : Hash := (minedBlock.hash checkpointCrypto).toOption.getD zero_hash

def topHash : Hash := (Node.topBlock.hash checkpointCrypto).toOption.getD zero_hash

def minedOutput : Event :=
  .scrypt_output minedBlock.timestamp ⟨.ofNat 64 9⟩ 0 minedBlock.header.pow_evidence.summary_hash

def minedCoinstate : CoinState :=
  (pastCoinstate.add_block checkpointCrypto minedBlock minedBlock.timestamp).toOption.getD .empty

theorem mined_run :
    (run checkpointCrypto minedStart minedEvents).coinstate = pastCoinstate ∧
    getItem (run checkpointCrypto minedStart minedEvents).mining_args 0 =
      .ok (minedBlock.header.summary, 163002, minedBlock.transactions) ∧
    construct_pow_evidence_after_scrypt checkpointCrypto minedBlock.header.pow_evidence.summary_hash pastCoinstate
      minedBlock.header.summary 163002 minedBlock.transactions = .ok minedBlock.header.pow_evidence ∧
    minedBlock.cached_hash = none ∧ minedBlock.hash checkpointCrypto = .ok minedHash ∧
    minedHash.1 < minedBlock.target.1 ∧
    pastCoinstate.add_block checkpointCrypto minedBlock minedBlock.timestamp = .ok minedCoinstate ∧
    (run checkpointCrypto minedStart minedEvents).node.chain_manager.coinstate.block_by_hash.lookup topHash =
      some Node.topBlock ∧
    pastCoinstate.block_by_hash.lookup minedHash = none ∧ pastCoinstate.block_by_hash.lookup topHash = none := by
  decide +kernel

-- Both are missing afterwards.
theorem mined_block_lost :
    Completes checkpointCrypto (run checkpointCrypto minedStart minedEvents) minedBlock.timestamp 0
      minedBlock.header.pow_evidence.summary_hash minedBlock minedHash minedCoinstate ∧
    ¬NoLostUpdate checkpointCrypto minedStart (minedEvents ++ [minedOutput]) ∧
    (run checkpointCrypto minedStart minedEvents).node.chain_manager.coinstate.block_by_hash.lookup topHash =
      some Node.topBlock ∧
    (run checkpointCrypto minedStart
      (minedEvents ++ [minedOutput])).node.chain_manager.coinstate.block_by_hash.lookup topHash = none := by
  obtain ⟨hcoinstate, hargs, hevidence, hnew, hhash, hsolved, hadd, htop, hmined, hgone⟩ := mined_run
  have hcompletes : Completes checkpointCrypto (run checkpointCrypto minedStart minedEvents) minedBlock.timestamp 0
      minedBlock.header.pow_evidence.summary_hash minedBlock minedHash minedCoinstate := by
    rw [← hcoinstate] at hevidence hadd
    exact ⟨⟨163002, hargs, hevidence⟩, hnew, hhash, hsolved, hadd⟩
  have hafter : (run checkpointCrypto minedStart
      (minedEvents ++ [minedOutput])).node.chain_manager.coinstate = pastCoinstate := by
    rw [run_append, minedOutput, run_output, hcompletes.coinstate, hcoinstate]
  refine ⟨hcompletes, ?_, htop, ?_⟩
  · intro hlost
    have hsplit : minedEvents ++ [minedOutput] = minedEvents ++ .scrypt_output minedBlock.timestamp
        ⟨.ofNat 64 9⟩ 0 minedBlock.header.pow_evidence.summary_hash :: [] := by rw [minedOutput]
    have hkeeps := hlost minedEvents minedBlock.timestamp ⟨.ofNat 64 9⟩ 0
      minedBlock.header.pow_evidence.summary_hash [] minedBlock minedHash minedCoinstate hsplit hcompletes
    rw [← hsplit] at hkeeps
    obtain ⟨block, hblock⟩ := hkeeps.known
    rw [hafter, hmined] at hblock
    cases hblock
  · rw [hafter]
    exact hgone

end Mined

end MinerWatcher

end Skepticoin
