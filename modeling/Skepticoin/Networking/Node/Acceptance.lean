import Skepticoin.CoinState.Growth
import Skepticoin.Networking.Node.Theorems
import Skepticoin.Networking.Pool

namespace Skepticoin

open Guard FMap Effect

variable {crypto : Crypto}

theorem CoinState.Grown.built {entries : List (Hash × Block)} {coinstate : CoinState}
    (h : CoinState.Grown crypto entries coinstate) : CoinState.Built crypto coinstate := by
  induction h with
  | root _ _ hadd => exact .add .empty hadd
  | add _ _ _ _ _ _ hadd ih => exact .add ih hadd

theorem CoinState.head_current {coinstate : CoinState} {head : Block} (h : coinstate.head = .ok head) :
    ∃ hash, coinstate.current_chain_hash = some hash := by
  rw [CoinState.head] at h
  cases hcurrent : coinstate.current_chain_hash with
  | none =>
      rw [hcurrent] at h
      cases h
  | some hash => exact ⟨hash, rfl⟩

-- The pool can be cleaned up for any coinstate that has a head.
theorem set_coinstate_ok (hverify : VerifyAnswers crypto) {manager : ChainManager} (horderly : PoolOrderly manager)
    {coinstate : CoinState} (hbuilt : CoinState.Built crypto coinstate) {head : Block}
    (hhead : coinstate.head = .ok head) (validated : Bool) :
    ∃ transaction_pool, PoolOrderly { manager with transaction_pool } ∧
      ChainManager.set_coinstate crypto coinstate validated manager = (.ok (), ⟨coinstate, transaction_pool,
        if validated then some coinstate else manager.last_known_valid_coinstate⟩) := by
  obtain ⟨hash, hcurrent⟩ := CoinState.head_current hhead
  unfold ChainManager.set_coinstate ChainManager.cleanup_transaction_pool_for_coinstate
  cases hkeep : keepIf (ChainManager.is_valid crypto { manager with coinstate }) manager.transaction_pool with
  | ok transaction_pool =>
      refine ⟨transaction_pool, horderly.sublist (keepIf_sublist hkeep), ?_⟩
      cases validated with
      | true => simp [bind_run, hkeep]
      | false => simp [bind_run, hkeep]
  | error e =>
      exfalso
      obtain ⟨t, ht, hraise⟩ := keepIf_error hkeep
      obtain ⟨hcheck, hkind⟩ := succeeds_error hraise
      rw [ChainManager.validate_in_current_coinstate, hcurrent] at hcheck
      have hcaught := validate_at_head_raises hverify (horderly.by_itself t ht) (hbuilt.unspent hash hcurrent) e hcheck
      rw [hkind] at hcaught
      cases hcaught

namespace Node

variable {node : Node} {received : Received} {h : Hash} {next : CoinState} {head : Block}

-- The store after a block that goes well, whether or not it has been asked for.
def take_block (crypto : Crypto) (unasked : Bool) (store : BlockStore) (block : Block) : BlockStore :=
  let buffered := { store with write_buffer := store.write_buffer ++ [block] }
  if unasked ∨ block.height % IBD_VALIDATION_SKIP = 0 then (BlockStore.flush_blocks_to_disk crypto buffered).2
  else buffered

-- The database takes the blocks one after another.
def WritesGo (crypto : Crypto) (unasked : Bool) : BlockStore → List Block → Prop
  | _, [] => True
  | store, block :: blocks =>
    (unasked ∨ block.height % IBD_VALIDATION_SKIP = 0 → (BlockStore.flush_blocks_to_disk crypto
      { store with write_buffer := store.write_buffer ++ [block] }).1 = .ok ()) ∧
    WritesGo crypto unasked (take_block crypto unasked store block) blocks

def stored (crypto : Crypto) (node : Node) (received : Received) : BlockStore :=
  take_block crypto (received.header.in_response_to = 0) node.block_store received.block

theorem stored_checked (htodo : ToValidate received) :
    node.stored crypto received = (BlockStore.flush_blocks_to_disk crypto (node.buffered received.block)).2 := by
  rw [stored, take_block, if_pos (by simpa [ToValidate] using htodo)]
  rfl

theorem stored_unchecked (htodo : ¬ToValidate received) :
    node.stored crypto received = node.buffered received.block := by
  rw [stored, take_block, if_neg (by simpa [ToValidate] using htodo)]
  rfl

-- What is told to the other peers.
def announced (received : Received) (head : Block) : List Block :=
  if received.block.eq head ∧ received.header.in_response_to = 0 then [received.block] else []

-- The block validates, whether or not it has to, and where the buffer is
-- flushed the database takes it.
structure Good (crypto : Crypto) (node : Node) (received : Received) (h : Hash) (next : CoinState) (head : Block) : Prop
    extends Taken crypto node received h next where
  validates : validate_block_in_coinstate crypto received.block node.chain_manager.coinstate = .ok ()
  written : ToValidate received → (BlockStore.flush_blocks_to_disk crypto (node.buffered received.block)).1 = .ok ()
  built : CoinState.Built crypto next
  at_head : next.head = .ok head

theorem announce_run (hhead : next.head = .ok head) (node : Node) :
    announce received.header received.block next node =
      (.ok (), { node with broadcast := node.broadcast ++ announced received head }) := by
  rw [announce, hhead, bind_run_ok (raw_run _ _), announced]
  by_cases hannounce : received.block.eq head ∧ received.header.in_response_to = 0
  · rw [if_pos hannounce, if_pos hannounce]
    rfl
  · rw [if_neg hannounce, if_neg hannounce, List.append_nil]
    rfl

-- A good block is taken, whatever is in the pool.
theorem Good.run (hgood : Good crypto node received h next head) (hverify : VerifyAnswers crypto)
    (hpool : PoolOrderly node.chain_manager) :
    ∃ transaction_pool, PoolOrderly { node.chain_manager with transaction_pool } ∧
      handle_block_received crypto received node = (.ok (), {
        chain_manager := ⟨next, transaction_pool,
          if ToValidate received then some next else node.chain_manager.last_known_valid_coinstate⟩
        block_store := node.stored crypto received
        broadcast := node.broadcast ++ announced received head }) := by
  have hsave : save_block received.block node = (.ok (), node.saved received.block) := rfl
  obtain ⟨transaction_pool, horderly, hset⟩ := set_coinstate_ok hverify hpool hgood.built hgood.at_head
    (decide (ToValidate received))
  refine ⟨transaction_pool, horderly, ?_⟩
  have hsetNode : set_coinstate crypto next (decide (ToValidate received)) (node.saved received.block) =
      (.ok (), { node.saved received.block with chain_manager := ⟨next, transaction_pool,
        if ToValidate received then some next else node.chain_manager.last_known_valid_coinstate⟩ }) := by
    rw [set_coinstate, on_chain_manager, within]
    have hmanager : (node.saved received.block).chain_manager = node.chain_manager := rfl
    rw [hmanager, hset]
    simp
  unfold handle_block_received
  rw [bind_run_ok (read_run node), hgood.hash, bind_run_ok (raw_run _ _), if_neg hgood.unknown,
    if_neg (not_not.mpr hgood.parent), hgood.by_itself]
  unfold handle_new_block
  simp only []
  rw [bind_run_ok hsave, hgood.added, bind_run_ok (raw_run _ _)]
  by_cases hcheck : ToValidate received
  · have hchecked : received.header.in_response_to = 0 ∨ received.block.height % IBD_VALIDATION_SKIP = 0 := hcheck
    have hflush : ∀ manager, flush_blocks crypto { node.saved received.block with chain_manager := manager } =
        (.ok (), { node.saved received.block with
          chain_manager := manager
          block_store := node.stored crypto received }) := by
      intro manager
      rw [flush_blocks, on_block_store, within, stored_checked hcheck]
      exact Prod.ext (hgood.written hcheck) rfl
    rw [decide_eq_true hcheck] at hsetNode
    rw [if_pos hchecked, hgood.validates]
    simp only []
    rw [bind_run_ok hsetNode, bind_run_ok (hflush _), announce_run hgood.at_head]
    rfl
  · have hunchecked : ¬(received.header.in_response_to = 0 ∨ received.block.height % IBD_VALIDATION_SKIP = 0) := hcheck
    rw [decide_eq_false hcheck] at hsetNode
    rw [if_neg hunchecked, bind_run_ok hsetNode, announce_run hgood.at_head,
      stored_unchecked hcheck, if_neg hcheck]
    rfl

end Node

end Skepticoin
