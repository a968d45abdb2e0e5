import Skepticoin.CoinState.Theorems
import Skepticoin.Networking.Node

namespace Skepticoin

open Guard FMap Effect

namespace Node

variable {crypto : Crypto} {node : Node} {received : Received} {h : Hash} {next coinstate : CoinState}

-- The block is new to the node, has a known parent and validates by itself.
structure Fresh (crypto : Crypto) (node : Node) (received : Received) (h : Hash) : Prop where
  hash : received.block.hash crypto = .ok h
  unknown : h ∉ node.chain_manager.coinstate.block_by_hash
  parent : received.block.previous_block_hash ∈ node.chain_manager.coinstate.block_by_hash
  by_itself : validate_block_by_itself crypto received.block received.current_timestamp = .ok ()

-- Its transactions can be applied.
structure Taken (crypto : Crypto) (node : Node) (received : Received) (h : Hash) (next : CoinState) : Prop
    extends Fresh crypto node received h where
  added : node.chain_manager.coinstate.add_block_no_validation crypto received.block = .ok next

def ToValidate (received : Received) : Prop :=
  received.header.in_response_to = 0 ∨ received.block.height % IBD_VALIDATION_SKIP = 0

instance (received : Received) : Decidable (ToValidate received) := by
  unfold ToValidate
  infer_instance

structure Skips (crypto : Crypto) (node : Node) (received : Received) (h : Hash) (next : CoinState) : Prop
    extends Taken crypto node received h next where
  unchecked : ¬ToValidate received

structure Passes (crypto : Crypto) (node : Node) (received : Received) (h : Hash) (next : CoinState) : Prop
    extends Taken crypto node received h next where
  checked : ToValidate received
  validates : validate_block_in_coinstate crypto received.block node.chain_manager.coinstate = .ok ()

structure Fails (crypto : Crypto) (node : Node) (received : Received) (h : Hash) (next : CoinState) : Prop
    extends Taken crypto node received h next where
  checked : ToValidate received
  fails : ∃ e, validate_block_in_coinstate crypto received.block node.chain_manager.coinstate = .error e

-- The pool has been cleaned up for it, so that the buffer is flushed.
structure Flushes (crypto : Crypto) (node : Node) (received : Received) (h : Hash) (next : CoinState)
    (transaction_pool : List Transaction) : Prop extends Passes crypto node received h next where
  cleaned : ChainManager.set_coinstate crypto next true node.chain_manager =
    (.ok (), ⟨next, transaction_pool, some next⟩)

-- The store with one more block in its buffer.
def buffered (node : Node) (block : Block) : BlockStore :=
  { node.block_store with write_buffer := node.block_store.write_buffer ++ [block] }

def saved (node : Node) (block : Block) : Node := { node with block_store := node.buffered block }

-- What the handler can leave behind, each exit of it in turn.
inductive Handled (crypto : Crypto) (node : Node) (received : Received) : Node → Prop
  | ignored : (∀ h, ¬Fresh crypto node received h) → Handled crypto node received node
  | not_added {h : Hash} : Fresh crypto node received h →
    (∀ next, ¬Taken crypto node received h next) →
    Handled crypto node received (node.saved received.block)
  | rolled_back {h : Hash} {next last : CoinState} (transaction_pool : List Transaction) :
    Fails crypto node received h next → node.chain_manager.last_known_valid_coinstate = some last →
    Handled crypto node received { node with
      chain_manager := ⟨last, transaction_pool, some last⟩
      block_store := { node.block_store with write_buffer := [] } }
  | roll_back_raises {h : Hash} {next last : CoinState} :
    Fails crypto node received h next → node.chain_manager.last_known_valid_coinstate = some last →
    Handled crypto node received { node with
      chain_manager := { node.chain_manager with coinstate := last }
      block_store := node.buffered received.block }
  | not_rolled_back {h : Hash} {next : CoinState} :
    Fails crypto node received h next → node.chain_manager.last_known_valid_coinstate = none →
    Handled crypto node received { node with
      block_store := { node.block_store with write_buffer := [] } }
  | passed {h : Hash} {next : CoinState} {transaction_pool : List Transaction} (broadcast : List Block) :
    Flushes crypto node received h next transaction_pool →
    Handled crypto node received {
      chain_manager := ⟨next, transaction_pool, some next⟩
      block_store := (BlockStore.flush_blocks_to_disk crypto (node.buffered received.block)).2
      broadcast }
  | pass_raises {h : Hash} {next : CoinState} :
    Passes crypto node received h next → (∀ transaction_pool, ¬Flushes crypto node received h next transaction_pool) →
    Handled crypto node received { node with
      chain_manager := { node.chain_manager with coinstate := next }
      block_store := node.buffered received.block }
  | skipped {h : Hash} {next : CoinState} (transaction_pool : List Transaction) (broadcast : List Block) :
    Skips crypto node received h next →
    Handled crypto node received {
      chain_manager := ⟨next, transaction_pool, node.chain_manager.last_known_valid_coinstate⟩
      block_store := node.buffered received.block
      broadcast }

section Parts

-- A coinstate is set at once; what was last known to be valid changes only
-- when the pool has been cleaned up without an error.
theorem set_coinstate_cases (crypto : Crypto) (manager : ChainManager) (coinstate : CoinState) (validated : Bool) :
    (∃ transaction_pool, ChainManager.set_coinstate crypto coinstate validated manager = (.ok (),
        ⟨coinstate, transaction_pool,
          if validated then some coinstate else manager.last_known_valid_coinstate⟩)) ∨
      ∃ e, ChainManager.set_coinstate crypto coinstate validated manager =
        (.error e, { manager with coinstate }) := by
  unfold ChainManager.set_coinstate ChainManager.cleanup_transaction_pool_for_coinstate
  cases hkeep : keepIf (ChainManager.is_valid crypto { manager with coinstate }) manager.transaction_pool with
  | error e =>
      right
      refine ⟨e, ?_⟩
      simp [bind_run, hkeep]
  | ok transaction_pool =>
      left
      refine ⟨transaction_pool, ?_⟩
      cases validated with
      | true => simp [bind_run, hkeep]
      | false => simp [bind_run, hkeep]

theorem set_coinstate_run (crypto : Crypto) (node : Node) (coinstate : CoinState) (validated : Bool) :
    (∃ transaction_pool, ChainManager.set_coinstate crypto coinstate validated node.chain_manager = (.ok (),
        ⟨coinstate, transaction_pool,
          if validated then some coinstate else node.chain_manager.last_known_valid_coinstate⟩) ∧
      set_coinstate crypto coinstate validated node = (.ok (), { node with
        chain_manager := ⟨coinstate, transaction_pool,
          if validated then some coinstate else node.chain_manager.last_known_valid_coinstate⟩ })) ∨
    (∃ e, ChainManager.set_coinstate crypto coinstate validated node.chain_manager =
        (.error e, { node.chain_manager with coinstate }) ∧
      set_coinstate crypto coinstate validated node =
        (.error e, { node with chain_manager := { node.chain_manager with coinstate } })) := by
  unfold set_coinstate on_chain_manager within
  cases set_coinstate_cases crypto node.chain_manager coinstate validated with
  | inl hset =>
      obtain ⟨transaction_pool, hset⟩ := hset
      rw [hset]
      exact .inl ⟨transaction_pool, rfl, rfl⟩
  | inr hset =>
      obtain ⟨e, hset⟩ := hset
      rw [hset]
      exact .inr ⟨e, rfl, rfl⟩

theorem announce_cases (node : Node) (header : MessageHeader) (block : Block) (coinstate : CoinState) :
    ∃ broadcast, (announce header block coinstate node).2 = { node with broadcast } := by
  unfold announce
  cases hhead : coinstate.head with
  | error e => exact ⟨node.broadcast, rfl⟩
  | ok head =>
      rw [bind_run_ok (raw_run _ _)]
      by_cases hannounce : block.eq head ∧ header.in_response_to = 0
      · rw [if_pos hannounce]
        exact ⟨node.broadcast ++ [block], rfl⟩
      · rw [if_neg hannounce]
        exact ⟨node.broadcast, rfl⟩

theorem log_head_run (coinstate : CoinState) (node : Node) : (log_head coinstate node).2 = node := by
  unfold log_head
  cases coinstate.head with
  | error e => rfl
  | ok head => rfl

end Parts

section Cases

theorem roll_back_handled (hfails : Fails crypto node received h next) :
    Handled crypto node received (roll_back crypto (node.saved received.block)).2 := by
  unfold roll_back
  rw [bind_run_ok (read_run _)]
  cases hlast : node.chain_manager.last_known_valid_coinstate with
  | none =>
      have hnone : (node.saved received.block).chain_manager.last_known_valid_coinstate = none := hlast
      rw [hnone]
      exact .not_rolled_back hfails hlast
  | some last =>
      have hsome : (node.saved received.block).chain_manager.last_known_valid_coinstate = some last := hlast
      rw [hsome]
      cases set_coinstate_run crypto (node.saved received.block) last true with
      | inl hset =>
          obtain ⟨transaction_pool, hclean, hset⟩ := hset
          simp only [bind_run_ok hset]
          exact .rolled_back transaction_pool hfails hlast
      | inr hset =>
          obtain ⟨e, hclean, hset⟩ := hset
          simp only [bind_run_error hset]
          exact .roll_back_raises hfails hlast

theorem flush_handled {transaction_pool : List Transaction}
    (hflushes : Flushes crypto node received h next transaction_pool) (self : Node)
    (hself : self = { node.saved received.block with
      chain_manager := ⟨next, transaction_pool, some next⟩ }) :
    Handled crypto node received
      ((flush_blocks crypto >>= fun _ => announce received.header received.block next) self).2 := by
  rw [hself]
  cases hflush : BlockStore.flush_blocks_to_disk crypto (node.buffered received.block) with
  | mk result block_store =>
      have hrun : flush_blocks crypto { node.saved received.block with
          chain_manager := ⟨next, transaction_pool, some next⟩ } = (result, {
            chain_manager := ⟨next, transaction_pool, some next⟩
            block_store
            broadcast := node.broadcast }) := by
        unfold flush_blocks on_block_store within
        simp [saved, hflush]
      have hstore : block_store =
          (BlockStore.flush_blocks_to_disk crypto (node.buffered received.block)).2 := by rw [hflush]
      cases result with
      | error e =>
          rw [bind_run_error hrun, hstore]
          exact .passed _ hflushes
      | ok _ =>
          rw [bind_run_ok hrun]
          obtain ⟨broadcast, hannounce⟩ := announce_cases _ received.header received.block next
          rw [hannounce, hstore]
          exact .passed _ hflushes

theorem handle_new_block_handled (hfresh : Fresh crypto node received h) :
    Handled crypto node received (handle_new_block crypto received.header received.block
      node.chain_manager.coinstate node).2 := by
  have hsave : save_block received.block node = (.ok (), node.saved received.block) := rfl
  unfold handle_new_block
  rw [bind_run_ok hsave]
  cases hadd : node.chain_manager.coinstate.add_block_no_validation crypto received.block with
  | error e =>
      apply Handled.not_added hfresh
      intro next htaken
      rw [htaken.added] at hadd
      cases hadd
  | ok next =>
      have htaken : Taken crypto node received h next := ⟨hfresh, hadd⟩
      rw [bind_run_ok (raw_run _ _)]
      by_cases hcheck : received.header.in_response_to = 0 ∨ received.block.height % IBD_VALIDATION_SKIP = 0
      · rw [if_pos hcheck]
        cases hvalid : validate_block_in_coinstate crypto received.block node.chain_manager.coinstate with
        | error e => exact roll_back_handled ⟨htaken, hcheck, e, hvalid⟩
        | ok _ =>
            have hpasses : Passes crypto node received h next := ⟨htaken, hcheck, hvalid⟩
            cases set_coinstate_run crypto (node.saved received.block) next true with
            | inr hset =>
                obtain ⟨e, hclean, hset⟩ := hset
                simp only [bind_run_error hset]
                apply Handled.pass_raises hpasses
                intro transaction_pool hflushes
                have hboth := hflushes.cleaned.symm.trans hclean
                cases hboth
            | inl hset =>
                obtain ⟨transaction_pool, hclean, hset⟩ := hset
                simp only [bind_run_ok hset]
                exact flush_handled ⟨hpasses, hclean⟩ _ rfl
      · rw [if_neg hcheck]
        have hskips : Skips crypto node received h next := ⟨htaken, hcheck⟩
        cases set_coinstate_run crypto (node.saved received.block) next false with
        | inr hset =>
            obtain ⟨e, hclean, hset⟩ := hset
            simp only [bind_run_error hset]
            exact .skipped _ _ hskips
        | inl hset =>
            obtain ⟨transaction_pool, hclean, hset⟩ := hset
            simp only [bind_run_ok hset]
            obtain ⟨broadcast, hannounce⟩ := announce_cases _ received.header received.block next
            rw [hannounce]
            exact .skipped _ _ hskips

-- The handler does just one of these, whether it returns or raises.
theorem handle_block_received_cases (crypto : Crypto) (node : Node) (received : Received) :
    Handled crypto node received (handle_block_received crypto received node).2 := by
  unfold handle_block_received
  rw [bind_run_ok (read_run node)]
  cases hhash : received.block.hash crypto with
  | error e =>
      apply Handled.ignored
      intro h hfresh
      rw [hfresh.hash] at hhash
      cases hhash
  | ok h =>
      rw [bind_run_ok (raw_run _ _)]
      by_cases hknown : h ∈ node.chain_manager.coinstate.block_by_hash
      · rw [if_pos hknown]
        apply Handled.ignored
        intro h' hfresh
        have hsame : h = h' := Except.ok.inj (hhash.symm.trans hfresh.hash)
        exact hfresh.unknown (hsame ▸ hknown)
      · rw [if_neg hknown]
        by_cases hparent : received.block.previous_block_hash ∉ node.chain_manager.coinstate.block_by_hash
        · rw [if_pos hparent, log_head_run]
          exact .ignored fun _ hfresh => hparent hfresh.parent
        · rw [if_neg hparent]
          cases hself : validate_block_by_itself crypto received.block received.current_timestamp with
          | error e =>
              simp only []
              rw [log_head_run]
              apply Handled.ignored
              intro _ hfresh
              rw [hfresh.by_itself] at hself
              cases hself
          | ok _ => exact handle_new_block_handled ⟨hhash, hknown, not_not.mp hparent, hself⟩

-- What the handler leaves in the chain manager was there before, or has been
-- taken with or without validation.
theorem Handled.keeps {after : Node} {P : CoinState → Prop} (hcase : Handled crypto node received after)
    (hcurrent : P node.chain_manager.coinstate)
    (hlast : ∀ last, node.chain_manager.last_known_valid_coinstate = some last → P last)
    (hnext : ∀ h next, Passes crypto node received h next ∨ Skips crypto node received h next → P next) :
    P after.chain_manager.coinstate ∧
      ∀ last, after.chain_manager.last_known_valid_coinstate = some last → P last := by
  cases hcase with
  | ignored _ => exact ⟨hcurrent, hlast⟩
  | not_added _ _ => exact ⟨hcurrent, hlast⟩
  | not_rolled_back _ _ => exact ⟨hcurrent, hlast⟩
  | @rolled_back _ _ last _ _ hsome =>
      refine ⟨hlast last hsome, ?_⟩
      intro last' hsome'
      rw [← Option.some.inj hsome']
      exact hlast last hsome
  | @roll_back_raises _ _ last _ hsome => exact ⟨hlast last hsome, hlast⟩
  | @passed h next _ _ hflushes =>
      have hvalid := hnext h next (.inl hflushes.toPasses)
      refine ⟨hvalid, ?_⟩
      intro last' hsome'
      rw [← Option.some.inj hsome']
      exact hvalid
  | @pass_raises h next hpasses _ => exact ⟨hnext h next (.inl hpasses), hlast⟩
  | @skipped h next _ _ hskips => exact ⟨hnext h next (.inr hskips), hlast⟩

end Cases

-- One message after another. What a handler raises ends that handler only.
def run (crypto : Crypto) (node : Node) (messages : List Received) : Node :=
  calls (messages.map (handle_block_received crypto)) node

@[simp] theorem run_nil (node : Node) : run crypto node [] = node := rfl

theorem run_append (node : Node) (first second : List Received) :
    run crypto node (first ++ second) = run crypto (run crypto node first) second := by
  simp [run, calls]

-- What each handler call keeps from the state before it holds after all.
theorem run_induction {P : List Received → Node → Prop} {start : Node} {messages : List Received}
    (hstart : P [] start)
    (hstep : ∀ before received after, messages = before ++ received :: after → P before (run crypto start before) →
      P (before ++ [received]) (handle_block_received crypto received (run crypto start before)).2) :
    P messages (run crypto start messages) := by
  have hprefix : ∀ before after, messages = before ++ after → P before (run crypto start before) := by
    intro before
    induction before using List.reverseRecOn with
    | nil => exact fun _ _ => hstart
    | append_singleton before received ih =>
        intro after hsplit
        have hsplit' : messages = before ++ received :: after := by
          rw [hsplit, List.append_assoc, List.singleton_append]
        rw [run_append]
        exact hstep before received after hsplit' (ih (received :: after) hsplit')
  exact hprefix messages [] (List.append_nil messages).symm

-- What a block is added to stays as it was, apart from the new hash.
theorem Taken.lookup (htaken : Taken crypto node received h next) {k : Hash} {block : Block} :
    next.block_by_hash.lookup k = some block ↔
      k = h ∧ block = received.block ∨ node.chain_manager.coinstate.block_by_hash.lookup k = some block := by
  obtain ⟨_, _, _, _, hmap, _⟩ := CoinState.maps_of_add htaken.hash htaken.added
  rw [hmap, lookup_insert_eq_ite]
  by_cases hk : k = h
  · rw [if_pos hk, hk]
    have hnone := Finmap.lookup_eq_none.mpr htaken.unknown
    rw [hnone]
    simp [eq_comm]
  · rw [if_neg hk]
    simp [hk]

end Node

end Skepticoin
