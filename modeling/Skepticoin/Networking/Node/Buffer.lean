import Skepticoin.Networking.Node.Durability

namespace Skepticoin

open Guard FMap Effect

namespace Node

variable {crypto : Crypto} {node : Node} {received : Received} {h : Hash} {next last coinstate : CoinState}
  {blocks : List Block}

def AllKnown (crypto : Crypto) (coinstate : CoinState) (blocks : List Block) : Prop :=
  ∀ block ∈ blocks, ∃ hash, block.hash crypto = .ok hash ∧ hash ∈ coinstate.block_by_hash

-- Whatever waits to be written is in the current coinstate.
def BufferKnown (crypto : Crypto) (node : Node) : Prop :=
  AllKnown crypto node.chain_manager.coinstate node.block_store.write_buffer

-- The block is in order by itself, but its transactions cannot be applied.
def Unappliable (crypto : Crypto) (node : Node) (received : Received) : Prop :=
  (∃ h, Fresh crypto node received h) ∧
    ∀ next, node.chain_manager.coinstate.add_block_no_validation crypto received.block ≠ .ok next

-- The block does not validate, and the pool cannot be cleaned up for the
-- coinstate to go back to, where something of the buffer is unknown.
def StuckGoingBack (crypto : Crypto) (node : Node) (received : Received) : Prop :=
  ∃ h next last e, Fails crypto node received h next ∧
    node.chain_manager.last_known_valid_coinstate = some last ∧
    (ChainManager.set_coinstate crypto last true node.chain_manager).1 = .error e ∧
    ¬AllKnown crypto last (node.block_store.write_buffer ++ [received.block])

section Known

theorem AllKnown.mono (hknown : AllKnown crypto coinstate blocks)
    (h : ∀ hash ∈ coinstate.block_by_hash, hash ∈ next.block_by_hash) : AllKnown crypto next blocks := by
  intro block hblock
  obtain ⟨hash, hhash, hmem⟩ := hknown block hblock
  exact ⟨hash, hhash, h hash hmem⟩

theorem AllKnown.nil : AllKnown crypto coinstate [] := fun _ hmem => absurd hmem List.not_mem_nil

theorem not_all_known {block : Block} {hash : Hash} (hmem : block ∈ blocks) (hhash : block.hash crypto = .ok hash)
    (hunknown : hash ∉ coinstate.block_by_hash) : ¬AllKnown crypto coinstate blocks := by
  intro hknown
  obtain ⟨hash', hhash', hmem'⟩ := hknown block hmem
  have hsame : hash = hash' := Except.ok.inj (hhash.symm.trans hhash')
  exact hunknown (hsame ▸ hmem')

-- A block that has been taken is known with the others.
theorem Taken.all_known (htaken : Taken crypto node received h next) (hbuffer : BufferKnown crypto node) :
    AllKnown crypto next (node.buffered received.block).write_buffer := by
  intro block hblock
  cases List.mem_append.mp hblock with
  | inr hnew =>
      rw [List.mem_singleton.mp hnew]
      exact ⟨h, htaken.hash, Finmap.mem_of_lookup_eq_some (htaken.lookup.mpr (.inl ⟨rfl, rfl⟩))⟩
  | inl hold =>
      obtain ⟨hash, hhash, hmem⟩ := hbuffer block hold
      obtain ⟨known, hlookup⟩ := Finmap.mem_iff.mp hmem
      exact ⟨hash, hhash, Finmap.mem_of_lookup_eq_some (htaken.lookup.mpr (.inr hlookup))⟩

theorem flush_buffer_subset (crypto : Crypto) (store : BlockStore) :
    ∀ block ∈ (BlockStore.flush_blocks_to_disk crypto store).2.write_buffer, block ∈ store.write_buffer := by
  cases hflush : BlockStore.flush_blocks_to_disk crypto store with
  | mk result after =>
      cases result with
      | error e =>
          rw [(BlockStore.flush_blocks_to_disk_raises hflush).2.1]
          exact fun _ hmem => hmem
      | ok u =>
          rw [(BlockStore.flush_blocks_to_disk_eq_ok hflush).1]
          exact fun _ hmem => absurd hmem List.not_mem_nil

end Known

-- What follows a block that does not validate, exactly.
section Fails

theorem Fails.run (hfails : Fails crypto node received h next) :
    (handle_block_received crypto received node).2 = (roll_back crypto (node.saved received.block)).2 := by
  have hsave : save_block received.block node = (.ok (), node.saved received.block) := rfl
  have hchecked : received.header.in_response_to = 0 ∨ received.block.height % IBD_VALIDATION_SKIP = 0 :=
    hfails.checked
  obtain ⟨e, herror⟩ := hfails.fails
  unfold handle_block_received
  rw [bind_run_ok (read_run node), hfails.hash, bind_run_ok (raw_run _ _), if_neg hfails.unknown,
    if_neg (not_not.mpr hfails.parent), hfails.by_itself]
  unfold handle_new_block
  simp only []
  rw [bind_run_ok hsave, hfails.added, bind_run_ok (raw_run _ _), if_pos hchecked, herror]

theorem Fails.run_stuck {e : PyError} (hfails : Fails crypto node received h next)
    (hlast : node.chain_manager.last_known_valid_coinstate = some last)
    (hset : (ChainManager.set_coinstate crypto last true node.chain_manager).1 = .error e) :
    (handle_block_received crypto received node).2 = { node with
      chain_manager := { node.chain_manager with coinstate := last }
      block_store := node.buffered received.block } := by
  have hsome : (node.saved received.block).chain_manager.last_known_valid_coinstate = some last := hlast
  rw [hfails.run, roll_back, bind_run_ok (read_run _), hsome]
  cases set_coinstate_run crypto (node.saved received.block) last true with
  | inl hclean =>
      obtain ⟨_, hclean, _⟩ := hclean
      rw [show node.chain_manager = (node.saved received.block).chain_manager from rfl, hclean] at hset
      cases hset
  | inr hraise =>
      obtain ⟨_, _, hraise⟩ := hraise
      simp only [bind_run_error hraise]
      rfl

theorem Fails.run_cleared (hfails : Fails crypto node received h next)
    (hset : ∀ last, node.chain_manager.last_known_valid_coinstate = some last →
      (ChainManager.set_coinstate crypto last true node.chain_manager).1 = .ok ()) :
    (handle_block_received crypto received node).2.block_store.write_buffer = [] := by
  rw [hfails.run, roll_back, bind_run_ok (read_run _)]
  cases hlast : node.chain_manager.last_known_valid_coinstate with
  | none =>
      have hnone : (node.saved received.block).chain_manager.last_known_valid_coinstate = none := hlast
      rw [hnone]
      rfl
  | some last =>
      have hsome : (node.saved received.block).chain_manager.last_known_valid_coinstate = some last := hlast
      rw [hsome]
      cases set_coinstate_run crypto (node.saved received.block) last true with
      | inl hclean =>
          obtain ⟨_, _, hclean⟩ := hclean
          simp only [bind_run_ok hclean]
          rfl
      | inr hraise =>
          obtain ⟨_, hraise, _⟩ := hraise
          have hboth := hset last hlast
          rw [show node.chain_manager = (node.saved received.block).chain_manager from rfl, hraise] at hboth
          cases hboth

end Fails

section Exits

theorem buffer_known_of_fails (hfails : Fails crypto node received h next)
    (hstuck : ¬StuckGoingBack crypto node received) :
    BufferKnown crypto (handle_block_received crypto received node).2 := by
  cases hlast : node.chain_manager.last_known_valid_coinstate with
  | none =>
      have hempty := hfails.run_cleared fun last hsome => by rw [hlast] at hsome; cases hsome
      rw [BufferKnown, hempty]
      exact AllKnown.nil
  | some last =>
      cases hset : (ChainManager.set_coinstate crypto last true node.chain_manager).1 with
      | ok u =>
          have hempty := hfails.run_cleared fun last' hsome => by
            rw [← Option.some.inj (hlast.symm.trans hsome), hset]
          rw [BufferKnown, hempty]
          exact AllKnown.nil
      | error e =>
          have hall : AllKnown crypto last (node.block_store.write_buffer ++ [received.block]) := by
            by_contra hunknown
            exact hstuck ⟨h, next, last, e, hfails, hlast, hset, hunknown⟩
          rw [hfails.run_stuck hlast hset]
          exact hall

-- Each exit of the handler but those two leaves a buffer of known blocks.
theorem buffer_known_of_neither (hbuffer : BufferKnown crypto node)
    (hunappliable : ¬Unappliable crypto node received) (hstuck : ¬StuckGoingBack crypto node received) :
    BufferKnown crypto (handle_block_received crypto received node).2 := by
  have hcase := handle_block_received_cases crypto node received
  generalize hafter : (handle_block_received crypto received node).2 = after at hcase
  cases hcase with
  | ignored _ => exact hbuffer
  | @not_added h hfresh hnone =>
      exact absurd ⟨⟨h, hfresh⟩, fun next hadded => hnone next ⟨hfresh, hadded⟩⟩ hunappliable
  | rolled_back _ _ _ => exact AllKnown.nil
  | roll_back_raises hfails _ => exact hafter ▸ buffer_known_of_fails hfails hstuck
  | not_rolled_back _ _ => exact AllKnown.nil
  | passed _ hflushes =>
      intro block hblock
      exact hflushes.toTaken.all_known hbuffer block (flush_buffer_subset crypto _ block hblock)
  | pass_raises hpasses _ => exact hpasses.toTaken.all_known hbuffer
  | skipped _ _ hskips => exact hskips.toTaken.all_known hbuffer

theorem buffer_unknown_of_unappliable (hunappliable : Unappliable crypto node received) :
    ¬BufferKnown crypto (handle_block_received crypto received node).2 := by
  obtain ⟨⟨h, hfresh⟩, hnone⟩ := hunappliable
  have hcase := handle_block_received_cases crypto node received
  generalize (handle_block_received crypto received node).2 = after at hcase
  cases hcase with
  | ignored hignored => exact absurd hfresh (hignored h)
  | not_added _ _ =>
      exact not_all_known (List.mem_append_right _ List.mem_cons_self) hfresh.hash hfresh.unknown
  | rolled_back _ hfails _ => exact absurd hfails.added (hnone _)
  | roll_back_raises hfails _ => exact absurd hfails.added (hnone _)
  | not_rolled_back hfails _ => exact absurd hfails.added (hnone _)
  | passed _ hflushes => exact absurd hflushes.added (hnone _)
  | pass_raises hpasses _ => exact absurd hpasses.added (hnone _)
  | skipped _ _ hskips => exact absurd hskips.added (hnone _)

-- The buffer keeps to the coinstate just when the block can be applied, and
-- going back from it does not get stuck.
theorem buffer_known_iff (hbuffer : BufferKnown crypto node) :
    BufferKnown crypto (handle_block_received crypto received node).2 ↔
      ¬Unappliable crypto node received ∧ ¬StuckGoingBack crypto node received := by
  constructor
  · intro hknown
    constructor
    · intro hunappliable
      exact buffer_unknown_of_unappliable hunappliable hknown
    · rintro ⟨h, next, last, e, hfails, hlast, hset, hunknown⟩
      rw [hfails.run_stuck hlast hset] at hknown
      exact hunknown hknown
  · intro hneither
    exact buffer_known_of_neither hbuffer hneither.1 hneither.2

-- A good block arrives at a new node.
theorem buffer_known_iff_first :
    BufferKnown .residue (handle_block_received .residue (sent 0 BlockStore.firstSibling) genesisNode).2 ↔
      ¬Unappliable .residue genesisNode (sent 0 BlockStore.firstSibling) ∧
        ¬StuckGoingBack .residue genesisNode (sent 0 BlockStore.firstSibling) := by
  have hempty : genesisNode.block_store.write_buffer = [] := by decide +kernel
  apply buffer_known_iff
  rw [BufferKnown, hempty]
  exact AllKnown.nil

-- A block that spends an output nobody has made stays behind.
theorem refused_block_buffered :
    BufferKnown .residue genesisNode ∧
      ¬BufferKnown .residue
        (handle_block_received .residue (sent 0 BlockStore.refusedBlock) genesisNode).2 := by
  have hempty : genesisNode.block_store.write_buffer = [] := by decide +kernel
  have hafter : (handle_block_received .residue (sent 0 BlockStore.refusedBlock) genesisNode).2.block_store.write_buffer
      = [BlockStore.refusedBlock] ∧
      BlockStore.refusedBlock.hash .residue = .ok (BlockStore.residueHash BlockStore.refusedBlock) ∧
      BlockStore.residueHash BlockStore.refusedBlock ∉ (handle_block_received .residue
        (sent 0 BlockStore.refusedBlock) genesisNode).2.chain_manager.coinstate.block_by_hash := by
    decide +kernel
  obtain ⟨hbuffer, hhash, hunknown⟩ := hafter
  constructor
  · rw [BufferKnown, hempty]
    exact AllKnown.nil
  · rw [BufferKnown, hbuffer]
    exact not_all_known List.mem_cons_self hhash hunknown

end Exits

end Node

end Skepticoin
