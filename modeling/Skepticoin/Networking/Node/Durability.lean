import Skepticoin.BlockStore.Flush
import Skepticoin.Networking.Node.Theorems

namespace Skepticoin

open Guard FMap Effect

namespace Node

variable {crypto : Crypto} {node start : Node} {received : Received} {messages : List Received}

def Kept (crypto : Crypto) (store : BlockStore) (block : Block) : Prop :=
  BlockStore.OnDisk crypto store.committed block ∨ block ∈ store.write_buffer

-- The three copies of the chain include one another: what was last known to be
-- valid is on disk and in the current coinstate, and that is on disk or in the
-- buffer.
structure Durable (crypto : Crypto) (node : Node) : Prop where
  current : ∀ h block, node.chain_manager.coinstate.block_by_hash.lookup h = some block →
    Kept crypto node.block_store block
  last : ∃ last, node.chain_manager.last_known_valid_coinstate = some last ∧
    ∀ h block, last.block_by_hash.lookup h = some block →
      BlockStore.OnDisk crypto node.block_store.committed block ∧
      node.chain_manager.coinstate.block_by_hash.lookup h = some block

-- Where the handler flushes the buffer, the database takes it.
def WritesSucceed (crypto : Crypto) (node : Node) (received : Received) : Prop :=
  ∀ h next transaction_pool, Flushes crypto node received h next transaction_pool →
    (BlockStore.flush_blocks_to_disk crypto (node.buffered received.block)).1 = .ok ()

section Step

theorem Kept.buffered {block : Block} (h : Kept crypto node.block_store block) (other : Block) :
    Kept crypto (node.buffered other) block := by
  cases h with
  | inl hdisk => exact .inl hdisk
  | inr hbuffer => exact .inr (List.mem_append_left _ hbuffer)

theorem kept_received (node : Node) (block : Block) : Kept crypto (node.buffered block) block :=
  .inr (List.mem_append_right _ List.mem_cons_self)

-- A flush that returns puts on disk what was kept.
theorem Kept.flush {store : BlockStore} {block : Block} (h : Kept crypto store block)
    (hflush : (BlockStore.flush_blocks_to_disk crypto store).1 = .ok ()) :
    BlockStore.OnDisk crypto (BlockStore.flush_blocks_to_disk crypto store).2.committed block := by
  obtain ⟨_, _, params, hparams, hcommitted⟩ := BlockStore.flush_blocks_to_disk_eq_ok (Prod.ext hflush rfl)
  rw [hcommitted]
  cases h with
  | inl hdisk => exact hdisk.extend params
  | inr hbuffer => exact BlockStore.on_disk_extend _ hparams hbuffer

-- A block that has been taken is kept with the others.
theorem Durable.taken {h : Hash} {next : CoinState} (hdurable : Durable crypto node)
    (htaken : Taken crypto node received h next) {k : Hash} {block : Block}
    (hlookup : next.block_by_hash.lookup k = some block) :
    Kept crypto (node.buffered received.block) block := by
  cases htaken.lookup.mp hlookup with
  | inl hnew =>
      rw [hnew.2]
      exact kept_received node received.block
  | inr hold => exact (hdurable.current k block hold).buffered received.block

-- The last known valid coinstate stays below a larger current one.
theorem Durable.last_taken {h : Hash} {next last : CoinState} (hdurable : Durable crypto node)
    (htaken : Taken crypto node received h next)
    (hlast : node.chain_manager.last_known_valid_coinstate = some last) {k : Hash} {block : Block}
    (hlookup : last.block_by_hash.lookup k = some block) :
    BlockStore.OnDisk crypto node.block_store.committed block ∧
      next.block_by_hash.lookup k = some block := by
  obtain ⟨last', hlast', hbelow⟩ := hdurable.last
  have hsame : last = last' := Option.some.inj (hlast.symm.trans hlast')
  obtain ⟨hdisk, hcurrent⟩ := hbelow k block (hsame ▸ hlookup)
  exact ⟨hdisk, htaken.lookup.mpr (.inr hcurrent)⟩

-- Each exit of the handler keeps the inclusions.
theorem Durable.handled (hdurable : Durable crypto node) (hwrites : WritesSucceed crypto node received)
    {after : Node} (hcase : Handled crypto node received after) : Durable crypto after := by
  obtain ⟨last, hlast, hbelow⟩ := hdurable.last
  cases hcase with
  | ignored _ => exact hdurable
  | not_added _ _ =>
      refine ⟨?_, last, hlast, hbelow⟩
      intro h block hlookup
      exact (hdurable.current h block hlookup).buffered received.block
  | @rolled_back h next last' transaction_pool _ hlast' =>
      have hsame : last = last' := Option.some.inj (hlast.symm.trans hlast')
      subst hsame
      refine ⟨?_, last, rfl, ?_⟩
      · intro k block hlookup
        exact .inl (hbelow k block hlookup).1
      · intro k block hlookup
        exact ⟨(hbelow k block hlookup).1, hlookup⟩
  | @roll_back_raises h next last' _ hlast' =>
      have hsame : last = last' := Option.some.inj (hlast.symm.trans hlast')
      subst hsame
      refine ⟨?_, last, hlast, ?_⟩
      · intro k block hlookup
        exact .inl (hbelow k block hlookup).1
      · intro k block hlookup
        exact ⟨(hbelow k block hlookup).1, hlookup⟩
  | not_rolled_back _ hnone =>
      rw [hlast] at hnone
      cases hnone
  | @passed h next transaction_pool broadcast hflushes =>
      have hflush := hwrites h next transaction_pool hflushes
      have hdisk : ∀ k block, next.block_by_hash.lookup k = some block →
          BlockStore.OnDisk crypto
            (BlockStore.flush_blocks_to_disk crypto (node.buffered received.block)).2.committed block :=
        fun k block hlookup => (hdurable.taken hflushes.toTaken hlookup).flush hflush
      exact ⟨fun k block hlookup => .inl (hdisk k block hlookup), next, rfl,
        fun k block hlookup => ⟨hdisk k block hlookup, hlookup⟩⟩
  | @pass_raises h next hpasses _ =>
      refine ⟨?_, last, hlast, ?_⟩
      · intro k block hlookup
        exact hdurable.taken hpasses.toTaken hlookup
      · intro k block hlookup
        exact hdurable.last_taken hpasses.toTaken hlast hlookup
  | @skipped h next transaction_pool broadcast hskips =>
      refine ⟨?_, last, hlast, ?_⟩
      · intro k block hlookup
        exact hdurable.taken hskips.toTaken hlookup
      · intro k block hlookup
        exact hdurable.last_taken hskips.toTaken hlast hlookup

end Step

-- After every handler call, whether it returns or raises.
theorem durable_run (hlast : start.chain_manager.last_known_valid_coinstate = some start.chain_manager.coinstate)
    (hdisk : ∀ h block, start.chain_manager.coinstate.block_by_hash.lookup h = some block →
      BlockStore.OnDisk crypto start.block_store.committed block)
    (hwrites : ∀ before received after, messages = before ++ received :: after →
      WritesSucceed crypto (run crypto start before) received) :
    Durable crypto (run crypto start messages) := by
  apply run_induction (P := fun _ => Durable crypto)
  · refine ⟨?_, start.chain_manager.coinstate, hlast, ?_⟩
    · intro h block hlookup
      exact .inl (hdisk h block hlookup)
    · intro h block hlookup
      exact ⟨hdisk h block hlookup, hlookup⟩
  · intro before received after hsplit hdurable
    exact hdurable.handled (hwrites before received after hsplit) (handle_block_received_cases crypto _ received)

-- A node that knows the genesis block only.
section Sample

theorem only_genesis {coinstate : CoinState} (hzero : CoinState.zero crypto = .ok coinstate) {h : Hash}
    {block : Block} (hlookup : coinstate.block_by_hash.lookup h = some block) : block = genesis_block crypto := by
  rw [CoinState.zero_eq] at hzero
  obtain ⟨_, _, hash, _, _, _, _, _, _, _, hcoinstate⟩ := CoinState.add_block_no_validation_eq_ok.mp hzero
  rw [← hcoinstate] at hlookup
  have hinserted : (CoinState.empty.block_by_hash.insert hash (genesis_block crypto)).lookup h = some block := hlookup
  cases lookup_insert_eq_some.mp hinserted with
  | inl hnew => exact hnew.2.symm
  | inr hold => cases hold.2

def genesisNode : Node where
  chain_manager := ⟨zeroCoinstate, [], some zeroCoinstate⟩
  block_store := BlockStore.newStore
  broadcast := []

-- A block that is sent in response to a request is not validated.
def sent (in_response_to : Nat) (block : Block) : Received where
  current_timestamp := 1700000000
  header := ⟨0, 0, in_response_to, 0⟩
  block

theorem sent_block (in_response_to : Nat) (block : Block) : (sent in_response_to block).block = block := rfl

def genesisHash : Hash := BlockStore.residueHash (genesis_block .residue)

-- A block that is not validated and would fail, one that fails, and a good one.
def mixedMessages : List Received :=
  [sent 1 (claimedBlock 163001 genesisHash), sent 0 (claimedBlock 163002 genesisHash),
    sent 0 BlockStore.firstSibling]

theorem newStore_new : BlockStore.new .residue = .ok BlockStore.newStore := by decide +kernel

theorem genesisNode_on_disk : ∀ h block,
    genesisNode.chain_manager.coinstate.block_by_hash.lookup h = some block →
      BlockStore.OnDisk .residue genesisNode.block_store.committed block := by
  intro h block hlookup
  have hblock : block = genesis_block .residue := only_genesis high_runs.1 hlookup
  obtain ⟨rows, hrows, hstore⟩ := BlockStore.new_eq_ok newStore_new
  have hcommitted : BlockStore.newStore.committed = BlockStore.extend ⟨[], [], [], []⟩ [rows] := by rw [hstore]
  refine ⟨rows, hblock ▸ hrows, ?_⟩
  rw [genesisNode, hcommitted]
  exact BlockStore.holds_extend _ List.mem_cons_self

theorem durable_run_mixed : Durable .residue (run .residue genesisNode mixedMessages) := by
  have hwrites : ∀ k < 3, ∀ received ∈ (mixedMessages.drop k).head?,
      (BlockStore.flush_blocks_to_disk .residue
        ((run .residue genesisNode (mixedMessages.take k)).buffered received.block)).1 = .ok () := by
    decide +kernel
  have hlast : genesisNode.chain_manager.last_known_valid_coinstate =
      some genesisNode.chain_manager.coinstate := by simp only [genesisNode]
  apply durable_run hlast genesisNode_on_disk
  intro before received after hsplit _ _ _ _
  have hshort : before.length < 3 := by
    have hlength := congrArg List.length hsplit
    simp [mixedMessages] at hlength
    omega
  have hstep := hwrites before.length hshort received (by simp [hsplit])
  rw [hsplit, List.take_left] at hstep
  exact hstep

end Sample

end Node

end Skepticoin
