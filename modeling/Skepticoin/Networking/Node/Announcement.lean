import Skepticoin.Networking.Node.Acceptance
import Skepticoin.Networking.Node.Durability

namespace Skepticoin

open Guard FMap Effect

namespace Node

variable {crypto : Crypto} {node : Node} {received : Received} {h : Hash} {next : CoinState} {block : Block}

-- Everything in the one coinstate is in the other.
def Below (lower upper : CoinState) : Prop :=
  ∀ h block, lower.block_by_hash.lookup h = some block → upper.block_by_hash.lookup h = some block

-- A block that may be told to others: it has been validated in what is still
-- known to be valid, it belongs to it now, and it is on disk.
structure Told (crypto : Crypto) (node : Node) (block : Block) : Prop where
  on_disk : BlockStore.OnDisk crypto node.block_store.committed block
  valid : ∃ last before h, node.chain_manager.last_known_valid_coinstate = some last ∧ Below before last ∧
    validate_block_in_coinstate crypto block before = .ok () ∧
    block.hash crypto = .ok h ∧ last.block_by_hash.lookup h = some block

structure Announcing (crypto : Crypto) (node : Node) : Prop where
  below : ∃ last, node.chain_manager.last_known_valid_coinstate = some last ∧
    Below last node.chain_manager.coinstate
  told : ∀ block ∈ node.broadcast, node.Told crypto block
  once : node.broadcast.Pairwise fun first second => first.hash crypto ≠ second.hash crypto

theorem Taken.below (htaken : Taken crypto node received h next) : Below node.chain_manager.coinstate next :=
  fun _ _ hlookup => htaken.lookup.mpr (.inr hlookup)

-- What is on disk stays there, whether or not the flush goes well.
theorem flush_keeps {store : BlockStore} (hdisk : BlockStore.OnDisk crypto store.committed block) :
    BlockStore.OnDisk crypto (BlockStore.flush_blocks_to_disk crypto store).2.committed block := by
  cases hflush : BlockStore.flush_blocks_to_disk crypto store with
  | mk result after =>
      cases result with
      | error e =>
          rw [(BlockStore.flush_blocks_to_disk_raises hflush).1]
          exact hdisk
      | ok u =>
          obtain ⟨_, _, params, _, hcommitted⟩ := BlockStore.flush_blocks_to_disk_eq_ok hflush
          rw [hcommitted]
          exact hdisk.extend params

-- A larger coinstate that is known to be valid, and a store that has no less.
theorem Told.mono {after : Node} (htold : node.Told crypto block)
    (hdisk : ∀ block, BlockStore.OnDisk crypto node.block_store.committed block →
      BlockStore.OnDisk crypto after.block_store.committed block)
    (hlast : ∀ last, node.chain_manager.last_known_valid_coinstate = some last →
      ∃ last', after.chain_manager.last_known_valid_coinstate = some last' ∧ Below last last') :
    after.Told crypto block := by
  obtain ⟨last, before, h, hsome, hbefore, hvalid, hhash, hlookup⟩ := htold.valid
  obtain ⟨last', hsome', hbelow⟩ := hlast last hsome
  exact ⟨hdisk block htold.on_disk, last', before, h, hsome', fun k b hb => hbelow k b (hbefore k b hb), hvalid, hhash,
    hbelow h block hlookup⟩

-- What is told, for each of the ways in which a block is taken.
section Exits

theorem announce_broadcast (node : Node) (header : MessageHeader) (block : Block) (coinstate : CoinState) :
    (announce header block coinstate node).2.broadcast = node.broadcast ∨
      header.in_response_to = 0 ∧ (announce header block coinstate node).2.broadcast = node.broadcast ++ [block] := by
  unfold announce
  cases hhead : coinstate.head with
  | error e => exact .inl rfl
  | ok head =>
      rw [bind_run_ok (raw_run _ _)]
      by_cases hannounce : block.eq head ∧ header.in_response_to = 0
      · rw [if_pos hannounce]
        exact .inr ⟨hannounce.2, rfl⟩
      · rw [if_neg hannounce]
        exact .inl rfl

theorem Skips.run (hskips : Skips crypto node received h next) :
    handle_block_received crypto received node = (do
      set_coinstate crypto next false
      announce received.header received.block next : Action Node PyError Unit) (node.saved received.block) := by
  have hsave : save_block received.block node = (.ok (), node.saved received.block) := rfl
  have hunchecked : ¬(received.header.in_response_to = 0 ∨ received.block.height % IBD_VALIDATION_SKIP = 0) :=
    hskips.unchecked
  unfold handle_block_received
  rw [bind_run_ok (read_run node), hskips.hash, bind_run_ok (raw_run _ _), if_neg hskips.unknown,
    if_neg (not_not.mpr hskips.parent), hskips.by_itself]
  unfold handle_new_block
  simp only []
  rw [bind_run_ok hsave, hskips.added, bind_run_ok (raw_run _ _), if_neg hunchecked]

theorem Passes.run (hpasses : Passes crypto node received h next) :
    handle_block_received crypto received node = (do
      set_coinstate crypto next true
      flush_blocks crypto
      announce received.header received.block next : Action Node PyError Unit) (node.saved received.block) := by
  have hsave : save_block received.block node = (.ok (), node.saved received.block) := rfl
  have hchecked : received.header.in_response_to = 0 ∨ received.block.height % IBD_VALIDATION_SKIP = 0 :=
    hpasses.checked
  unfold handle_block_received
  rw [bind_run_ok (read_run node), hpasses.hash, bind_run_ok (raw_run _ _), if_neg hpasses.unknown,
    if_neg (not_not.mpr hpasses.parent), hpasses.by_itself]
  unfold handle_new_block
  simp only []
  rw [bind_run_ok hsave, hpasses.added, bind_run_ok (raw_run _ _), if_pos hchecked, hpasses.validates]

-- A block that is asked for is told to nobody.
theorem Skips.broadcast (hskips : Skips crypto node received h next) :
    (handle_block_received crypto received node).2.broadcast = node.broadcast := by
  rw [hskips.run]
  cases set_coinstate_run crypto (node.saved received.block) next false with
  | inr hset =>
      obtain ⟨e, _, hset⟩ := hset
      rw [bind_run_error hset]
      rfl
  | inl hset =>
      obtain ⟨transaction_pool, _, hset⟩ := hset
      rw [bind_run_ok hset]
      cases announce_broadcast _ received.header received.block next with
      | inl hsame => exact hsame
      | inr htold => exact absurd (.inl htold.1) hskips.unchecked

-- A block is told to others after it has been written.
theorem Flushes.broadcast {transaction_pool : List Transaction}
    (hflushes : Flushes crypto node received h next transaction_pool) :
    (handle_block_received crypto received node).2.broadcast = node.broadcast ∨
      (BlockStore.flush_blocks_to_disk crypto (node.buffered received.block)).1 = .ok () ∧
        (handle_block_received crypto received node).2.broadcast = node.broadcast ++ [received.block] := by
  rw [hflushes.toPasses.run]
  cases set_coinstate_run crypto (node.saved received.block) next true with
  | inr hset =>
      obtain ⟨e, hraise, _⟩ := hset
      cases hflushes.cleaned.symm.trans hraise
  | inl hset =>
      obtain ⟨pool, _, hset⟩ := hset
      rw [bind_run_ok hset]
      cases hflush : BlockStore.flush_blocks_to_disk crypto (node.buffered received.block) with
      | mk result block_store =>
          have hrun : ∀ manager, flush_blocks crypto { node.saved received.block with chain_manager := manager } =
              (result, { node.saved received.block with chain_manager := manager, block_store }) := by
            intro manager
            unfold flush_blocks on_block_store within
            simp [saved, hflush]
          cases result with
          | error e =>
              rw [bind_run_error (hrun _)]
              exact .inl rfl
          | ok _ =>
              rw [bind_run_ok (hrun _)]
              cases announce_broadcast _ received.header received.block next with
              | inl hsame => exact .inl hsame
              | inr htold => exact .inr ⟨rfl, htold.2⟩

-- What has been told is never taken back.
theorem broadcast_grows (node : Node) (received : Received) :
    ∃ extra, (handle_block_received crypto received node).2.broadcast = node.broadcast ++ extra := by
  have hcase := handle_block_received_cases crypto node received
  generalize hafter : (handle_block_received crypto received node).2 = after at hcase
  cases hcase with
  | ignored _ => exact ⟨[], (List.append_nil _).symm⟩
  | not_added _ _ => exact ⟨[], (List.append_nil _).symm⟩
  | rolled_back _ _ _ => exact ⟨[], (List.append_nil _).symm⟩
  | roll_back_raises _ _ => exact ⟨[], (List.append_nil _).symm⟩
  | not_rolled_back _ _ => exact ⟨[], (List.append_nil _).symm⟩
  | pass_raises _ _ => exact ⟨[], (List.append_nil _).symm⟩
  | skipped _ _ hskips =>
      exact ⟨[], ((congrArg Node.broadcast hafter).symm.trans hskips.broadcast).trans (List.append_nil _).symm⟩
  | passed _ hflushes =>
      have hsame := (congrArg Node.broadcast hafter).symm
      cases hflushes.broadcast with
      | inl hnothing => exact ⟨[], (hsame.trans hnothing).trans (List.append_nil _).symm⟩
      | inr htold => exact ⟨[received.block], hsame.trans htold.2⟩

end Exits

-- What the handler does to a node keeps the announcements in order. A block that
-- has been told is known for good, so that it is not new again.
section Step

theorem Announcing.pool (hannouncing : node.Announcing crypto) (transaction_pool : List Transaction) :
    { node with chain_manager := { node.chain_manager with transaction_pool } }.Announcing crypto :=
  ⟨hannouncing.below, fun block hblock => (hannouncing.told block hblock).mono (fun _ hdisk => hdisk)
    fun last hlast => ⟨last, hlast, fun _ _ hb => hb⟩, hannouncing.once⟩

-- Nothing more is told, and what is known to be valid stays.
theorem Announcing.silent {after : Node} (hannouncing : node.Announcing crypto)
    (hsame : after.broadcast = node.broadcast)
    (hdisk : ∀ block, BlockStore.OnDisk crypto node.block_store.committed block →
      BlockStore.OnDisk crypto after.block_store.committed block)
    (hlast : ∀ last, node.chain_manager.last_known_valid_coinstate = some last →
      Below last node.chain_manager.coinstate →
      ∃ last', after.chain_manager.last_known_valid_coinstate = some last' ∧ Below last last' ∧
        Below last' after.chain_manager.coinstate) : after.Announcing crypto := by
  obtain ⟨last, hsome, hbelow⟩ := hannouncing.below
  obtain ⟨last', hsome', hgrown, hbelow'⟩ := hlast last hsome hbelow
  refine ⟨⟨last', hsome', hbelow'⟩, fun block hblock => ?_, hsame ▸ hannouncing.once⟩
  refine (hannouncing.told block (hsame ▸ hblock)).mono hdisk fun other hother => ?_
  rw [Option.some.inj (hother.symm.trans hsome)]
  exact ⟨last', hsome', hgrown⟩

theorem Announcing.not_told (hannouncing : node.Announcing crypto) (hfresh : Fresh crypto node received h) :
    ∀ block ∈ node.broadcast, block.hash crypto ≠ received.block.hash crypto := by
  intro block hblock hequal
  obtain ⟨last, _, k, hsome, _, _, hhash, hlookup⟩ := (hannouncing.told block hblock).valid
  obtain ⟨last', hsome', hbelow⟩ := hannouncing.below
  rw [Option.some.inj (hsome.symm.trans hsome')] at hlookup
  have hsame : k = h := Except.ok.inj (hhash.symm.trans (hequal.trans hfresh.hash))
  exact hfresh.unknown (Finmap.mem_of_lookup_eq_some (hsame ▸ hbelow k block hlookup))

theorem Announcing.flushes {transaction_pool : List Transaction} (hannouncing : node.Announcing crypto)
    (hflushes : Flushes crypto node received h next transaction_pool) {broadcast : List Block}
    (hafter : (handle_block_received crypto received node).2.broadcast = broadcast) :
    Announcing crypto {
      chain_manager := ⟨next, transaction_pool, some next⟩
      block_store := (BlockStore.flush_blocks_to_disk crypto (node.buffered received.block)).2
      broadcast } := by
  have htaken := hflushes.toTaken
  have hlast : ∀ last, node.chain_manager.last_known_valid_coinstate = some last →
      Below last node.chain_manager.coinstate → ∃ last', some next = some last' ∧ Below last last' ∧ Below last' next :=
    fun last _ hbelow => ⟨next, rfl, fun k b hb => htaken.below k b (hbelow k b hb), fun _ _ hb => hb⟩
  cases hflushes.broadcast with
  | inl hsame => exact hannouncing.silent (hafter.symm.trans hsame) (fun _ hdisk => flush_keeps hdisk) hlast
  | inr htold =>
      obtain ⟨hwritten, htold⟩ := htold
      rw [hafter] at htold
      have hold : Announcing crypto {
          chain_manager := ⟨next, transaction_pool, some next⟩
          block_store := (BlockStore.flush_blocks_to_disk crypto (node.buffered received.block)).2
          broadcast := node.broadcast } :=
        hannouncing.silent rfl (fun _ hdisk => flush_keeps hdisk) hlast
      refine ⟨hold.below, fun block hblock => ?_, ?_⟩
      · rw [htold] at hblock
        cases List.mem_append.mp hblock with
        | inl hbefore =>
            have htold := hold.told block hbefore
            exact htold.mono (fun _ hdisk => hdisk) fun last hsome => ⟨last, hsome, fun _ _ hb => hb⟩
        | inr hnew =>
            rw [List.mem_singleton.mp hnew]
            exact ⟨(kept_received node received.block).flush hwritten, next, node.chain_manager.coinstate, h, rfl,
              htaken.below, hflushes.validates, htaken.hash, htaken.lookup.mpr (.inl ⟨rfl, rfl⟩)⟩
      · rw [htold]
        refine List.pairwise_append.mpr ⟨hannouncing.once, List.pairwise_singleton _ _, ?_⟩
        intro block hblock other hother
        rw [List.mem_singleton.mp hother]
        exact hannouncing.not_told htaken.toFresh block hblock

theorem handle_block_received_announcing (received : Received) :
    Spec (Announcing crypto) (handle_block_received crypto received) fun _ => Announcing crypto := by
  intro node hannouncing
  have hcase := handle_block_received_cases crypto node received
  generalize hafter : (handle_block_received crypto received node).2 = after at hcase
  cases hcase with
  | ignored _ => exact hannouncing
  | not_added _ _ =>
      exact hannouncing.silent rfl (fun _ hdisk => hdisk) fun last hlast hbelow =>
        ⟨last, hlast, fun _ _ hb => hb, hbelow⟩
  | not_rolled_back _ _ =>
      exact hannouncing.silent rfl (fun _ hdisk => hdisk) fun last hlast hbelow =>
        ⟨last, hlast, fun _ _ hb => hb, hbelow⟩
  | @rolled_back _ _ last _ _ hsome =>
      refine hannouncing.silent rfl (fun _ hdisk => hdisk) fun last' hlast _ => ⟨last, rfl, ?_, fun _ _ hb => hb⟩
      rw [Option.some.inj (hlast.symm.trans hsome)]
      exact fun _ _ hb => hb
  | @roll_back_raises _ _ last _ hsome =>
      refine hannouncing.silent rfl (fun _ hdisk => hdisk) fun last' hlast _ => ⟨last', hlast, fun _ _ hb => hb, ?_⟩
      rw [Option.some.inj (hlast.symm.trans hsome)]
      exact fun _ _ hb => hb
  | passed _ hflushes => exact hannouncing.flushes hflushes (congrArg Node.broadcast hafter)
  | pass_raises hpasses _ =>
      exact hannouncing.silent rfl (fun _ hdisk => hdisk) fun last hlast hbelow =>
        ⟨last, hlast, fun _ _ hb => hb, fun k b hb => hpasses.toTaken.below k b (hbelow k b hb)⟩
  | skipped _ _ hskips =>
      exact hannouncing.silent ((congrArg Node.broadcast hafter).symm.trans hskips.broadcast) (fun _ hdisk => hdisk)
        fun last hlast hbelow =>
          ⟨last, hlast, fun _ _ hb => hb, fun k b hb => hskips.toTaken.below k b (hbelow k b hb)⟩

end Step

end Node

end Skepticoin
