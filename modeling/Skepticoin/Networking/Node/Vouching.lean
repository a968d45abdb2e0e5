import Skepticoin.Networking.Node.Durability

namespace Skepticoin

open Guard FMap Effect Table

namespace Node

variable {crypto : Crypto} {node start : Node} {received : Received} {before messages : List Received}
  {h hash : Hash} {next : CoinState} {transaction_pool : List Transaction}

-- A block with this hash has passed validate_block_in_coinstate in the run, or
-- is an ancestor of one that has.
def Vouched (crypto : Crypto) (start : Node) (messages : List Received) (hash : Hash) : Prop :=
  ∃ before received after h next, messages = before ++ received :: after ∧
    Passes crypto (run crypto start before) received h next ∧ Ancestor next hash h

def written (node : Node) : List Hash := node.block_store.committed.chain.map ChainRow.block_hash

-- What has been written since the start is vouched for.
def OnlyVouched (crypto : Crypto) (start : Node) (messages : List Received) : Prop :=
  ∀ hash ∈ (run crypto start messages).written, hash ∈ start.written ∨ Vouched crypto start messages hash

-- When a block passes and the buffer is flushed, every other block of the
-- buffer lies below it, is written already or has been vouched for earlier.
def BufferBelow (crypto : Crypto) (start : Node) (before : List Received) (received : Received) : Prop :=
  ∀ h next transaction_pool, Flushes crypto (run crypto start before) received h next transaction_pool →
    (BlockStore.flush_blocks_to_disk crypto ((run crypto start before).buffered received.block)).1 = .ok () →
    ∀ block ∈ (run crypto start before).block_store.write_buffer, ∀ hash, block.hash crypto = .ok hash →
      Ancestor next hash h ∨ hash ∈ start.written ∨ Vouched crypto start before hash

theorem Vouched.append (hvouched : Vouched crypto start before hash) (later : List Received) :
    Vouched crypto start (before ++ later) hash := by
  obtain ⟨first, received, after, h, next, hsplit, hpasses, hancestor⟩ := hvouched
  exact ⟨first, received, after ++ later, h, next, by simp [hsplit], hpasses, hancestor⟩

-- The last message vouches for something, or the earlier ones have.
theorem vouched_snoc (before : List Received) (hvouched : Vouched crypto start (before ++ [received]) hash) :
    Vouched crypto start before hash ∨
      ∃ h next, Passes crypto (run crypto start before) received h next ∧ Ancestor next hash h := by
  obtain ⟨first, received', after, h, next, hsplit, hpasses, hancestor⟩ := hvouched
  cases after using List.reverseRecOn with
  | nil =>
      obtain ⟨hfirst, hlast⟩ := List.append_inj' hsplit rfl
      have hsame : received = received' := (List.cons.inj hlast).1
      subst hfirst hsame
      exact .inr ⟨h, next, hpasses, hancestor⟩
  | append_singleton after last =>
      have hsplit' : before ++ [received] = (first ++ received' :: after) ++ [last] := by simp [hsplit]
      have hfirst := (List.append_inj' hsplit' rfl).1
      exact .inl ⟨first, received', after, h, next, hfirst, hpasses, hancestor⟩

-- A block that has been taken is its own ancestor.
theorem Taken.ancestor (htaken : Taken crypto node received h next) : Ancestor next h h :=
  .refl (htaken.lookup.mpr (.inl ⟨rfl, rfl⟩))

theorem Taken.unique {h' : Hash} {next' : CoinState} (htaken : Taken crypto node received h next)
    (htaken' : Taken crypto node received h' next') : h = h' ∧ next = next' :=
  ⟨Except.ok.inj (htaken.hash.symm.trans htaken'.hash), Except.ok.inj (htaken.added.symm.trans htaken'.added)⟩

theorem ancestor_cases {coinstate : CoinState} {a : Hash} {block : Block}
    (hlookup : coinstate.block_by_hash.lookup h = some block) (hancestor : Ancestor coinstate a h) :
    a = h ∨ Ancestor coinstate a block.previous_block_hash := by
  cases hancestor with
  | refl _ => exact .inl rfl
  | step hlookup' hparent => exact .inr (Option.some.inj (hlookup'.symm.trans hlookup) ▸ hparent)

theorem not_ancestor_of_unknown {coinstate : CoinState} {a : Hash}
    (hunknown : coinstate.block_by_hash.lookup h = none) : ¬Ancestor coinstate a h := by
  intro hancestor
  cases hancestor with
  | refl hlookup =>
      rw [hunknown] at hlookup
      cases hlookup
  | step hlookup _ =>
      rw [hunknown] at hlookup
      cases hlookup

-- Where the buffer is flushed, the store is left as the flush leaves it.
theorem Flushes.block_store (hflushes : Flushes crypto node received h next transaction_pool) :
    (handle_block_received crypto received node).2.block_store =
      (BlockStore.flush_blocks_to_disk crypto (node.buffered received.block)).2 := by
  have hcase := handle_block_received_cases crypto node received
  generalize (handle_block_received crypto received node).2 = after at hcase
  cases hcase with
  | ignored hignored => exact absurd hflushes.toFresh (hignored h)
  | not_added hfresh hfails =>
      have hsame := Except.ok.inj (hfresh.hash.symm.trans hflushes.hash)
      exact absurd hflushes.toTaken (hsame ▸ hfails next)
  | rolled_back _ hfails _ =>
      obtain ⟨e, herror⟩ := hfails.fails
      rw [hflushes.validates] at herror
      cases herror
  | roll_back_raises hfails _ =>
      obtain ⟨e, herror⟩ := hfails.fails
      rw [hflushes.validates] at herror
      cases herror
  | not_rolled_back hfails _ =>
      obtain ⟨e, herror⟩ := hfails.fails
      rw [hflushes.validates] at herror
      cases herror
  | passed _ _ => rfl
  | pass_raises hpasses hraises =>
      obtain ⟨rfl, rfl⟩ := hpasses.toTaken.unique hflushes.toTaken
      exact absurd hflushes (hraises transaction_pool)
  | skipped _ _ hskips => exact absurd hflushes.checked hskips.unchecked

-- What a flush that returns adds are the hashes of the buffered blocks.
theorem mem_written_of_flush {store after : BlockStore}
    (hflush : BlockStore.flush_blocks_to_disk crypto store = (.ok (), after)) :
    hash ∈ after.committed.chain.map ChainRow.block_hash ↔
      hash ∈ store.committed.chain.map ChainRow.block_hash ∨
        ∃ block ∈ store.write_buffer, block.hash crypto = .ok hash := by
  obtain ⟨_, _, params, hparams, hcommitted⟩ := BlockStore.flush_blocks_to_disk_eq_ok hflush
  have hall := collect_eq_ok.mp hparams
  have hnames : ∀ {block rows}, BlockStore.block_rows crypto block = .ok rows →
      block.hash crypto = .ok rows.block.block_hash := by
    intro block rows hrows
    obtain ⟨block_hash, hblock, hrow, _⟩ := BlockStore.block_rows_eq_ok.mp hrows
    rw [hblock, hrow]
    rfl
  rw [hcommitted]
  show hash ∈ (insertAll ChainRow.block_hash _ _).map ChainRow.block_hash ↔ _
  rw [mem_keys_insertAll]
  apply or_congr_right
  constructor
  · intro hmem
    rw [List.map_map] at hmem
    obtain ⟨rows, hrows, hname⟩ := List.mem_map.mp hmem
    obtain ⟨block, hblock, hblockRows⟩ := forall₂_mem_left hall.flip hrows
    exact ⟨block, hblock, hname ▸ hnames hblockRows⟩
  · intro hexists
    obtain ⟨block, hblock, hhash⟩ := hexists
    obtain ⟨rows, hrows, hblockRows⟩ := forall₂_mem_left hall hblock
    have hname : rows.block.block_hash = hash := Except.ok.inj ((hnames hblockRows).symm.trans hhash)
    rw [List.map_map]
    exact List.mem_map.mpr ⟨rows, hrows, hname⟩

-- Nothing else writes to the disk.
theorem Handled.written {after : Node} (hcase : Handled crypto node received after)
    (hmem : hash ∈ after.written) : hash ∈ node.written ∨
      ∃ h next transaction_pool, Flushes crypto node received h next transaction_pool ∧
        (BlockStore.flush_blocks_to_disk crypto (node.buffered received.block)).1 = .ok () ∧
        ∃ block ∈ node.block_store.write_buffer ++ [received.block], block.hash crypto = .ok hash := by
  cases hcase with
  | @passed h next transaction_pool broadcast hflushes =>
      have hstore : hash ∈ (BlockStore.flush_blocks_to_disk crypto (node.buffered received.block)).2.committed.chain.map
          ChainRow.block_hash := hmem
      cases hflush : BlockStore.flush_blocks_to_disk crypto (node.buffered received.block) with
      | mk result store =>
          rw [hflush] at hstore
          cases result with
          | error e =>
              rw [(BlockStore.flush_blocks_to_disk_raises hflush).1] at hstore
              exact .inl hstore
          | ok _ =>
              cases (mem_written_of_flush hflush).mp hstore with
              | inl hold => exact .inl hold
              | inr hnew => exact .inr ⟨h, next, transaction_pool, hflushes, rfl, hnew⟩
  | ignored _ => exact .inl hmem
  | not_added _ _ => exact .inl hmem
  | rolled_back _ _ _ => exact .inl hmem
  | roll_back_raises _ _ => exact .inl hmem
  | not_rolled_back _ _ => exact .inl hmem
  | pass_raises _ _ => exact .inl hmem
  | skipped _ _ _ => exact .inl hmem

theorem only_vouched_of_buffer_below
    (hbelow : ∀ before received after, messages = before ++ received :: after →
      BufferBelow crypto start before received) : OnlyVouched crypto start messages := by
  apply run_induction (P := fun before node => ∀ hash ∈ node.written,
    hash ∈ start.written ∨ Vouched crypto start before hash)
  · exact fun hash hmem => .inl hmem
  · intro before received after hsplit hold hash hmem
    have hkept : hash ∈ start.written ∨ Vouched crypto start before hash →
        hash ∈ start.written ∨ Vouched crypto start (before ++ [received]) hash :=
      Or.imp_right fun hvouched => hvouched.append [received]
    cases (handle_block_received_cases crypto (run crypto start before) received).written hmem with
    | inl hearlier => exact hkept (hold hash hearlier)
    | inr hflushed =>
        obtain ⟨h, next, transaction_pool, hflushes, hflush, block, hblock, hhash⟩ := hflushed
        have hlast : Ancestor next hash h → Vouched crypto start (before ++ [received]) hash :=
          fun hancestor => ⟨before, received, [], h, next, rfl, hflushes.toPasses, hancestor⟩
        cases List.mem_append.mp hblock with
        | inl hbuffer =>
            cases hbelow before received after hsplit h next transaction_pool hflushes hflush block hbuffer
                hash hhash with
            | inl hancestor => exact .inr (hlast hancestor)
            | inr hearlier => exact hkept hearlier
        | inr hreceived =>
            rw [List.mem_singleton.mp hreceived] at hhash
            have hsame : h = hash := Except.ok.inj (hflushes.hash.symm.trans hhash)
            exact .inr (hlast (hsame ▸ hflushes.toTaken.ancestor))

theorem buffer_below_of_only_vouched (honly : OnlyVouched crypto start (before ++ [received])) :
    BufferBelow crypto start before received := by
  intro h next transaction_pool hflushes hflush block hblock hash hhash
  have hmem : hash ∈ (run crypto start (before ++ [received])).written := by
    rw [run_append]
    show hash ∈ (handle_block_received crypto received (run crypto start before)).2.written
    rw [written, hflushes.block_store]
    exact (mem_written_of_flush (Prod.ext hflush rfl)).mpr
      (.inr ⟨block, List.mem_append_left _ hblock, hhash⟩)
  cases honly hash hmem with
  | inl hstart => exact .inr (.inl hstart)
  | inr hvouched =>
      cases vouched_snoc before hvouched with
      | inl hearlier => exact .inr (.inr hearlier)
      | inr hlast =>
          obtain ⟨h', next', hpasses, hancestor⟩ := hlast
          obtain ⟨rfl, rfl⟩ := hpasses.toTaken.unique hflushes.toTaken
          exact .inl hancestor

-- Only validated history is written throughout a run just when the buffer never
-- holds a block off the branch of the one that lets it be flushed.
theorem only_vouched_iff_buffer_below (crypto : Crypto) (start : Node) (messages : List Received) :
    (∀ before after, messages = before ++ after → OnlyVouched crypto start before) ↔
      ∀ before received after, messages = before ++ received :: after →
        BufferBelow crypto start before received := by
  constructor
  · intro honly before received after hsplit
    apply buffer_below_of_only_vouched
    exact honly (before ++ [received]) after (by simp [hsplit])
  · intro hbelow before after hsplit
    apply only_vouched_of_buffer_below
    intro first received rest hfirst
    exact hbelow first received (rest ++ after) (by simp [hsplit, hfirst])

-- A block that would not validate is taken without a check, and the next one
-- arrives on another branch.
section Stray

def strayBlock : Block := claimedBlock 163001 genesisHash

def strayMessages : List Received := [sent 1 strayBlock, sent 0 BlockStore.firstSibling]

def strayHash : Hash := BlockStore.residueHash strayBlock

def siblingHash : Hash := BlockStore.residueHash BlockStore.firstSibling

def strayCoinstate : CoinState :=
  (zeroCoinstate.add_block_no_validation .residue strayBlock).toOption.getD .empty

def besideStray : CoinState :=
  (strayCoinstate.add_block_no_validation .residue BlockStore.firstSibling).toOption.getD .empty

theorem stray_run : (run .residue genesisNode [sent 1 strayBlock]).chain_manager.coinstate = strayCoinstate ∧
    strayHash ∈ (run .residue genesisNode strayMessages).written ∧ strayHash ∉ genesisNode.written ∧
    validate_block_in_coinstate .residue strayBlock zeroCoinstate ≠ .ok () := by
  decide +kernel

theorem besideStray_maps : BlockStore.firstSibling.hash .residue = .ok siblingHash ∧
    strayCoinstate.add_block_no_validation .residue BlockStore.firstSibling = .ok besideStray ∧
    besideStray.block_by_hash.lookup siblingHash = some BlockStore.firstSibling ∧
    besideStray.block_by_hash.lookup BlockStore.firstSibling.previous_block_hash = some (genesis_block .residue) ∧
    besideStray.block_by_hash.lookup (genesis_block .residue).previous_block_hash = none ∧
    strayHash ≠ siblingHash ∧ strayHash ≠ BlockStore.firstSibling.previous_block_hash := by
  decide +kernel

theorem stray_not_vouched : ¬Vouched .residue genesisNode strayMessages strayHash := by
  obtain ⟨hhash, hadd, hsibling, hgenesis, hzero, hne, hne'⟩ := besideStray_maps
  intro hvouched
  cases vouched_snoc [sent 1 strayBlock] hvouched with
  | inl hearlier =>
      cases vouched_snoc [] hearlier with
      | inl hnone =>
          obtain ⟨_, _, _, _, _, hsplit, _⟩ := hnone
          cases List.append_eq_nil_iff.mp hsplit.symm with
          | intro _ hcons => cases hcons
      | inr hfirst =>
          obtain ⟨_, _, hpasses, _⟩ := hfirst
          have hunchecked : ¬ToValidate (sent 1 strayBlock) := by
            unfold ToValidate
            decide +kernel
          exact hunchecked hpasses.checked
  | inr hsecond =>
      obtain ⟨h, next, hpasses, hancestor⟩ := hsecond
      have hown := hpasses.hash
      have hadded := hpasses.added
      rw [sent_block] at hown hadded
      rw [stray_run.1] at hadded
      have hh : siblingHash = h := Except.ok.inj (hhash.symm.trans hown)
      have hnext : besideStray = next := Except.ok.inj (hadd.symm.trans hadded)
      subst hh hnext
      cases ancestor_cases hsibling hancestor with
      | inl hsame => exact hne hsame
      | inr hparent =>
          cases ancestor_cases hgenesis hparent with
          | inl hsame => exact hne' hsame
          | inr hroot => exact not_ancestor_of_unknown hzero hroot

theorem stray_block_written :
    genesisNode.block_store.write_buffer = [] ∧
      validate_block_in_coinstate .residue strayBlock zeroCoinstate ≠ .ok () ∧
      ¬OnlyVouched .residue genesisNode strayMessages := by
  obtain ⟨_, hwritten, hstart, hinvalid⟩ := stray_run
  refine ⟨by decide +kernel, hinvalid, ?_⟩
  intro honly
  cases honly strayHash hwritten with
  | inl hmem => exact hstart hmem
  | inr hvouched => exact stray_not_vouched hvouched

end Stray

end Node

end Skepticoin
