import Skepticoin.BlockStore.Rebuild

namespace Skepticoin

open Guard FMap Tree Effect Table

namespace BlockStore

variable {crypto : Crypto}

section Batches

variable {db db' : Database} {params : List BlockRows} {order : List Block} {batches : List (List Block)}
  {self self' : BlockStore}

-- What can be written into a database can be written into a fuller one.
theorem Writable.mono (db' : Database) (h : Writable db params)
    (hchain : ∀ key ∈ db.chain.map ChainRow.block_hash, key ∈ db'.chain.map ChainRow.block_hash)
    (houtputs : ∀ key ∈ db.transaction_outputs.map OutputRow.key,
      key ∈ db'.transaction_outputs.map OutputRow.key) : Writable db' params := by
  refine ⟨h.owned, h.numbers, h.values, h.indices, ?_, ?_⟩
  · intro done rows rest hsplit previous hprevious
    have hold := mem_keys_insertAll.mp (h.parents done rows rest hsplit previous hprevious)
    exact mem_keys_insertAll.mpr (hold.imp (hchain previous) id)
  · intro done rows rest hsplit t ht row hrow hash hhash
    have hold := mem_keys_insertAll.mp (h.references done rows rest hsplit t ht row hrow hash hhash)
    exact mem_keys_insertAll.mpr (hold.imp (houtputs _) id)

-- Writing the same blocks again changes nothing.
theorem extend_again : extend (extend db params) params = extend db params := by
  have hknown : ∀ {ρ κ : Type} [DecidableEq κ] (key : ρ → κ) (table rows : List ρ),
      insertAll key (insertAll key table rows) rows = insertAll key table rows := by
    intro ρ κ _ key table rows
    apply insertAll_of_known
    intro row hrow
    exact mem_keys_insertAll.mpr (.inr (List.mem_map_of_mem hrow))
  simp only [extend, hknown]

-- The first block of a file may come again with the others.
theorem extend_first (rows : BlockRows) : extend (extend db [rows]) (rows :: params) =
    extend db (rows :: params) := by
  have hsplit : rows :: params = [rows] ++ params := rfl
  rw [hsplit, extend_append, extend_append, extend_again]

theorem write_batches_ok (self : BlockStore) (hbatches : batches.flatten = order)
    (hparams : collect (block_rows crypto) order = .ok params) (hidle : self.pending = none)
    (h : Writable self.committed params) :
    forEach (write_blocks_to_disk crypto) batches self =
      (.ok (), { self with committed := extend self.committed params }) := by
  induction batches generalizing order params self with
  | nil =>
      rw [← hbatches] at hparams
      have hnil : [] = params := Except.ok.inj hparams
      rw [← hnil]
      rfl
  | cons batch batches ih =>
      rw [← hbatches, List.flatten_cons] at hparams
      obtain ⟨first, second, hfirst, hsecond, hsplit⟩ := collect_append.mp hparams
      rw [hsplit] at h
      have hwrite := write_blocks_to_disk_ok self hfirst hidle h.append.1
      rw [forEach, bind_run_ok hwrite, hsplit, extend_append]
      exact ih _ rfl hsecond hidle h.append.2

theorem write_batches_eq_ok (hbatches : batches.flatten = order)
    (h : forEach (write_blocks_to_disk crypto) batches self = (.ok (), self')) :
    ∃ params, collect (block_rows crypto) order = .ok params ∧
      self' = { self with committed := extend self.committed params } := by
  induction batches generalizing order self with
  | nil =>
      rw [← hbatches]
      exact ⟨[], rfl, (Prod.mk.inj h).2.symm⟩
  | cons batch batches ih =>
      obtain ⟨_, middle, hwrite, hrest⟩ := bind_run_eq_ok.mp h
      obtain ⟨first, hfirst, _, hmiddle⟩ := write_blocks_to_disk_eq_ok hwrite
      obtain ⟨second, hsecond, hself'⟩ := ih rfl hrest
      rw [← hbatches, List.flatten_cons]
      refine ⟨first ++ second, ?_, ?_⟩
      · exact collect_append.mpr ⟨first, second, hfirst, hsecond, rfl⟩
      · rw [hself', hmiddle, extend_append]

-- The first block of a file is the genesis block.
theorem new_ok {rows : BlockRows} (hrows : block_rows crypto (genesis_block crypto) = .ok rows)
    (h : Writable ⟨[], [], [], []⟩ [rows]) :
    new crypto = .ok ⟨extend ⟨[], [], [], []⟩ [rows], none, []⟩ := by
  have hparams : collect (block_rows crypto) [genesis_block crypto] = .ok [rows] :=
    collect_eq_ok.mpr (.cons hrows .nil)
  have hwrite := write_blocks_to_disk_ok ⟨⟨[], [], [], []⟩, none, []⟩ hparams rfl h
  simp only [new, genesis_deserialize, bind, Except.bind, hwrite]
  rfl

theorem new_eq_ok (h : new crypto = .ok self) :
    ∃ rows, block_rows crypto (genesis_block crypto) = .ok rows ∧
      self = ⟨extend ⟨[], [], [], []⟩ [rows], none, []⟩ := by
  simp only [new, genesis_deserialize, bind, Except.bind] at h
  cases hwrite : write_blocks_to_disk crypto [genesis_block crypto] ⟨⟨[], [], [], []⟩, none, []⟩ with
  | mk result store =>
      rw [hwrite] at h
      cases result with
      | error e => cases h
      | ok u =>
          obtain ⟨params, hparams, _, hstore⟩ := write_blocks_to_disk_eq_ok hwrite
          cases collect_eq_ok.mp hparams with
          | cons hrows hnil =>
              cases hnil
              have hself : store = self := Except.ok.inj h
              exact ⟨_, hrows, by rw [← hself, hstore]⟩

end Batches

section Stored

variable {params : List BlockRows} {order : List Block}

-- The keys under which transactions go into the tables are their hashes.
theorem keys_of_rows (h : collect (block_rows crypto) order = .ok params) :
    (params.flatMap BlockRows.transactions).map (fun t => Except.ok t.transaction.transaction_hash) =
      (chainTransactions order).map (storedHash crypto) := by
  have hall := collect_eq_ok.mp h
  clear h
  induction hall with
  | nil => rfl
  | @cons block rows order params hrows _ ih =>
      obtain ⟨_, _, _, htransactions⟩ := block_rows_eq_ok.mp hrows
      have hfirst : List.Forall₂ (fun a b => a = b)
          (rows.transactions.map fun t => Except.ok t.transaction.transaction_hash)
          (block.transactions.map (storedHash crypto)) := by
        rw [List.forall₂_map_left_iff, List.forall₂_map_right_iff]
        exact (collect_eq_ok.mp htransactions).flip.imp fun _ _ ht => (storedHash_of_rows ht).symm
      rw [List.forall₂_eq_eq_eq] at hfirst
      rw [List.flatMap_cons, List.map_append, ih, hfirst]
      simp [chainTransactions]

-- No transaction occurs twice, by the hash of its bytes.
def DistinctStored (crypto : Crypto) (blocks : List Block) : Prop :=
  ((chainTransactions blocks).map (storedHash crypto)).Nodup

theorem distinctStored_iff (h : collect (block_rows crypto) order = .ok params) :
    DistinctStored crypto order ↔
      ((params.flatMap BlockRows.transactions).map fun t => t.transaction.transaction_hash).Nodup := by
  have hinj : Function.Injective (Except.ok : Hash → Py Hash) := fun _ _ heq => Except.ok.inj heq
  rw [DistinctStored, ← keys_of_rows h, ← List.nodup_map_iff hinj, List.map_map]
  rfl

theorem chainTransactions_perm {blocks blocks' : List Block} (h : blocks.Perm blocks') :
    (chainTransactions blocks).Perm (chainTransactions blocks') := h.flatMap_right _

theorem DistinctStored.perm {blocks blocks' : List Block} (h : blocks.Perm blocks') :
    DistinctStored crypto blocks ↔ DistinctStored crypto blocks' :=
  ((chainTransactions_perm h).map _).nodup_iff

-- Nothing is dropped when all keys are different.
theorem extend_of_distinct (hparams : collect (block_rows crypto) order = .ok params)
    (hblocks : (params.map fun rows => rows.block.block_hash).Nodup)
    (htransactions : ((params.flatMap BlockRows.transactions).map fun t =>
      t.transaction.transaction_hash).Nodup) :
    extend ⟨[], [], [], []⟩ params =
      tablesOf (params.map BlockRows.block) (params.flatMap BlockRows.transactions) := by
  have hdistinct := distinct_of_block_rows hparams htransactions
  have hchain : insertAll ChainRow.block_hash [] (params.map BlockRows.block) = params.map BlockRows.block := by
    apply insertAll_of_nodup
    rw [List.nil_append, List.map_map]
    exact hblocks
  have hlocator : insertAll LocatorRow.transaction_hash []
      ((params.flatMap BlockRows.transactions).map TransactionRows.transaction) =
      (params.flatMap BlockRows.transactions).map TransactionRows.transaction := by
    apply insertAll_of_nodup
    rw [List.nil_append, List.map_map]
    exact htransactions
  have hinputs : insertAll InputRow.key []
      ((params.flatMap BlockRows.transactions).flatMap TransactionRows.inputs) =
      (params.flatMap BlockRows.transactions).flatMap TransactionRows.inputs := by
    apply insertAll_of_nodup
    rw [List.nil_append]
    apply nodup_flatMap_key hdistinct.inputs _ hdistinct.nodup
    intro t ht
    obtain ⟨transaction, hrecords⟩ := hdistinct.records t ht
    show (t.inputs.map InputRow.seq).Nodup
    rw [hrecords.input_seqs]
    exact List.nodup_range
  have houtputs : insertAll OutputRow.key []
      ((params.flatMap BlockRows.transactions).flatMap TransactionRows.outputs) =
      (params.flatMap BlockRows.transactions).flatMap TransactionRows.outputs := by
    apply insertAll_of_nodup
    rw [List.nil_append]
    apply nodup_flatMap_key hdistinct.outputs _ hdistinct.nodup
    intro t ht
    obtain ⟨transaction, hrecords⟩ := hdistinct.records t ht
    show (t.outputs.map OutputRow.seq).Nodup
    rw [hrecords.output_seqs]
    exact List.nodup_range
  rw [extend, tablesOf, hchain, hlocator, hinputs, houtputs]

-- As many locators as different hashes.
theorem length_locator (hparams : collect (block_rows crypto) order = .ok params) :
    (extend ⟨[], [], [], []⟩ params).transaction_locator.length ≤ (chainTransactions order).length ∧
      ((chainTransactions order).length ≤ (extend ⟨[], [], [], []⟩ params).transaction_locator.length →
        DistinctStored crypto order) := by
  have hlength := congrArg List.length (keys_of_rows hparams)
  rw [List.length_map, List.length_map] at hlength
  have hkeys : (extend ⟨[], [], [], []⟩ params).transaction_locator.length =
      (((params.flatMap BlockRows.transactions).map fun t => t.transaction.transaction_hash).dedup).length := by
    rw [extend, length_insertAll_nil, List.map_map]
    rfl
  have hsublist := List.dedup_sublist
    ((params.flatMap BlockRows.transactions).map fun t => t.transaction.transaction_hash)
  have hle := hsublist.length_le
  rw [List.length_map] at hle
  refine ⟨by omega, fun hall => (distinctStored_iff hparams).mpr ?_⟩
  have hsame := hsublist.eq_of_length_le (by rw [List.length_map]; omega)
  rw [← hsame]
  exact List.nodup_dedup _

end Stored

section RoundTrip

-- A block that came back as it was written.
structure SameTransaction (original read : Transaction) : Prop where
  inputs : read.inputs = original.inputs
  outputs : read.outputs = original.outputs
  serialized : read.serialize = original.serialize

structure SameBlock (crypto : Crypto) (original read : Block) : Prop where
  header : read.header = original.header
  transactions : List.Forall₂ SameTransaction original.transactions read.transactions
  hash : read.hash crypto = original.hash crypto
  serialized : read.serialize = original.serialize

def ParentsFirst (crypto : Crypto) (reads : List Block) : Prop :=
  ∀ done block rest, reads = done ++ block :: rest → ∀ p, block.parent = some p →
    ∃ previous ∈ done, previous.hash crypto = .ok p

-- The same blocks, with the same unspent outputs for every block hash.
structure Rebuilds (crypto : Crypto) (original rebuilt : CoinState) : Prop where
  known : ∀ h, h ∈ rebuilt.block_by_hash ↔ h ∈ original.block_by_hash
  same : ∀ h block read, original.block_by_hash.lookup h = some block →
    rebuilt.block_by_hash.lookup h = some read → SameBlock crypto block read
  unspent : rebuilt.unspent_transaction_outs_by_hash = original.unspent_transaction_outs_by_hash

-- All blocks of a coinstate, written in batches into a new file, are read back,
-- each of them once, and make the same coinstate.
def RoundTrips (crypto : Crypto) (order_by_height : OrderByHeight) (coinstate : CoinState)
    (batches : List (List Block)) : Prop :=
  ∃ store written reads rebuilt, new crypto = .ok store ∧
    forEach (write_blocks_to_disk crypto) batches store = (.ok (), written) ∧
    written.read_blocks_from_disk order_by_height = .ok reads ∧
    (∃ sorted, sorted.Perm batches.flatten ∧ List.Forall₂ (SameBlock crypto) sorted reads) ∧
    ParentsFirst crypto reads ∧
    read_chain_from_disk crypto order_by_height written = .ok rebuilt ∧
    Rebuilds crypto coinstate rebuilt

theorem RereadTransaction.same {original read : Transaction} (h : RereadTransaction crypto original read) :
    SameTransaction original read :=
  ⟨h.inputs, h.outputs, by rw [Transaction.serialize, Transaction.serialize, h.inputs, h.outputs]⟩

theorem Reread.same {original read : Block} (h : Reread crypto original read) :
    SameBlock crypto original read := by
  have hsame := h.transactions.imp fun _ _ ht => ht.same
  refine ⟨h.header, hsame, h.hash_eq, ?_⟩
  have hlist : stream_serialize_list Transaction.serialize read.transactions =
      stream_serialize_list Transaction.serialize original.transactions := by
    have hall := collect_congr (hsame.imp fun _ _ ht => ht.serialized)
    rw [stream_serialize_list, stream_serialize_list, hall, hsame.length_eq]
  rw [Block.serialize, Block.serialize, h.header, hlist]

theorem Rebuilds.of_copies {blocks sorted tree : List (Hash × Block)} {coinstate rebuilt : CoinState}
    (hgrown : CoinState.Grown crypto blocks coinstate) (hperm : sorted.Perm blocks)
    (hcopies : CoinState.Copies crypto coinstate sorted.reverse tree rebuilt) :
    Rebuilds crypto coinstate rebuilt := by
  have hrep := hgrown.represents
  have hcopy := hcopies.grown.represents
  have hkeys : ∀ h, h ∈ tree.map Prod.fst ↔ h ∈ blocks.map Prod.fst := by
    intro h
    rw [hcopies.keys, List.map_reverse, List.mem_reverse, (hperm.map Prod.fst).mem_iff]
  refine ⟨fun h => ?_, fun h block read hblock hread => ?_, ?_⟩
  · rw [hcopy.mem_known, hrep.mem_known, hkeys]
  · obtain ⟨⟨k, copy⟩, hmem, htwin⟩ := forall₂_mem_left hcopies.twins
      (List.mem_reverse.mpr (hperm.symm.subset ((hrep.known h block).mp hblock)))
    have hk : k = h := htwin.1
    rw [hk] at hmem
    have hsame := hcopies.grown.tree.unique ((hcopy.known h read).mp hread) hmem
    rw [hsame]
    exact htwin.2.same
  · refine Finmap.ext_lookup fun h => ?_
    by_cases hmem : h ∈ blocks.map Prod.fst
    · apply hcopies.unspent
      rw [← hcopies.keys, hkeys]
      exact hmem
    · have hcopyNone := (hcopy.unspent.dom h).not.mpr ((hkeys h).not.mpr hmem)
      have hnone := (hrep.unspent.dom h).not.mpr hmem
      rw [Finmap.lookup_eq_none.mpr hcopyNone, Finmap.lookup_eq_none.mpr hnone]

-- Read in the order of heights, each block comes after its parent.
theorem parentsFirst_of_sorted {blocks sorted : List (Hash × Block)} {coinstate : CoinState}
    {reads : List Block} (hgrown : CoinState.Grown crypto blocks coinstate) (hperm : sorted.Perm blocks)
    (hsorted : sorted.Pairwise fun a b => a.2.height ≤ b.2.height)
    (hreads : List.Forall₂ (fun entry copy => Reread crypto entry.2 copy) sorted reads) :
    ParentsFirst crypto reads := by
  intro done block rest hsplit p hparent
  rw [hsplit] at hreads
  have hdone := List.forall₂_take_append _ _ _ hreads
  have hlater := List.forall₂_drop_append _ _ _ hreads
  obtain ⟨entry, rest', hreread, _, hdrop⟩ := List.forall₂_cons_right_iff.mp hlater
  have hwhole : sorted = sorted.take done.length ++ entry :: rest' := by
    rw [← hdrop, List.take_append_drop]
  rw [hreread.parent_eq] at hparent
  have hbefore := hgrown.tree.parent_before hperm hsorted hwhole hparent
  obtain ⟨⟨k, original⟩, hmem, hkey⟩ := List.mem_map.mp hbefore
  obtain ⟨copy, hcopy, hreread'⟩ := forall₂_mem_left hdone hmem
  have hk : k = p := hkey
  refine ⟨copy, hcopy, ?_⟩
  rw [hreread'.hash_eq, ← hk]
  exact hgrown.represents.hashed k original (hperm.subset (List.mem_of_mem_take hmem))

variable {blocks : List (Hash × Block)} {coinstate : CoinState} {batches : List (List Block)}

theorem first_of_validated (h : CoinState.Validated crypto blocks coinstate) :
    ∃ later, (blocks.map Prod.snd).reverse = genesis_block crypto :: later := by
  induction h with
  | genesis _ _ _ => exact ⟨[], rfl⟩
  | @add blocks _ block _ _ _ _ _ _ _ _ _ _ ih =>
      obtain ⟨later, hlater⟩ := ih
      refine ⟨later ++ [block], ?_⟩
      rw [List.map_cons, List.reverse_cons, hlater, List.cons_append]

-- Where no transaction occurs twice and the cached hashes are honest the tree
-- comes back, whatever has the same hash as what.
theorem round_trips_of_distinct (h : CoinState.Validated crypto blocks coinstate)
    (order_by_height : OrderByHeight) (hbatches : batches.flatten = (blocks.map Prod.snd).reverse)
    (hhonest : Honest crypto (blocks.map Prod.snd)) (hdistinct : DistinctStored crypto (blocks.map Prod.snd)) :
    RoundTrips crypto order_by_height coinstate batches := by
  have hgrown := h.grown
  obtain ⟨params, hparams, hkeys, hwritable⟩ := rows_of_storable (storable_of_validated h) hhonest
  -- the genesis block comes first, and is in the new file already
  obtain ⟨later, hfirst⟩ := first_of_validated h
  obtain ⟨rows, rest, hrows, _, hcons⟩ :=
    List.forall₂_cons_left_iff.mp (collect_eq_ok.mp (hfirst ▸ hparams))
  rw [hcons] at hwritable
  have hnew := new_ok hrows (Writable.append hwritable).1
  have hagain := Writable.mono (extend ⟨[], [], [], []⟩ [rows]) hwritable (by simp) (by simp)
  have hwrite := write_batches_ok ⟨extend ⟨[], [], [], []⟩ [rows], none, []⟩ hbatches
    (hcons ▸ hparams) rfl hagain
  rw [extend_first, ← hcons] at hwrite
  have hblocks : (params.map fun rows => rows.block.block_hash).Nodup := by
    rw [hkeys]
    exact List.nodup_reverse.mpr hgrown.tree.nodup
  have htransactions := (distinctStored_iff hparams).mp
    ((DistinctStored.perm (List.reverse_perm _)).mpr hdistinct)
  have htables := extend_of_distinct hparams hblocks htransactions
  have hnonempty : ∀ block ∈ (blocks.map Prod.snd).reverse, block.transactions ≠ [] := by
    intro block hblock
    obtain ⟨entry, hentry, hsnd⟩ := List.mem_map.mp (List.mem_reverse.mp hblock)
    rw [← hsnd]
    exact ((storable_of_validated h).representable entry hentry).nonempty
  obtain ⟨sorted, reads, hperm, hsorted, hread, hreads⟩ := read_blocks_from_disk_eq order_by_height
    ⟨extend ⟨[], [], [], []⟩ params, none, []⟩ hparams hnonempty hblocks htransactions htables
  -- with the hashes of the blocks beside them
  have hentries : List.Forall₂ (fun block (entry : Hash × Block) => block = entry.2)
      (blocks.map Prod.snd).reverse blocks.reverse := by
    rw [← List.map_reverse, List.forall₂_map_left_iff]
    exact List.forall₂_same.mpr fun _ _ => rfl
  obtain ⟨entries, hbeside, hentries⟩ := List.perm_comp_forall₂ hperm hentries
  have hsame : sorted = entries.map Prod.snd := by
    rw [← List.forall₂_eq_eq_eq, List.forall₂_map_right_iff]
    exact hbeside
  have hpermEntries : entries.Perm blocks := hentries.trans (List.reverse_perm _)
  rw [hsame, List.pairwise_map] at hsorted
  rw [hsame, List.forall₂_map_left_iff] at hreads
  obtain ⟨tree, hcopies⟩ := CoinState.copies_all hgrown hpermEntries hsorted hhonest hreads
  refine ⟨_, _, reads, read_chain crypto reads, hnew, hwrite, hread, ⟨entries.map Prod.snd, ?_, ?_⟩, ?_, ?_, ?_⟩
  · rw [hbatches, ← hsame]
    exact hperm
  · rw [List.forall₂_map_left_iff]
    exact hreads.imp fun _ _ hr => hr.same
  · exact parentsFirst_of_sorted hgrown hpermEntries hsorted hreads
  · rw [read_chain_from_disk, hread]
    rfl
  · exact .of_copies hgrown hpermEntries hcopies

end RoundTrip

end BlockStore

end Skepticoin
