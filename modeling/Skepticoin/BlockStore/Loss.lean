import Skepticoin.Balances.Theorems
import Skepticoin.BlockStore.RoundTrip
import Skepticoin.Consensus.Checkpoint

namespace Skepticoin

open Guard FMap Tree Dict Effect Table

namespace BlockStore

variable {crypto : Crypto} {blocks : List (Hash × Block)} {coinstate : CoinState}
  {batches : List (List Block)} {self : BlockStore}

section Builders

-- The groups that are left are made of what was there.
theorem mem_block_builders {builders : List (Hash × TransactionBuilder)} {h : Hash}
    {group : List (Hash × TransactionBuilder)} (hgroup : (h, group) ∈ block_builders builders)
    {item : Hash × TransactionBuilder} (hitem : item ∈ group) : item ∈ builders := by
  rw [block_builders_eq_foldl] at hgroup
  cases mem_foldl_setItem hgroup with
  | inl hnone => cases hnone
  | inr hrow =>
      obtain ⟨row, hrow, heq⟩ := hrow
      have hflatten := List.flatten_splitBy
        (fun a b : Hash × TransactionBuilder => decide (a.2.block_hash = b.2.block_hash)) builders
      rw [← hflatten]
      exact List.mem_flatten.mpr ⟨row, hrow, (Prod.mk.inj heq).2 ▸ hitem⟩

-- A transaction that is read carries the hash under which it was located.
theorem cached_of_read {order_by_height : OrderByHeight} {reads : List Block}
    (hread : self.read_blocks_from_disk order_by_height = .ok reads) :
    ∀ transaction ∈ chainTransactions reads, ∃ hash,
      hash ∈ self.view.transaction_locator.map LocatorRow.transaction_hash ∧
      transaction.hash crypto = .ok hash := by
  intro transaction htransaction
  obtain ⟨block, hblock, ht⟩ := List.mem_flatMap.mp htransaction
  simp only [read_blocks_from_disk, bind_eq_ok, pure_eq_ok] at hread
  obtain ⟨withInputs, hinputs, withOutputs, houtputs, hblocks⟩ := hread
  rw [← hblocks] at hblock
  obtain ⟨row, _, hrow⟩ := List.mem_filterMap.mp hblock
  obtain ⟨group, hgroup, hbuilt⟩ := Option.map_eq_some_iff.mp hrow
  rw [← hbuilt] at ht
  obtain ⟨item, hitem, hbuild⟩ := List.mem_map.mp ht
  have hmem := List.mem_map_of_mem (f := Prod.fst) (mem_block_builders (mem_of_get hgroup) hitem)
  rw [modifyAll_keys houtputs, modifyAll_keys hinputs] at hmem
  obtain ⟨loaded, hloaded, hkey⟩ := List.mem_map.mp hmem
  refine ⟨item.1, ?_, by rw [← hbuild]; rfl⟩
  cases mem_foldl_setItem hloaded with
  | inl hnone => cases hnone
  | inr hlocated =>
      obtain ⟨locator, hlocator, hitem'⟩ := hlocated
      rw [← hkey, hitem']
      exact List.mem_map_of_mem hlocator

end Builders

section Written

-- What a round trip has left in the file.
theorem written_of_round_trip {store written : BlockStore}
    (h : CoinState.Validated crypto blocks coinstate)
    (hbatches : batches.flatten = (blocks.map Prod.snd).reverse) (hnew : new crypto = .ok store)
    (hwrite : forEach (write_blocks_to_disk crypto) batches store = (.ok (), written)) :
    ∃ params, collect (block_rows crypto) (blocks.map Prod.snd).reverse = .ok params ∧
      written.view = extend ⟨[], [], [], []⟩ params := by
  obtain ⟨rows, hrows, hstore⟩ := new_eq_ok hnew
  obtain ⟨params, hparams, hwritten⟩ := write_batches_eq_ok hbatches hwrite
  obtain ⟨later, hfirst⟩ := first_of_validated h
  obtain ⟨rows', rest, hrows', _, hcons⟩ :=
    List.forall₂_cons_left_iff.mp (collect_eq_ok.mp (hfirst ▸ hparams))
  have hsame : rows = rows' := Except.ok.inj (hrows.symm.trans hrows')
  refine ⟨params, hparams, ?_⟩
  rw [hwritten, hstore, hcons, ← hsame]
  exact extend_first rows

theorem distinct_of_round_trips {order_by_height : OrderByHeight}
    (h : CoinState.Validated crypto blocks coinstate)
    (hbatches : batches.flatten = (blocks.map Prod.snd).reverse)
    (htrip : RoundTrips crypto order_by_height coinstate batches) :
    DistinctStored crypto (blocks.map Prod.snd) := by
  obtain ⟨store, written, reads, _, hnew, hwrite, hread, ⟨sorted, hperm, hsame⟩, _⟩ := htrip
  obtain ⟨params, hparams, hview⟩ := written_of_round_trip h hbatches hnew hwrite
  have hchain : (written.view.chain.map ChainRow.block_hash).Nodup := by
    rw [hview]
    exact nodup_insertAll List.nodup_nil
  have hlocator : (written.view.transaction_locator.map LocatorRow.transaction_hash).Nodup := by
    rw [hview]
    exact nodup_insertAll List.nodup_nil
  have hle := yielded_transactions_le order_by_height hchain hlocator hread
  -- as many transactions come back as were written
  have hcount : (reads.map fun block => block.transactions.length).sum =
      (chainTransactions (blocks.map Prod.snd).reverse).length := by
    have hlengths : List.Forall₂ (fun a b => a = b) (reads.map fun block => block.transactions.length)
        (sorted.map fun block => block.transactions.length) := by
      rw [List.forall₂_map_left_iff, List.forall₂_map_right_iff]
      exact hsame.flip.imp fun _ _ hblock => hblock.transactions.length_eq.symm
    rw [List.forall₂_eq_eq_eq] at hlengths
    rw [hlengths, ← hbatches, ← (chainTransactions_perm hperm).length_eq, chainTransactions,
      List.length_flatMap]
  rw [hcount, hview] at hle
  exact (DistinctStored.perm (List.reverse_perm _)).mp ((length_locator hparams).2 hle)

end Written

section Hashes

variable {transactions : List Transaction}

-- The hash that a reference names is that of the bytes of some transaction.
def Stored (crypto : Crypto) (transactions : List Transaction) (reference : OutputReference) : Prop :=
  ∃ transaction ∈ transactions, storedHash crypto transaction = .ok reference.hash

-- Adding a block brings no references but those that it creates.
theorem unspent_of_add {P : OutputReference → Prop} {block : Block} {next : CoinState} {hash : Hash}
    (hhash : block.hash crypto = .ok hash) (hadd : coinstate.add_block_no_validation crypto block = .ok next)
    (hold : ∀ h m, coinstate.unspent_transaction_outs_by_hash.lookup h = some m → ∀ reference ∈ m, P reference)
    (hnew : ∀ transaction ∈ block.transactions, ∀ reference, Creates crypto transaction reference → P reference) :
    ∀ h m, next.unspent_transaction_outs_by_hash.lookup h = some m → ∀ reference ∈ m, P reference := by
  obtain ⟨before, after, hbefore, hafter, _, hmap⟩ := CoinState.maps_of_add hhash hadd
  intro h m hlookup reference href
  rw [hmap] at hlookup
  cases lookup_insert_eq_some.mp hlookup with
  | inl hsame =>
      rw [← hsame.2] at href
      cases uto_apply_block_mem hafter href with
      | inl hcreated =>
          obtain ⟨transaction, ht, hcreates⟩ := hcreated
          exact hnew transaction ht reference hcreates
      | inr hkept =>
          unfold CoinState.previous_unspent_transaction_outs at hbefore
          by_cases hzero : block.previous_block_hash = zero_hash
          · rw [if_pos hzero] at hbefore
            rw [← Except.ok.inj hbefore] at hkept
            exact absurd hkept.1 Finmap.notMem_empty
          · rw [if_neg hzero, getItem_eq_ok] at hbefore
            exact hold _ before hbefore reference hkept.1
  | inr hother => exact hold h m hother.2 reference href

theorem unspent_of_read_chain {P : OutputReference → Prop} {reads : List Block}
    (hnew : ∀ transaction ∈ chainTransactions reads, ∀ reference, Creates crypto transaction reference →
      P reference) :
    ∀ h m, (read_chain crypto reads).unspent_transaction_outs_by_hash.lookup h = some m →
      ∀ reference ∈ m, P reference := by
  have hfold : ∀ (rest : List Block) (start : CoinState), (∀ block ∈ rest, block ∈ reads) →
      (∀ h m, start.unspent_transaction_outs_by_hash.lookup h = some m → ∀ reference ∈ m, P reference) →
      ∀ h m, (rest.foldl (add_or_skip crypto) start).unspent_transaction_outs_by_hash.lookup h = some m →
        ∀ reference ∈ m, P reference := by
    intro rest
    induction rest with
    | nil => exact fun start _ hstart => hstart
    | cons block rest ih =>
        intro start hrest hstart
        apply ih _ fun other hother => hrest other (List.mem_cons_of_mem _ hother)
        unfold add_or_skip
        cases hadd : start.add_block_no_validation crypto block with
        | error e => exact hstart
        | ok next =>
            obtain ⟨hash, _, _, hhash, _⟩ := CoinState.lookup_added hadd
            apply unspent_of_add hhash hadd hstart
            intro transaction ht
            exact hnew transaction (List.mem_flatMap.mpr ⟨block, hrest block List.mem_cons_self, ht⟩)
  apply hfold reads .empty fun _ hblock => hblock
  intro h m hlookup
  simp [CoinState.empty] at hlookup

-- A cached hash that is not the hash of the bytes is that of no other
-- transaction either.
def Unrelated (crypto : Crypto) (transactions : List Transaction) : Prop :=
  ∀ transaction ∈ transactions, ∀ other ∈ transactions, ∀ hash, transaction.hash crypto = .ok hash →
    storedHash crypto other = .ok hash → storedHash crypto transaction = .ok hash

theorem transaction_hash_ok {block : Block} {current_timestamp : Nat} {transaction : Transaction}
    (hself : validate_block_by_itself crypto block current_timestamp = .ok ())
    (ht : transaction ∈ block.transactions) : ∃ hash, transaction.hash crypto = .ok hash := by
  obtain ⟨_, _, _, _, _, hbytes, _⟩ := validate_block_by_itself_eq_ok.mp hself
  obtain ⟨_, _, _, htransactions, _⟩ := block_serialize_eq_ok.mp hbytes
  obtain ⟨_, _, _, hall, _⟩ := serialize_list_eq_ok.mp htransactions
  obtain ⟨bytes, _, hserialize⟩ := forall₂_mem_left (collect_eq_ok.mp hall) ht
  cases hcached : transaction.cached_hash with
  | some hash => exact ⟨hash, by rw [Transaction.hash, hcached]⟩
  | none => exact ⟨crypto.sha256d bytes, by rw [Transaction.hash, hcached, hserialize]; rfl⟩

-- The hash of a transaction that is not that of its bytes shows up among the
-- unspent outputs. The induction is on the growth of the tree.
theorem honest_of_stored (hunrelated : Unrelated crypto transactions)
    (h : CoinState.Validated crypto blocks coinstate)
    (hin : ∀ transaction ∈ chainTransactions (blocks.map Prod.snd), transaction ∈ transactions)
    (hstored : ∀ h m, coinstate.unspent_transaction_outs_by_hash.lookup h = some m →
      ∀ reference ∈ m, Stored crypto transactions reference) : Honest crypto (blocks.map Prod.snd) := by
  induction h with
  | genesis hhash _ hzero =>
      intro transaction ht _
      have hsame : transaction = { genesis_transaction with
          cached_hash := some (crypto.sha256d genesis_transaction_data) } := by
        simpa [chainTransactions, genesis_block] using ht
      have hbytes : transaction.serialize = .ok genesis_transaction_data := by
        rw [hsame]
        exact genesis_transaction_serialize
      rw [storedHash, hbytes, hsame]
      rfl
  | @add blocks h block coinstate next current_timestamp hold hhash hne hfresh hself hvalid hadd ih =>
      have hrep := hold.grown.represents
      obtain ⟨before, after, hbefore, hafter, _, hmap⟩ := CoinState.maps_of_add hhash hadd
      have holder : Honest crypto (blocks.map Prod.snd) := by
        apply ih
        · intro transaction ht
          exact hin transaction (List.mem_append_right _ ht)
        · intro k m hlookup
          apply hstored k m
          have hk : k ≠ h := by
            intro heq
            have hknown := (hrep.unspent.dom k).mp (Finmap.mem_of_lookup_eq_some hlookup)
            exact hfresh (heq ▸ hknown)
          rw [hmap, Finmap.lookup_insert_of_ne _ hk, hlookup]
      obtain ⟨previous, _, hmem, _⟩ := CoinState.parent_of_validate hrep hold.ne_zero hvalid
      obtain ⟨m, hm⟩ := Finmap.mem_iff.mp ((hrep.unspent.dom _).mpr (mem_keys_of_mem hmem))
      intro transaction ht houtputs
      cases List.mem_append.mp ht with
      | inr hearlier => exact holder transaction hearlier houtputs
      | inl hown =>
          have htin := hin transaction ht
          obtain ⟨hash, hthash⟩ := transaction_hash_ok hself hown
          by_contra hdishonest
          have hzero : (⟨hash, 0, first_index_le⟩ : OutputReference) ∈ after := by
            apply uto_apply_block_keeps hafter _ hown
            · rw [outputAt, if_pos hthash]
              cases hcases : transaction.outputs with
              | nil => exact absurd hcases houtputs
              | cons output outputs => rfl
            · -- what the block spends was created under the hash of its bytes
              intro hspent
              have hunspent := spent_mem_of_validate hvalid hm _ hspent
              obtain ⟨creator, hcreator, hcreates⟩ := hold.backed.created _ m hm _ hunspent
              have hcreatorStored : storedHash crypto creator = .ok hash := by
                rw [← holder creator hcreator (List.ne_nil_of_length_pos (by have hlt := hcreates.2; omega))]
                exact hcreates.1
              have hcreatorIn := hin creator (List.mem_append_right _ hcreator)
              exact hdishonest (hthash.trans
                (hunrelated transaction htin creator hcreatorIn hash hthash hcreatorStored).symm)
          obtain ⟨other, hother, hsame⟩ := hstored h after (by rw [hmap, Finmap.lookup_insert]) _ hzero
          exact hdishonest (hthash.trans (hunrelated transaction htin other hother hash hthash hsame).symm)

theorem honest_of_round_trips {order_by_height : OrderByHeight}
    (h : CoinState.Validated crypto blocks coinstate)
    (hbatches : batches.flatten = (blocks.map Prod.snd).reverse)
    (hunrelated : Unrelated crypto (chainTransactions (blocks.map Prod.snd)))
    (htrip : RoundTrips crypto order_by_height coinstate batches) :
    Honest crypto (blocks.map Prod.snd) := by
  obtain ⟨store, written, reads, rebuilt, hnew, hwrite, hread, _, _, hrebuilt, hrebuilds⟩ := htrip
  obtain ⟨params, hparams, hview⟩ := written_of_round_trip h hbatches hnew hwrite
  have hchain : read_chain crypto reads = rebuilt := by
    rw [read_chain_from_disk, hread] at hrebuilt
    exact Except.ok.inj hrebuilt
  apply honest_of_stored hunrelated h fun _ ht => ht
  rw [← hrebuilds.unspent, ← hchain]
  apply unspent_of_read_chain
  intro transaction ht reference hcreates
  -- the hash is the key of a locator, which a transaction was stored under
  obtain ⟨hash, hlocated, hhash⟩ := cached_of_read hread transaction ht
  have hsame : hash = reference.hash := Except.ok.inj (hhash.symm.trans hcreates.1)
  rw [hview] at hlocated
  have hkey := mem_keys_insertAll.mp hlocated
  rw [List.map_nil, List.map_map] at hkey
  have hmem : hash ∈ (params.flatMap BlockRows.transactions).map fun t => t.transaction.transaction_hash := by
    cases hkey with
    | inl hnone => cases hnone
    | inr hmem => exact hmem
  have hstored := List.mem_map_of_mem (f := fun hash => (Except.ok hash : Py Hash)) hmem
  rw [List.map_map] at hstored
  have hkeys : (Except.ok hash : Py Hash) ∈
      (chainTransactions (blocks.map Prod.snd).reverse).map (storedHash crypto) :=
    keys_of_rows hparams ▸ hstored
  obtain ⟨original, horiginal, hbytes⟩ := List.mem_map.mp hkeys
  refine ⟨original, (chainTransactions_perm (List.reverse_perm _)).subset horiginal, ?_⟩
  rw [hbytes, hsame]

-- The round trip holds for just the trees in which no transaction occurs
-- twice and cached hashes are honest. That it holds for these is
-- round_trips_of_distinct; only the other way the hashes must be unrelated.
theorem disk_round_trip (order_by_height : OrderByHeight) (h : CoinState.Validated crypto blocks coinstate)
    (hbatches : batches.flatten = (blocks.map Prod.snd).reverse)
    (hunrelated : Unrelated crypto (chainTransactions (blocks.map Prod.snd))) :
    RoundTrips crypto order_by_height coinstate batches ↔
      DistinctStored crypto (blocks.map Prod.snd) ∧ Honest crypto (blocks.map Prod.snd) := by
  constructor
  · intro htrip
    exact ⟨distinct_of_round_trips h hbatches htrip, honest_of_round_trips h hbatches hunrelated htrip⟩
  · intro hboth
    exact round_trips_of_distinct h order_by_height hbatches hboth.2 hboth.1

end Hashes

-- Two blocks on top of the genesis block, mined for two keys.
section Siblings

def siblingBlock (key : SECP256k1PublicKey) (timestamp : Nat) : Block :=
  (construct_block_for_mining .residue zeroCoinstate [] key timestamp [] 0).toOption.getD
    (genesis_block .residue)

def firstSibling : Block := siblingBlock ⟨.ofNat 64 7⟩ 1615757200

def firstCoinstate : CoinState :=
  (zeroCoinstate.add_block_no_validation .residue firstSibling).toOption.getD .empty

def residueHash (block : Block) : Hash := (block.hash .residue).toOption.getD zero_hash

def firstEntries : List (Hash × Block) :=
  [(residueHash firstSibling, firstSibling), (residueHash (genesis_block .residue), genesis_block .residue)]

def siblingEntries (second : Block) : List (Hash × Block) := (residueHash second, second) :: firstEntries

def siblingCoinstate (second : Block) : CoinState :=
  (firstCoinstate.add_block_no_validation .residue second).toOption.getD .empty

-- A block that is new on top of a coinstate.
def Joins (block : Block) (timestamp : Nat) (known : List Hash) (coinstate next : CoinState) : Prop :=
  block.hash .residue = .ok (residueHash block) ∧ residueHash block ≠ zero_hash ∧
  residueHash block ∉ known ∧ validate_block_by_itself .residue block timestamp = .ok () ∧
  validate_block_past_checkpoints .residue block coinstate = .ok () ∧
  coinstate.add_block_no_validation .residue block = .ok next

instance (block : Block) (timestamp : Nat) (known : List Hash) (coinstate next : CoinState) :
    Decidable (Joins block timestamp known coinstate next) := by
  unfold Joins
  infer_instance

theorem Joins.add {block : Block} {timestamp : Nat} {next : CoinState}
    (h : Joins block timestamp (blocks.map Prod.fst) coinstate next)
    (hold : CoinState.Validated .residue blocks coinstate) :
    CoinState.Validated .residue ((residueHash block, block) :: blocks) next := by
  obtain ⟨hhash, hne, hfresh, hself, hvalid, hadd⟩ := h
  exact .add timestamp hold hhash hne hfresh hself hvalid hadd

theorem first_validated : CoinState.Validated .residue firstEntries firstCoinstate := by
  have hstart : (genesis_block .residue).hash .residue = .ok (residueHash (genesis_block .residue)) ∧
      residueHash (genesis_block .residue) ≠ zero_hash := by
    decide +kernel
  have hfirst : Joins firstSibling 1615757200 [residueHash (genesis_block .residue)] zeroCoinstate
      firstCoinstate := by
    decide +kernel
  exact Joins.add hfirst (.genesis hstart.1 hstart.2 high_runs.1)

theorem siblings_validated {second : Block}
    (h : Joins second 1615757201 (firstEntries.map Prod.fst) firstCoinstate (siblingCoinstate second)) :
    CoinState.Validated .residue (siblingEntries second) (siblingCoinstate second) :=
  h.add first_validated

-- The store keeps the coinbase of two blocks for one of them only.
theorem shared_coinbase_lost :
    CoinState.Validated .residue (siblingEntries (siblingBlock ⟨.ofNat 64 7⟩ 1615757201))
      (siblingCoinstate (siblingBlock ⟨.ofNat 64 7⟩ 1615757201)) ∧
    ∀ order_by_height, ¬RoundTrips .residue order_by_height
      (siblingCoinstate (siblingBlock ⟨.ofNat 64 7⟩ 1615757201))
      [((siblingEntries (siblingBlock ⟨.ofNat 64 7⟩ 1615757201)).map Prod.snd).reverse] := by
  have hjoins : Joins (siblingBlock ⟨.ofNat 64 7⟩ 1615757201) 1615757201 (firstEntries.map Prod.fst)
      firstCoinstate (siblingCoinstate (siblingBlock ⟨.ofNat 64 7⟩ 1615757201)) := by
    decide +kernel
  have hvalidated := siblings_validated hjoins
  refine ⟨hvalidated, fun order_by_height htrip => ?_⟩
  have hdistinct := distinct_of_round_trips hvalidated (by simp) htrip
  revert hdistinct
  unfold DistinctStored
  decide +kernel

-- An order for rows of one height: that of their insertion.
def insertionOrder : OrderByHeight where
  run rows := rows.insertionSort fun a b => a.height ≤ b.height
  perm rows := List.perm_insertionSort _ rows
  sorted rows := by
    have htotal : Std.Total fun a b : ChainRow => a.height ≤ b.height := ⟨fun _ _ => Nat.le_total _ _⟩
    have htrans : IsTrans ChainRow fun a b => a.height ≤ b.height := ⟨fun _ _ _ => Nat.le_trans⟩
    exact List.pairwise_insertionSort _ rows

theorem unrelated_of_fresh {transactions : List Transaction}
    (h : ∀ transaction ∈ transactions, transaction.hash crypto = storedHash crypto transaction) :
    Unrelated crypto transactions := by
  intro transaction ht other _ hash hhash _
  rw [← h transaction ht, hhash]

theorem disk_round_trip_siblings :
    RoundTrips .residue insertionOrder (siblingCoinstate (siblingBlock ⟨.ofNat 64 8⟩ 1615757201))
      [((siblingEntries (siblingBlock ⟨.ofNat 64 8⟩ 1615757201)).map Prod.snd).reverse] := by
  have hjoins : Joins (siblingBlock ⟨.ofNat 64 8⟩ 1615757201) 1615757201 (firstEntries.map Prod.fst)
      firstCoinstate (siblingCoinstate (siblingBlock ⟨.ofNat 64 8⟩ 1615757201)) := by
    decide +kernel
  have hvalidated := siblings_validated hjoins
  obtain ⟨hfresh, hdistinct⟩ : (∀ transaction ∈ chainTransactions
      ((siblingEntries (siblingBlock ⟨.ofNat 64 8⟩ 1615757201)).map Prod.snd),
      transaction.hash .residue = storedHash .residue transaction) ∧
      DistinctStored .residue ((siblingEntries (siblingBlock ⟨.ofNat 64 8⟩ 1615757201)).map Prod.snd) := by
    unfold DistinctStored
    decide +kernel
  exact (disk_round_trip insertionOrder hvalidated (by simp) (unrelated_of_fresh hfresh)).mpr
    ⟨hdistinct, fun transaction ht _ => hfresh transaction ht⟩

end Siblings

end BlockStore

end Skepticoin
