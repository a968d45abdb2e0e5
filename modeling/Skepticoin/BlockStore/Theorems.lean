import Skepticoin.BlockStore
import Skepticoin.CoinState.Theorems

namespace Skepticoin

open Guard Dict Effect Table

namespace BlockStore

variable {crypto : Crypto}

-- A database with the rows of more blocks, as far as their keys are not taken.
def extend (db : Database) (params : List BlockRows) : Database where
  chain := insertAll ChainRow.block_hash db.chain (params.map BlockRows.block)
  transaction_locator := insertAll LocatorRow.transaction_hash db.transaction_locator
    ((params.flatMap BlockRows.transactions).map TransactionRows.transaction)
  transaction_inputs := insertAll InputRow.key db.transaction_inputs
    ((params.flatMap BlockRows.transactions).flatMap TransactionRows.inputs)
  transaction_outputs := insertAll OutputRow.key db.transaction_outputs
    ((params.flatMap BlockRows.transactions).flatMap TransactionRows.outputs)

theorem extend_append (db : Database) (first second : List BlockRows) :
    extend db (first ++ second) = extend (extend db first) second := by
  simp [extend, insertAll_append, List.flatMap_append]

section Rows

-- What the rows of a block, and those of a transaction, are made of.
theorem block_rows_eq_ok {block : Block} {rows : BlockRows} :
    block_rows crypto block = .ok rows ↔ ∃ block_hash, block.hash crypto = .ok block_hash ∧
      rows.block = chain_row block_hash block ∧
      collect (transaction_rows crypto block_hash) block.transactions = .ok rows.transactions := by
  obtain ⟨row, transactions⟩ := rows
  simp only [block_rows, bind_eq_ok, pure_eq_ok, BlockRows.mk.injEq]
  constructor
  · intro h
    obtain ⟨block_hash, hhash, rows, hrows, hrow, htransactions⟩ := h
    exact ⟨block_hash, hhash, hrow.symm, by rw [hrows, htransactions]⟩
  · intro h
    obtain ⟨block_hash, hhash, hrow, hrows⟩ := h
    exact ⟨block_hash, hhash, transactions, hrows, hrow.symm, rfl⟩

theorem transaction_rows_eq_ok {block_hash : Hash} {transaction : Transaction} {rows : TransactionRows} :
    transaction_rows crypto block_hash transaction = .ok rows ↔ ∃ bytes,
      transaction.serialize = .ok bytes ∧
      rows.transaction = { transaction_hash := crypto.sha256d bytes, block_hash } ∧
      collect (input_row (crypto.sha256d bytes)) transaction.inputs.zipIdx = .ok rows.inputs ∧
      rows.outputs = transaction.outputs.zipIdx.map (output_row (crypto.sha256d bytes)) := by
  obtain ⟨row, inputs, outputs⟩ := rows
  simp only [transaction_rows, bind_eq_ok, pure_eq_ok, TransactionRows.mk.injEq]
  constructor
  · intro h
    obtain ⟨bytes, hbytes, rows, hrows, hrow, hinputs, houtputs⟩ := h
    exact ⟨bytes, hbytes, hrow.symm, by rw [hrows, hinputs], houtputs.symm⟩
  · intro h
    obtain ⟨bytes, hbytes, hrow, hinputs, houtputs⟩ := h
    exact ⟨bytes, hbytes, inputs, hinputs, hrow.symm, rfl, houtputs.symm⟩

theorem input_row_eq_ok {hash : Hash} {item : Input × Nat} {row : InputRow} :
    input_row hash item = .ok row ↔ ∃ signature, serialize_signature item.1.signature = .ok signature ∧
      row = {
        transaction_hash := hash
        seq := item.2
        output_reference_hash := nullify_zeros item.1.output_reference.hash
        output_reference_index := item.1.output_reference.index
        signature } := by
  simp only [input_row, bind_eq_ok, pure_eq_ok]
  constructor
  · intro h
    obtain ⟨signature, hsignature, hrow⟩ := h
    exact ⟨signature, hsignature, hrow.symm⟩
  · intro h
    obtain ⟨signature, hsignature, hrow⟩ := h
    exact ⟨signature, hsignature, hrow.symm⟩

-- The rows of a transaction carry its hash, and its locator that of its block.
structure Owned (rows : BlockRows) : Prop where
  located : ∀ t ∈ rows.transactions, t.transaction.block_hash = rows.block.block_hash
  inputs : ∀ t ∈ rows.transactions, ∀ row ∈ t.inputs, row.transaction_hash = t.transaction.transaction_hash
  outputs : ∀ t ∈ rows.transactions, ∀ row ∈ t.outputs, row.transaction_hash = t.transaction.transaction_hash

theorem owned_of_block_rows {block : Block} {rows : BlockRows} (h : block_rows crypto block = .ok rows) :
    Owned rows := by
  obtain ⟨block_hash, _, hrow, hrows⟩ := block_rows_eq_ok.mp h
  have hall := (collect_eq_ok.mp hrows).flip
  refine ⟨fun t ht => ?_, fun t ht row hin => ?_, fun t ht row hout => ?_⟩
  · obtain ⟨transaction, _, htransaction⟩ := forall₂_mem_left hall ht
    obtain ⟨_, _, hlocator, _, _⟩ := transaction_rows_eq_ok.mp htransaction
    rw [hlocator, hrow]
    rfl
  · obtain ⟨transaction, _, htransaction⟩ := forall₂_mem_left hall ht
    obtain ⟨_, _, hlocator, hinputs, _⟩ := transaction_rows_eq_ok.mp htransaction
    obtain ⟨_, _, hinput⟩ := forall₂_mem_left (collect_eq_ok.mp hinputs).flip hin
    obtain ⟨_, _, hinputRow⟩ := input_row_eq_ok.mp hinput
    rw [hinputRow, hlocator]
  · obtain ⟨transaction, _, htransaction⟩ := forall₂_mem_left hall ht
    obtain ⟨_, _, hlocator, _, houtputs⟩ := transaction_rows_eq_ok.mp htransaction
    rw [houtputs] at hout
    obtain ⟨_, _, houtput⟩ := List.mem_map.mp hout
    rw [← houtput, hlocator]
    rfl

end Rows

section Insert

-- What each statement does to what the open transaction sees.
def stepPending {ρ : Type} (step : Database → ρ → Database) (self : BlockStore) (row : ρ) : BlockStore :=
  { self with pending := self.pending.map fun db => step db row }

theorem foldl_stepPending {ρ : Type} (step : Database → ρ → Database) (rows : List ρ) (self : BlockStore) :
    rows.foldl (stepPending step) self =
      { self with pending := self.pending.map fun db => rows.foldl step db } := by
  induction rows generalizing self with
  | nil =>
      have hid : self.pending.map (fun db => db) = self.pending := Option.map_id'
      simp [hid]
  | cons row rows ih =>
      rw [List.foldl_cons, ih]
      simp [stepPending, Option.map_map, Function.comp_def]

theorem execute_ok {ρ : Type} {insert : Database → ρ → Py Database} {step : Database → ρ → Database}
    {row : ρ} {self : BlockStore} (db : Database) (hpending : self.pending = some db)
    (hinsert : insert db row = .ok (step db row)) :
    execute insert row self = (.ok (), stepPending step self row) := by
  simp [execute, hpending, hinsert, stepPending]

theorem execute_eq_ok {ρ : Type} {insert : Database → ρ → Py Database} (step : Database → ρ → Database)
    (hinsert : ∀ db row db', insert db row = .ok db' → db' = step db row) {row : ρ}
    {self self' : BlockStore} (h : execute insert row self = (.ok (), self')) :
    self' = stepPending step self row := by
  unfold execute at h
  cases hpending : self.pending with
  | none => simp [hpending] at h
  | some db =>
      cases hrow : insert db row with
      | error e => simp [hpending, hrow] at h
      | ok db' =>
          simp only [hpending, hrow, Prod.mk.injEq, true_and] at h
          rw [← h, stepPending, hpending, hinsert db row db' hrow]
          rfl

theorem insert_row_eq_ok {ρ κ : Type} [DecidableEq κ] {key : ρ → κ} {integers : ρ → List Nat}
    {refers : ρ → Prop} [DecidablePred refers] {table table' : List ρ} {row : ρ} :
    insert_row key integers refers table row = .ok table' ↔
      (∀ value ∈ integers row, value < 2 ^ 63) ∧ (key row ∈ table.map key ∨ refers row) ∧
        insertOrIgnore key table row = table' := by
  simp only [insert_row, bind_integers, bind_eq_ok, raiseIf_eq_ok, exists_const, pure_eq_ok]
  constructor
  · intro h
    obtain ⟨hfits, hrefers, htable⟩ := h
    push Not at hfits
    refine ⟨hfits, ?_, htable⟩
    by_cases hkey : key row ∈ table.map key
    · exact .inl hkey
    · exact .inr (by_contra fun hnot => hrefers ⟨hkey, hnot⟩)
  · intro h
    obtain ⟨hfits, hrefers, htable⟩ := h
    refine ⟨?_, ?_, htable⟩
    · push Not
      exact hfits
    · intro hboth
      cases hrefers with
      | inl hkey => exact hboth.1 hkey
      | inr htrue => exact hboth.2 htrue

def addChain (db : Database) (row : ChainRow) : Database :=
  { db with chain := insertOrIgnore ChainRow.block_hash db.chain row }

def addLocator (db : Database) (row : LocatorRow) : Database :=
  { db with transaction_locator := insertOrIgnore LocatorRow.transaction_hash db.transaction_locator row }

def addOutput (db : Database) (row : OutputRow) : Database :=
  { db with transaction_outputs := insertOrIgnore OutputRow.key db.transaction_outputs row }

def addInput (db : Database) (row : InputRow) : Database :=
  { db with transaction_inputs := insertOrIgnore InputRow.key db.transaction_inputs row }

theorem insert_chain_eq_ok {db db' : Database} {row : ChainRow} :
    insert_chain db row = .ok db' ↔
      (row.height < 2 ^ 63 ∧ row.timestamp < 2 ^ 63 ∧ row.nonce < 2 ^ 63) ∧
      (row.block_hash ∈ db.chain.map ChainRow.block_hash ∨ ∀ previous ∈ row.previous_block_hash,
        previous = row.block_hash ∨ previous ∈ db.chain.map ChainRow.block_hash) ∧
      db' = addChain db row := by
  simp only [insert_chain, bind_eq_ok, pure_eq_ok, insert_row_eq_ok]
  constructor
  · intro h
    obtain ⟨chain, ⟨hfits, hrefers, hchain⟩, hdb⟩ := h
    refine ⟨by simpa using hfits, hrefers, ?_⟩
    rw [← hdb, ← hchain]
    rfl
  · intro h
    obtain ⟨hfits, hrefers, hdb⟩ := h
    exact ⟨_, ⟨by simpa using hfits, hrefers, rfl⟩, hdb.symm⟩

theorem insert_transaction_locator_eq_ok {db db' : Database} {row : LocatorRow} :
    insert_transaction_locator db row = .ok db' ↔
      (row.transaction_hash ∈ db.transaction_locator.map LocatorRow.transaction_hash ∨
        row.block_hash ∈ db.chain.map ChainRow.block_hash) ∧
      db' = addLocator db row := by
  simp only [insert_transaction_locator, bind_eq_ok, pure_eq_ok, insert_row_eq_ok]
  constructor
  · intro h
    obtain ⟨table, ⟨_, hrefers, htable⟩, hdb⟩ := h
    refine ⟨hrefers, ?_⟩
    rw [← hdb, ← htable]
    rfl
  · intro h
    obtain ⟨hrefers, hdb⟩ := h
    exact ⟨_, ⟨by simp, hrefers, rfl⟩, hdb.symm⟩

theorem insert_transaction_outputs_eq_ok {db db' : Database} {row : OutputRow} :
    insert_transaction_outputs db row = .ok db' ↔ row.value < 2 ^ 63 ∧
      (row.key ∈ db.transaction_outputs.map OutputRow.key ∨
        row.transaction_hash ∈ db.transaction_locator.map LocatorRow.transaction_hash) ∧
      db' = addOutput db row := by
  simp only [insert_transaction_outputs, bind_eq_ok, pure_eq_ok, insert_row_eq_ok]
  constructor
  · intro h
    obtain ⟨table, ⟨hfits, hrefers, htable⟩, hdb⟩ := h
    refine ⟨by simpa using hfits, hrefers, ?_⟩
    rw [← hdb, ← htable]
    rfl
  · intro h
    obtain ⟨hfits, hrefers, hdb⟩ := h
    exact ⟨_, ⟨by simpa using hfits, hrefers, rfl⟩, hdb.symm⟩

theorem insert_transaction_inputs_eq_ok {db db' : Database} {row : InputRow} :
    insert_transaction_inputs db row = .ok db' ↔ row.output_reference_index < 2 ^ 63 ∧
      (row.key ∈ db.transaction_inputs.map InputRow.key ∨
        row.transaction_hash ∈ db.transaction_locator.map LocatorRow.transaction_hash ∧
        ∀ hash ∈ row.output_reference_hash,
          (hash, row.output_reference_index) ∈ db.transaction_outputs.map OutputRow.key) ∧
      db' = addInput db row := by
  simp only [insert_transaction_inputs, bind_eq_ok, pure_eq_ok, insert_row_eq_ok]
  constructor
  · intro h
    obtain ⟨table, ⟨hfits, hrefers, htable⟩, hdb⟩ := h
    refine ⟨by simpa using hfits, hrefers, ?_⟩
    rw [← hdb, ← htable]
    rfl
  · intro h
    obtain ⟨hfits, hrefers, hdb⟩ := h
    exact ⟨_, ⟨by simpa using hfits, hrefers, rfl⟩, hdb.symm⟩

end Insert

section Write

theorem foldl_addChain (rows : List ChainRow) (db : Database) :
    rows.foldl addChain db = { db with chain := insertAll ChainRow.block_hash db.chain rows } :=
  foldl_insertOrIgnore Database.chain (fun chain db => { db with chain }) (fun _ _ => rfl) (fun _ _ _ => rfl)
    (fun _ => rfl) rows db

theorem foldl_addLocator (rows : List LocatorRow) (db : Database) :
    rows.foldl addLocator db = { db with
      transaction_locator := insertAll LocatorRow.transaction_hash db.transaction_locator rows } :=
  foldl_insertOrIgnore Database.transaction_locator (fun transaction_locator db => { db with transaction_locator })
    (fun _ _ => rfl) (fun _ _ _ => rfl) (fun _ => rfl) rows db

theorem foldl_addOutput (rows : List OutputRow) (db : Database) :
    rows.foldl addOutput db = { db with
      transaction_outputs := insertAll OutputRow.key db.transaction_outputs rows } :=
  foldl_insertOrIgnore Database.transaction_outputs (fun transaction_outputs db => { db with transaction_outputs })
    (fun _ _ => rfl) (fun _ _ _ => rfl) (fun _ => rfl) rows db

theorem foldl_addInput (rows : List InputRow) (db : Database) :
    rows.foldl addInput db = { db with
      transaction_inputs := insertAll InputRow.key db.transaction_inputs rows } :=
  foldl_insertOrIgnore Database.transaction_inputs (fun transaction_inputs db => { db with transaction_inputs })
    (fun _ _ => rfl) (fun _ _ _ => rfl) (fun _ => rfl) rows db

theorem begin_transaction_eq_ok {self self' : BlockStore} :
    begin_transaction self = (.ok (), self') ↔
      self.pending = none ∧ self' = { self with pending := some self.committed } := by
  unfold begin_transaction
  cases hpending : self.pending with
  | none => simp [eq_comm]
  | some db => simp

-- What a write that ended normally has done.
theorem write_blocks_to_disk_eq_ok {blocks : List Block} {self self' : BlockStore}
    (h : write_blocks_to_disk crypto blocks self = (.ok (), self')) :
    ∃ params, collect (block_rows crypto) blocks = .ok params ∧ self.pending = none ∧
      self' = { self with committed := extend self.committed params } := by
  unfold write_blocks_to_disk at h
  obtain ⟨params, start, hraw, h⟩ := bind_run_eq_ok.mp h
  have hparams : collect (block_rows crypto) blocks = .ok params := (Prod.mk.inj hraw).1
  have hstart : self = start := (Prod.mk.inj hraw).2
  obtain ⟨_, opened, hbegin, h⟩ := bind_run_eq_ok.mp h
  obtain ⟨hidle, hopened⟩ := begin_transaction_eq_ok.mp hbegin
  obtain ⟨_, chained, hchain, h⟩ := bind_run_eq_ok.mp h
  obtain ⟨_, located, hlocator, h⟩ := bind_run_eq_ok.mp h
  obtain ⟨_, written, houtputs, h⟩ := bind_run_eq_ok.mp h
  obtain ⟨_, full, hinputs, hcommit⟩ := bind_run_eq_ok.mp h
  have hchained := forEach_run_eq_ok (fun _ _ _ => execute_eq_ok addChain
    fun _ _ _ hinsert => (insert_chain_eq_ok.mp hinsert).2.2) hchain
  have hlocated := forEach_run_eq_ok (fun _ _ _ => execute_eq_ok addLocator
    fun _ _ _ hinsert => (insert_transaction_locator_eq_ok.mp hinsert).2) hlocator
  have hwritten := forEach_run_eq_ok (fun _ _ _ => execute_eq_ok addOutput
    fun _ _ _ hinsert => (insert_transaction_outputs_eq_ok.mp hinsert).2.2) houtputs
  have hfull := forEach_run_eq_ok (fun _ _ _ => execute_eq_ok addInput
    fun _ _ _ hinsert => (insert_transaction_inputs_eq_ok.mp hinsert).2.2) hinputs
  have hself := (Prod.mk.inj hcommit).2
  subst hstart
  refine ⟨params, hparams, hidle, ?_⟩
  rw [← hself, hfull, hwritten, hlocated, hchained, hopened]
  simp only [foldl_stepPending, Option.map_some, foldl_addChain, foldl_addLocator, foldl_addOutput,
    foldl_addInput, Option.getD_some, hidle]
  rfl

-- Rows that a database can take: all numbers fit, and whatever a row refers to
-- is there, or comes with an earlier block.
structure Writable (db : Database) (params : List BlockRows) : Prop where
  owned : ∀ rows ∈ params, Owned rows
  numbers : ∀ rows ∈ params,
    rows.block.height < 2 ^ 63 ∧ rows.block.timestamp < 2 ^ 63 ∧ rows.block.nonce < 2 ^ 63
  values : ∀ rows ∈ params, ∀ t ∈ rows.transactions, ∀ row ∈ t.outputs, row.value < 2 ^ 63
  indices : ∀ rows ∈ params, ∀ t ∈ rows.transactions, ∀ row ∈ t.inputs,
    row.output_reference_index < 2 ^ 63
  parents : ∀ done rows rest, params = done ++ rows :: rest →
    ∀ previous ∈ rows.block.previous_block_hash,
      previous ∈ (extend db done).chain.map ChainRow.block_hash
  references : ∀ done rows rest, params = done ++ rows :: rest →
    ∀ t ∈ rows.transactions, ∀ row ∈ t.inputs, ∀ hash ∈ row.output_reference_hash,
      (hash, row.output_reference_index) ∈ (extend db done).transaction_outputs.map OutputRow.key

theorem Writable.append {db : Database} {first second : List BlockRows}
    (h : Writable db (first ++ second)) : Writable db first ∧ Writable (extend db first) second := by
  constructor
  · refine ⟨fun rows hrows => h.owned rows (List.mem_append_left _ hrows),
      fun rows hrows => h.numbers rows (List.mem_append_left _ hrows),
      fun rows hrows => h.values rows (List.mem_append_left _ hrows),
      fun rows hrows => h.indices rows (List.mem_append_left _ hrows), ?_, ?_⟩
    · intro done rows rest hsplit
      exact h.parents done rows (rest ++ second) (by rw [hsplit]; simp)
    · intro done rows rest hsplit
      exact h.references done rows (rest ++ second) (by rw [hsplit]; simp)
  · refine ⟨fun rows hrows => h.owned rows (List.mem_append_right _ hrows),
      fun rows hrows => h.numbers rows (List.mem_append_right _ hrows),
      fun rows hrows => h.values rows (List.mem_append_right _ hrows),
      fun rows hrows => h.indices rows (List.mem_append_right _ hrows), ?_, ?_⟩
    · intro done rows rest hsplit
      rw [← extend_append]
      exact h.parents (first ++ done) rows rest (by rw [hsplit]; simp)
    · intro done rows rest hsplit
      rw [← extend_append]
      exact h.references (first ++ done) rows rest (by rw [hsplit]; simp)

theorem mem_outputs_extend {db : Database} {first : List BlockRows} (second : List BlockRows) {key : Hash × Nat}
    (h : key ∈ (extend db first).transaction_outputs.map OutputRow.key) :
    key ∈ (extend db (first ++ second)).transaction_outputs.map OutputRow.key := by
  rw [extend_append]
  exact mem_keys_insertAll.mpr (.inl h)

section Statements

variable {db : Database} {params : List BlockRows} {self : BlockStore}

theorem insert_chain_run (h : Writable db params) (hpending : self.pending = some db) :
    forEach (execute insert_chain) (params.map BlockRows.block) self =
      (.ok (), { self with pending := some { db with chain := (extend db params).chain } }) := by
  rw [forEach_run_ok (stepPending addChain)]
  · rw [foldl_stepPending, hpending, Option.map_some, foldl_addChain]
    rfl
  · intro done row rest hsplit
    obtain ⟨first, others, hparams, hdone, hothers⟩ := List.map_eq_append_iff.mp hsplit
    obtain ⟨rows, later, hcons, hrow, _⟩ := List.map_eq_cons_iff.mp hothers
    rw [foldl_stepPending]
    apply execute_ok (done.foldl addChain db)
    · rw [hpending, Option.map_some]
    · have hfits := h.numbers rows (by rw [hparams, hcons]; simp)
      rw [hrow] at hfits
      refine insert_chain_eq_ok.mpr ⟨hfits, .inr fun previous hprevious => .inr ?_, rfl⟩
      rw [foldl_addChain, ← hdone]
      exact h.parents first rows later (by rw [hparams, hcons]) previous (by rw [hrow]; exact hprevious)

theorem insert_transaction_locator_run (h : Writable db params)
    (hpending : self.pending = some { db with chain := (extend db params).chain }) :
    forEach (execute insert_transaction_locator)
      ((params.flatMap BlockRows.transactions).map TransactionRows.transaction) self =
      (.ok (), { self with pending := some { extend db params with
        transaction_inputs := db.transaction_inputs
        transaction_outputs := db.transaction_outputs } }) := by
  rw [forEach_run_ok (stepPending addLocator)]
  · rw [foldl_stepPending, hpending, Option.map_some, foldl_addLocator]
    rfl
  · intro done row rest hsplit
    rw [foldl_stepPending]
    apply execute_ok (done.foldl addLocator { db with chain := (extend db params).chain })
    · rw [hpending, Option.map_some]
    · refine insert_transaction_locator_eq_ok.mpr ⟨.inr ?_, rfl⟩
      have hrow : row ∈ (params.flatMap BlockRows.transactions).map TransactionRows.transaction := by
        rw [hsplit]
        simp
      obtain ⟨t, ht, htrow⟩ := List.mem_map.mp hrow
      obtain ⟨rows, hrows, ht⟩ := List.mem_flatMap.mp ht
      rw [foldl_addLocator, ← htrow, (h.owned rows hrows).located t ht]
      apply mem_keys_insertAll.mpr
      exact .inr (List.mem_map_of_mem (List.mem_map_of_mem hrows))

-- Every row of a transaction finds its transaction located.
theorem mem_locator_extend {rows : BlockRows} {t : TransactionRows} (hrows : rows ∈ params)
    (ht : t ∈ rows.transactions) : t.transaction.transaction_hash ∈
      (extend db params).transaction_locator.map LocatorRow.transaction_hash := by
  apply mem_keys_insertAll.mpr
  exact .inr (List.mem_map_of_mem (List.mem_map_of_mem (List.mem_flatMap.mpr ⟨rows, hrows, ht⟩)))

theorem insert_transaction_outputs_run (h : Writable db params)
    (hpending : self.pending = some { extend db params with
      transaction_inputs := db.transaction_inputs
      transaction_outputs := db.transaction_outputs }) :
    forEach (execute insert_transaction_outputs)
      ((params.flatMap BlockRows.transactions).flatMap TransactionRows.outputs) self =
      (.ok (), { self with pending := some { extend db params with
        transaction_inputs := db.transaction_inputs } }) := by
  rw [forEach_run_ok (stepPending addOutput)]
  · rw [foldl_stepPending, hpending, Option.map_some, foldl_addOutput]
    rfl
  · intro done row rest hsplit
    rw [foldl_stepPending]
    apply execute_ok (done.foldl addOutput { extend db params with
      transaction_inputs := db.transaction_inputs
      transaction_outputs := db.transaction_outputs })
    · rw [hpending, Option.map_some]
    · have hrow : row ∈ (params.flatMap BlockRows.transactions).flatMap TransactionRows.outputs := by
        rw [hsplit]
        simp
      obtain ⟨t, ht, hrow⟩ := List.mem_flatMap.mp hrow
      obtain ⟨rows, hrows, ht⟩ := List.mem_flatMap.mp ht
      refine insert_transaction_outputs_eq_ok.mpr ⟨h.values rows hrows t ht row hrow, .inr ?_, rfl⟩
      rw [foldl_addOutput, (h.owned rows hrows).outputs t ht row hrow]
      exact mem_locator_extend hrows ht

theorem insert_transaction_inputs_run (h : Writable db params)
    (hpending : self.pending = some { extend db params with
      transaction_inputs := db.transaction_inputs }) :
    forEach (execute insert_transaction_inputs)
      ((params.flatMap BlockRows.transactions).flatMap TransactionRows.inputs) self =
      (.ok (), { self with pending := some (extend db params) }) := by
  rw [forEach_run_ok (stepPending addInput)]
  · rw [foldl_stepPending, hpending, Option.map_some, foldl_addInput]
    rfl
  · intro done row rest hsplit
    rw [foldl_stepPending]
    apply execute_ok (done.foldl addInput { extend db params with
      transaction_inputs := db.transaction_inputs })
    · rw [hpending, Option.map_some]
    · have hrow : row ∈ (params.flatMap BlockRows.transactions).flatMap TransactionRows.inputs := by
        rw [hsplit]
        simp
      obtain ⟨t, ht, hrow⟩ := List.mem_flatMap.mp hrow
      obtain ⟨rows, hrows, ht⟩ := List.mem_flatMap.mp ht
      obtain ⟨first, later, hparams⟩ := List.append_of_mem hrows
      refine insert_transaction_inputs_eq_ok.mpr
        ⟨h.indices rows hrows t ht row hrow, .inr ⟨?_, fun hash hhash => ?_⟩, rfl⟩
      · rw [foldl_addInput, (h.owned rows hrows).inputs t ht row hrow]
        exact mem_locator_extend hrows ht
      · rw [foldl_addInput]
        have href := h.references first rows later hparams t ht row hrow hash hhash
        have hall := mem_outputs_extend (rows :: later) href
        rw [← hparams] at hall
        exact hall

end Statements

-- A database that can take the rows takes them all.
theorem write_blocks_to_disk_ok {blocks : List Block} {params : List BlockRows} (self : BlockStore)
    (hparams : collect (block_rows crypto) blocks = .ok params) (hidle : self.pending = none)
    (h : Writable self.committed params) :
    write_blocks_to_disk crypto blocks self =
      (.ok (), { self with committed := extend self.committed params }) := by
  have hraw : (raw (collect (block_rows crypto) blocks) : Action BlockStore PyError _) self =
      (.ok params, self) := by rw [raw_run, hparams]
  have hbegin := begin_transaction_eq_ok.mpr ⟨hidle, rfl⟩
  unfold write_blocks_to_disk
  rw [bind_run_ok hraw, bind_run_ok hbegin, bind_run_ok (insert_chain_run h rfl),
    bind_run_ok (insert_transaction_locator_run h rfl), bind_run_ok (insert_transaction_outputs_run h rfl),
    bind_run_ok (insert_transaction_inputs_run h rfl)]
  simp [commit, hidle]

end Write

end BlockStore

end Skepticoin
