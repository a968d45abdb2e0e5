import Skepticoin.BlockStore.Loss

namespace Skepticoin

open Guard Effect Table

namespace BlockStore

variable {crypto : Crypto}

section Disk

-- The rows are in the tables, as far as their keys tell.
structure Holds (db : Database) (rows : BlockRows) : Prop where
  chain : rows.block.block_hash ∈ db.chain.map ChainRow.block_hash
  locator : ∀ t ∈ rows.transactions,
    t.transaction.transaction_hash ∈ db.transaction_locator.map LocatorRow.transaction_hash
  inputs : ∀ t ∈ rows.transactions, ∀ row ∈ t.inputs, row.key ∈ db.transaction_inputs.map InputRow.key
  outputs : ∀ t ∈ rows.transactions, ∀ row ∈ t.outputs, row.key ∈ db.transaction_outputs.map OutputRow.key

def OnDisk (crypto : Crypto) (db : Database) (block : Block) : Prop :=
  ∃ rows, block_rows crypto block = .ok rows ∧ Holds db rows

variable {db : Database} {params : List BlockRows} {rows : BlockRows} {block : Block} {blocks : List Block}

theorem Holds.extend (h : Holds db rows) (params : List BlockRows) : Holds (extend db params) rows := by
  refine ⟨?_, ?_, ?_, ?_⟩
  · exact mem_keys_insertAll.mpr (.inl h.chain)
  · intro t ht
    exact mem_keys_insertAll.mpr (.inl (h.locator t ht))
  · intro t ht row hrow
    exact mem_keys_insertAll.mpr (.inl (h.inputs t ht row hrow))
  · intro t ht row hrow
    exact mem_keys_insertAll.mpr (.inl (h.outputs t ht row hrow))

theorem holds_extend (db : Database) (hrows : rows ∈ params) : Holds (extend db params) rows := by
  refine ⟨?_, ?_, ?_, ?_⟩
  · exact mem_keys_insertAll.mpr (.inr (List.mem_map_of_mem (List.mem_map_of_mem hrows)))
  · intro t ht
    exact mem_locator_extend hrows ht
  · intro t ht row hrow
    have htransaction := List.mem_flatMap.mpr ⟨rows, hrows, ht⟩
    exact mem_keys_insertAll.mpr (.inr (List.mem_map_of_mem (List.mem_flatMap.mpr ⟨t, htransaction, hrow⟩)))
  · intro t ht row hrow
    have htransaction := List.mem_flatMap.mpr ⟨rows, hrows, ht⟩
    exact mem_keys_insertAll.mpr (.inr (List.mem_map_of_mem (List.mem_flatMap.mpr ⟨t, htransaction, hrow⟩)))

theorem OnDisk.extend (h : OnDisk crypto db block) (params : List BlockRows) :
    OnDisk crypto (extend db params) block := by
  obtain ⟨rows, hrows, hholds⟩ := h
  exact ⟨rows, hrows, hholds.extend params⟩

theorem on_disk_extend (db : Database) (hparams : collect (block_rows crypto) blocks = .ok params)
    (hblock : block ∈ blocks) : OnDisk crypto (extend db params) block := by
  obtain ⟨rows, hrows, hblockRows⟩ := forall₂_mem_left (collect_eq_ok.mp hparams) hblock
  exact ⟨rows, hblockRows, holds_extend db hrows⟩

end Disk

section Flush

-- A write that raises changes what is committed as little as the buffer. Once
-- it has begun, it leaves the transaction open.
theorem write_blocks_to_disk_raises (crypto : Crypto) (db : Database) (buffer blocks : List Block) :
    Spec (fun self => self.committed = db ∧ self.write_buffer = buffer) (write_blocks_to_disk crypto blocks)
      fun result self => ∀ e, result = .error e → (self.committed = db ∧ self.write_buffer = buffer) ∧
        (self.pending.isSome ∨ ∃ e, collect (block_rows crypto) blocks = .error e) := by
  have hbegin : Spec (fun self => self.committed = db ∧ self.write_buffer = buffer) begin_transaction
      fun _ self => (self.committed = db ∧ self.write_buffer = buffer) ∧ self.pending.isSome := by
    intro self hself
    unfold begin_transaction
    by_cases hopen : self.pending.isSome
    · rw [if_pos hopen]
      exact ⟨hself, hopen⟩
    · rw [if_neg hopen]
      exact ⟨hself, rfl⟩
  have hexecute : ∀ {ρ : Type} (insert : Database → ρ → Py Database) (row : ρ),
      Spec (fun self => (self.committed = db ∧ self.write_buffer = buffer) ∧ self.pending.isSome)
        (execute insert row)
        fun _ self => (self.committed = db ∧ self.write_buffer = buffer) ∧ self.pending.isSome := by
    intro ρ insert row self hself
    unfold execute
    cases self.pending with
    | none => exact hself
    | some seen =>
        simp only []
        cases insert seen row with
        | error e => exact hself
        | ok next => exact ⟨hself.1, rfl⟩
  unfold write_blocks_to_disk
  apply Spec.raw_bind
  · intro params _
    have hfailed : ∀ (e : PyError) (self : BlockStore),
        (self.committed = db ∧ self.write_buffer = buffer) ∧ self.pending.isSome →
        ∀ e', (.error e : Except PyError Unit) = .error e' →
          (self.committed = db ∧ self.write_buffer = buffer) ∧
          (self.pending.isSome ∨ ∃ e, collect (block_rows crypto) blocks = .error e) :=
      fun _ _ hself _ _ => ⟨hself.1, .inl hself.2⟩
    refine Spec.bind hbegin (fun _ => ?_) hfailed
    refine Spec.bind (Spec.forEach (hexecute _) _) (fun _ => ?_) hfailed
    refine Spec.bind (Spec.forEach (hexecute _) _) (fun _ => ?_) hfailed
    refine Spec.bind (Spec.forEach (hexecute _) _) (fun _ => ?_) hfailed
    refine Spec.bind (Spec.forEach (hexecute _) _) (fun _ => ?_) hfailed
    apply Spec.change
    intro self _ e hcommit
    cases hcommit
  · intro e hcollect self hself _ _
    exact ⟨hself, .inr ⟨e, hcollect⟩⟩

variable {self self' : BlockStore} {e : PyError}

-- A flush that returns has put every block of the buffer on disk.
theorem flush_blocks_to_disk_eq_ok (h : flush_blocks_to_disk crypto self = (.ok (), self')) :
    self'.write_buffer = [] ∧ self'.pending = self.pending ∧
      ∃ params, collect (block_rows crypto) self.write_buffer = .ok params ∧
        self'.committed = extend self.committed params := by
  unfold flush_blocks_to_disk at h
  rw [bind_run_ok (read_run self)] at h
  by_cases hbuffer : self.write_buffer = []
  · rw [if_neg (by simp [hbuffer])] at h
    have hsame : self = self' := (Prod.mk.inj h).2
    rw [← hsame, hbuffer]
    exact ⟨rfl, rfl, [], rfl, rfl⟩
  · rw [if_pos hbuffer] at h
    obtain ⟨_, middle, hwrite, hclear⟩ := bind_run_eq_ok.mp h
    obtain ⟨params, hparams, _, hmiddle⟩ := write_blocks_to_disk_eq_ok hwrite
    have hself' := (Prod.mk.inj hclear).2
    rw [← hself', hmiddle]
    exact ⟨rfl, rfl, params, hparams, rfl⟩

-- A store that no flush ends normally from: its transaction is open, or a
-- block in its buffer has no rows.
def Stuck (crypto : Crypto) (self : BlockStore) : Prop :=
  self.write_buffer ≠ [] ∧
    (self.pending.isSome ∨ ∃ e, collect (block_rows crypto) self.write_buffer = .error e)

theorem flush_blocks_to_disk_raises (h : flush_blocks_to_disk crypto self = (.error e, self')) :
    self'.committed = self.committed ∧ self'.write_buffer = self.write_buffer ∧ Stuck crypto self' := by
  unfold flush_blocks_to_disk at h
  rw [bind_run_ok (read_run self)] at h
  by_cases hbuffer : self.write_buffer = []
  · rw [if_neg (by simp [hbuffer])] at h
    cases (Prod.mk.inj h).1
  · rw [if_pos hbuffer] at h
    have hwrite := write_blocks_to_disk_raises crypto self.committed self.write_buffer
      self.write_buffer self ⟨rfl, rfl⟩
    cases hrun : write_blocks_to_disk crypto self.write_buffer self with
    | mk result middle =>
        rw [hrun] at hwrite
        cases result with
        | ok _ =>
            rw [bind_run_ok hrun] at h
            cases (Prod.mk.inj h).1
        | error e' =>
            rw [bind_run_error hrun] at h
            obtain ⟨hkept, hstuck⟩ := hwrite e' rfl
            rw [← (Prod.mk.inj h).2]
            refine ⟨hkept.1, hkept.2, ?_, ?_⟩
            · rw [hkept.2]
              exact hbuffer
            · rw [hkept.2]
              exact hstuck

theorem flush_of_stuck (h : Stuck crypto self) : ∃ e, flush_blocks_to_disk crypto self = (.error e, self) := by
  obtain ⟨hbuffer, hcause⟩ := h
  unfold flush_blocks_to_disk
  rw [bind_run_ok (read_run self), if_pos hbuffer]
  cases hcollect : collect (block_rows crypto) self.write_buffer with
  | error e =>
      refine ⟨e, bind_run_error ?_⟩
      unfold write_blocks_to_disk
      rw [hcollect]
      exact bind_run_error (raw_run _ _)
  | ok params =>
      have hopen : self.pending.isSome := by
        cases hcause with
        | inl hopen => exact hopen
        | inr herror =>
            obtain ⟨e, herror⟩ := herror
            rw [hcollect] at herror
            cases herror
      refine ⟨.OperationalError, bind_run_error ?_⟩
      unfold write_blocks_to_disk
      rw [hcollect, bind_run_ok (raw_run _ _)]
      apply bind_run_error
      exact if_pos hopen

theorem stuck_of_add (h : Stuck crypto self) (block : Block) :
    Stuck crypto { self with write_buffer := self.write_buffer ++ [block] } := by
  obtain ⟨_, hcause⟩ := h
  refine ⟨by simp, ?_⟩
  cases hcause with
  | inl hopen => exact .inl hopen
  | inr herror =>
      right
      show ∃ e, collect (block_rows crypto) (self.write_buffer ++ [block]) = .error e
      cases hcollect : collect (block_rows crypto) (self.write_buffer ++ [block]) with
      | error e => exact ⟨e, rfl⟩
      | ok params =>
          obtain ⟨first, _, hfirst, _⟩ := collect_append.mp hcollect
          obtain ⟨e, herror⟩ := herror
          rw [hfirst] at herror
          cases herror

end Flush

section Calls

inductive Call where
  | add_block_to_buffer (block : Block)
  | flush_blocks_to_disk
  deriving DecidableEq

def Call.action (crypto : Crypto) : Call → Action BlockStore PyError Unit
  | .add_block_to_buffer block => BlockStore.add_block_to_buffer block
  | .flush_blocks_to_disk => BlockStore.flush_blocks_to_disk crypto

-- The store after one call after another.
def run (crypto : Crypto) (self : BlockStore) (sequence : List Call) : BlockStore :=
  calls (sequence.map (Call.action crypto)) self

variable {self : BlockStore} {sequence : List Call}

theorem run_append (self : BlockStore) (first second : List Call) :
    run crypto self (first ++ second) = run crypto (run crypto self first) second := by
  simp [run, calls]

theorem run_add (self : BlockStore) (block : Block) :
    (run crypto self [.add_block_to_buffer block]).committed = self.committed := rfl

theorem run_flush (self : BlockStore) (rest : List Call) :
    run crypto self (.flush_blocks_to_disk :: rest) =
      run crypto (flush_blocks_to_disk crypto self).2 rest := rfl

-- A store that is stuck stays so, and its tables as they are.
theorem run_of_stuck (h : Stuck crypto self) (sequence : List Call) :
    (run crypto self sequence).committed = self.committed := by
  have hkept : Stuck crypto (run crypto self sequence) ∧
      (run crypto self sequence).committed = self.committed := by
    apply Spec.calls (P := fun store => Stuck crypto store ∧ store.committed = self.committed) _ ⟨h, rfl⟩
    intro x hx
    obtain ⟨call, _, hcall⟩ := List.mem_map.mp hx
    rw [← hcall]
    cases call with
    | add_block_to_buffer block =>
        exact Spec.change fun store hstore => ⟨stuck_of_add hstore.1 block, hstore.2⟩
    | flush_blocks_to_disk =>
        intro store hstore
        obtain ⟨e, hflush⟩ := flush_of_stuck hstore.1
        rw [Call.action, hflush]
        exact hstore
  exact hkept.2

-- The flush raises at a row that the database refuses.
def Violates (crypto : Crypto) (self : BlockStore) : Prop :=
  (flush_blocks_to_disk crypto self).1 = .error .IntegrityError ∨
    (flush_blocks_to_disk crypto self).1 = .error .OverflowError

-- The database takes the rows of the block.
def Fits (crypto : Crypto) (db : Database) (block : Block) : Prop :=
  (write_blocks_to_disk crypto [block] { committed := db, pending := none, write_buffer := [] }).1 = .ok ()

-- From a flush that has so failed nothing is committed any more.
theorem frozen_of_violates (h : Violates crypto self) (rest : List Call) :
    (run crypto self (.flush_blocks_to_disk :: rest)).committed = self.committed := by
  obtain ⟨e, hraises⟩ : ∃ e, (flush_blocks_to_disk crypto self).1 = .error e := by
    cases h with
    | inl hrefused => exact ⟨_, hrefused⟩
    | inr htoo_large => exact ⟨_, htoo_large⟩
  obtain ⟨hcommitted, _, hstuck⟩ := flush_blocks_to_disk_raises (Prod.ext hraises rfl)
  rw [run_flush, run_of_stuck hstuck, hcommitted]

-- What a sequence of calls should keep to: a flush that fails at a row changes
-- nothing, and no later block suffers from it.
structure Recovers (crypto : Crypto) (store : BlockStore) (sequence : List Call) : Prop where
  unchanged : ∀ before after, sequence = before ++ .flush_blocks_to_disk :: after →
    Violates crypto (run crypto store before) →
    (run crypto store (before ++ [.flush_blocks_to_disk])).committed = (run crypto store before).committed
  later : ∀ before middle block rest,
    sequence = before ++ .flush_blocks_to_disk :: (middle ++ .add_block_to_buffer block :: rest) →
    Violates crypto (run crypto store before) →
    Fits crypto (run crypto store (before ++ .flush_blocks_to_disk :: middle)).committed block →
    .flush_blocks_to_disk ∈ rest →
    OnDisk crypto (run crypto store sequence).committed block

-- Where a flush fails at a row, what is added and flushed later does not fit
-- into the tables as they were before, or was already there.
def NothingNew (crypto : Crypto) (store : BlockStore) (sequence : List Call) : Prop :=
  ∀ before middle block rest,
    sequence = before ++ .flush_blocks_to_disk :: (middle ++ .add_block_to_buffer block :: rest) →
    Violates crypto (run crypto store before) →
    .flush_blocks_to_disk ∈ rest →
    Fits crypto (run crypto store before).committed block →
    OnDisk crypto (run crypto store before).committed block

theorem recovers_iff_nothing_new (store : BlockStore) (sequence : List Call) :
    Recovers crypto store sequence ↔ NothingNew crypto store sequence := by
  constructor
  · intro h before middle block rest hsplit hviolates hflush hfits
    have hmiddle : (run crypto store (before ++ .flush_blocks_to_disk :: middle)).committed =
        (run crypto store before).committed := by
      rw [run_append, frozen_of_violates hviolates]
    have hend : (run crypto store sequence).committed = (run crypto store before).committed := by
      rw [hsplit, run_append, frozen_of_violates hviolates]
    rw [← hend]
    exact h.later before middle block rest hsplit hviolates (hmiddle ▸ hfits) hflush
  · intro h
    refine ⟨?_, ?_⟩
    · intro before after _ hviolates
      rw [run_append, frozen_of_violates hviolates]
    · intro before middle block rest hsplit hviolates hfits hflush
      rw [run_append, frozen_of_violates hviolates] at hfits
      have hend : (run crypto store sequence).committed = (run crypto store before).committed := by
        rw [hsplit, run_append, frozen_of_violates hviolates]
      rw [hend]
      exact h before middle block rest hsplit hviolates hflush hfits

end Calls

-- A block that fits together by itself and spends an output that is not stored.
section Refused

def unstoredSpend : Transaction where
  inputs := [{
    output_reference := { hash := .ofNat 32 1, index := 0, index_le := first_index_le }
    signature := some (.SECP256k1Signature (.ofNat 64 0)) }]
  outputs := [{ value := 1, public_key := ⟨.ofNat 64 7⟩ }]
  cached_hash := none

def refusedBlock : Block :=
  let block := claimedBlock 1 (residueHash (genesis_block .residue))
  let transactions := block.transactions ++ [unstoredSpend]
  let merkle_root_hash := (calc_merkle_root_hash .residue transactions).toOption.getD zero_hash
  { block with
    header := { block.header with summary := { block.header.summary with merkle_root_hash } }
    transactions }

def newStore : BlockStore :=
  (new .residue).toOption.getD { committed := ⟨[], [], [], []⟩, pending := none, write_buffer := [] }

-- Once that block has been flushed, the next one stays in the buffer, although
-- nothing is wrong with it.
theorem good_block_after_refused_lost :
    validate_block_by_itself .residue refusedBlock 1615757200 = .ok () ∧ new .residue = .ok newStore ∧
    ¬Recovers .residue newStore [.add_block_to_buffer refusedBlock, .flush_blocks_to_disk,
      .add_block_to_buffer firstSibling, .flush_blocks_to_disk] := by
  have hself : validate_block_by_itself .residue refusedBlock 1615757200 = .ok () ∧
      new .residue = .ok newStore := by
    decide +kernel
  have hrefused : (flush_blocks_to_disk .residue
      (run .residue newStore [.add_block_to_buffer refusedBlock])).1 = .error .IntegrityError := by
    decide +kernel
  have hgood : Fits .residue newStore.committed firstSibling := by
    unfold Fits
    decide +kernel
  have hmissing : firstSibling.hash .residue = .ok (residueHash firstSibling) ∧
      residueHash firstSibling ∉ newStore.committed.chain.map ChainRow.block_hash := by
    decide +kernel
  refine ⟨hself.1, hself.2, ?_⟩
  intro h
  have hfrozen : ∀ rest, (run .residue newStore ([.add_block_to_buffer refusedBlock] ++
      .flush_blocks_to_disk :: rest)).committed = newStore.committed := by
    intro rest
    rw [run_append, frozen_of_violates (.inl hrefused), run_add]
  have hdisk := h.later [.add_block_to_buffer refusedBlock] [] firstSibling [.flush_blocks_to_disk] rfl
    (.inl hrefused) (by rw [hfrozen]; exact hgood) List.mem_cons_self
  have hend := hfrozen [.add_block_to_buffer firstSibling, .flush_blocks_to_disk]
  rw [List.singleton_append] at hend
  rw [hend] at hdisk
  obtain ⟨rows, hrows, hholds⟩ := hdisk
  obtain ⟨hash, hhash, hrow, _⟩ := block_rows_eq_ok.mp hrows
  have hname : rows.block.block_hash = residueHash firstSibling := by
    rw [hrow, ← Except.ok.inj (hhash.symm.trans hmissing.1)]
    rfl
  exact hmissing.2 (hname ▸ hholds.chain)

end Refused

end BlockStore

end Skepticoin
