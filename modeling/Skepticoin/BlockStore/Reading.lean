import Skepticoin.BlockStore.Theorems

namespace Skepticoin

open Guard Codec Dict Effect Table

namespace BlockStore

variable {crypto : Crypto}

section Rows

theorem zeroify_nullify (hash : Hash) : zeroify_nulls (nullify_zeros hash) = hash := by
  unfold zeroify_nulls nullify_zeros
  by_cases hzero : hash = zero_hash
  · rw [if_pos hzero, hzero]
    rfl
  · rw [if_neg hzero]
    rfl

theorem deserialize_serialize_signature {signature : Option Signature} {bytes : Option Bytes}
    (h : serialize_signature signature = .ok bytes) : deserialize_signature bytes = .ok signature := by
  cases signature with
  | none =>
      have hbytes := Except.ok.inj h
      rw [← hbytes]
      rfl
  | some signature =>
      simp only [serialize_signature, bind_eq_ok, pure_eq_ok] at h
      obtain ⟨written, hwritten, hbytes⟩ := h
      have hread := reads_signature hwritten []
      rw [List.append_nil] at hread
      rw [← hbytes]
      cases written with
      | nil => cases hread
      | cons b written =>
          simp only [deserialize_signature, hread]
          rfl

theorem parse_input_row {hash : Hash} {item : Input × Nat} {row : InputRow}
    (h : input_row hash item = .ok row) : parse_input row = .ok item.1 := by
  obtain ⟨signature, hsignature, hrow⟩ := input_row_eq_ok.mp h
  have hreference := output_reference_new item.1.output_reference
  simp only [parse_input, hrow, zeroify_nullify, hreference, deserialize_serialize_signature hsignature]
  rfl

theorem parse_output_row (hash : Hash) (item : Output × Nat) :
    parse_output (output_row hash item) = .ok item.1 := by
  have hread := reads_public_key item.1.public_key []
  rw [List.append_nil] at hread
  simp only [parse_output, output_row, hread]
  rfl

-- The rows of a transaction, with their positions, say what the transaction is.
structure Records (rows : TransactionRows) (transaction : Transaction) : Prop where
  inputs : collect parse_input rows.inputs = .ok transaction.inputs
  outputs : collect parse_output rows.outputs = .ok transaction.outputs
  input_seqs : rows.inputs.map InputRow.seq = List.range transaction.inputs.length
  output_seqs : rows.outputs.map OutputRow.seq = List.range transaction.outputs.length

theorem records_of_transaction_rows {block_hash : Hash} {transaction : Transaction}
    {rows : TransactionRows} (h : transaction_rows crypto block_hash transaction = .ok rows) :
    Records rows transaction := by
  obtain ⟨bytes, _, _, hinputs, houtputs⟩ := transaction_rows_eq_ok.mp h
  have hall := collect_eq_ok.mp hinputs
  have hsnd : ∀ {α : Type} (xs : List α), xs.zipIdx.map Prod.snd = List.range xs.length := by
    intro α xs
    simp [List.range_eq_range']
  have hfst : ∀ {α : Type} (xs : List α), xs.zipIdx.map Prod.fst = xs := fun xs => by simp
  refine ⟨?_, ?_, ?_, ?_⟩
  · rw [← hfst transaction.inputs]
    apply collect_eq_ok.mpr
    rw [List.forall₂_map_right_iff]
    exact hall.flip.imp fun _ _ hrow => parse_input_row hrow
  · rw [houtputs, ← hfst transaction.outputs]
    apply collect_eq_ok.mpr
    rw [List.forall₂_map_right_iff, List.forall₂_map_left_iff, hfst]
    exact List.forall₂_same.mpr fun item _ => parse_output_row _ item
  · have hseqs : List.Forall₂ (fun a b => a = b) (rows.inputs.map InputRow.seq)
        (transaction.inputs.zipIdx.map Prod.snd) := by
      rw [List.forall₂_map_left_iff, List.forall₂_map_right_iff]
      refine hall.flip.imp fun _ _ hrow => ?_
      obtain ⟨_, _, hrow⟩ := input_row_eq_ok.mp hrow
      rw [hrow]
    rw [List.forall₂_eq_eq_eq] at hseqs
    rw [hseqs, hsnd]
  · rw [houtputs, ← hsnd, List.map_map]
    rfl

end Rows

section Load

-- Filling the inputs of one builder, or its outputs, leaves the rest as it is.
theorem foldl_set_inputs (items : List (InputRow × Input)) (builder : TransactionBuilder) :
    items.foldl (fun builder item =>
        { builder with inputs := setItem builder.inputs item.1.seq item.2 }) builder =
      { builder with
        inputs := items.foldl (fun d item => setItem d item.1.seq item.2) builder.inputs } := by
  induction items generalizing builder with
  | nil => rfl
  | cons item items ih => rw [List.foldl_cons, ih, List.foldl_cons]

theorem foldl_set_outputs (items : List (OutputRow × Output)) (builder : TransactionBuilder) :
    items.foldl (fun builder item =>
        { builder with outputs := setItem builder.outputs item.1.seq item.2 }) builder =
      { builder with
        outputs := items.foldl (fun d item => setItem d item.1.seq item.2) builder.outputs } := by
  induction items generalizing builder with
  | nil => rfl
  | cons item items ih => rw [List.foldl_cons, ih, List.foldl_cons]

-- Values set at the positions 0, 1, .. come out in that order.
theorem filled_by_position {ρ α : Type} {seq : ρ → Nat} {rows : List ρ} {as : List α}
    (hlength : rows.length = as.length) (hseq : rows.map seq = List.range as.length) :
    ((rows.zip as).foldl (fun d item => setItem d (seq item.1) item.2) []) =
        (List.range as.length).zip as ∧
      (sortedByKey ((List.range as.length).zip as)).map Prod.snd = as := by
  have hkeys : (rows.zip as).map (fun item => seq item.1) = List.range as.length := by
    have hfst : (rows.zip as).map Prod.fst = rows := List.map_fst_zip (by omega)
    rw [← hseq]
    conv_rhs => rw [← hfst, List.map_map]
    rfl
  constructor
  · rw [foldl_setItem (fun item => seq item.1) Prod.snd]
    · rw [List.nil_append, ← hseq]
      rw [List.zip_map_left]
      apply List.map_congr_left
      intro item _
      rfl
    · rw [List.map_nil, List.nil_append, hkeys]
      exact List.nodup_range
  · rw [sortedByKey_of_sorted]
    · exact List.map_snd_zip (by simp)
    · have hsorted : ((List.range as.length).zip as).Pairwise fun a b => a.1 < b.1 := by
        apply List.pairwise_map.mp
        rw [List.map_fst_zip (by simp)]
        exact List.pairwise_lt_range
      exact hsorted.imp fun hlt => Nat.le_of_lt hlt

end Load

-- A builder with all that the rows of a transaction say.
def builderOf (rows : TransactionRows) : Hash × TransactionBuilder :=
  (rows.transaction.transaction_hash, {
    block_hash := rows.transaction.block_hash
    inputs := (rows.inputs.map InputRow.seq).zip ((collect parse_input rows.inputs).toOption.getD [])
    outputs := (rows.outputs.map OutputRow.seq).zip ((collect parse_output rows.outputs).toOption.getD []) })

section Database

variable {transactions : List TransactionRows}

-- The rows of transactions with different hashes, in order.
def tablesOf (chain : List ChainRow) (transactions : List TransactionRows) : Database where
  chain
  transaction_locator := transactions.map TransactionRows.transaction
  transaction_inputs := transactions.flatMap TransactionRows.inputs
  transaction_outputs := transactions.flatMap TransactionRows.outputs

-- Transactions that own their rows, have different hashes and record something.
structure Distinct (transactions : List TransactionRows) : Prop where
  nodup : (transactions.map fun t => t.transaction.transaction_hash).Nodup
  inputs : ∀ t ∈ transactions, ∀ row ∈ t.inputs, row.transaction_hash = t.transaction.transaction_hash
  outputs : ∀ t ∈ transactions, ∀ row ∈ t.outputs, row.transaction_hash = t.transaction.transaction_hash
  records : ∀ t ∈ transactions, ∃ transaction, Records t transaction

theorem load_transaction_builders_eq (h : Distinct transactions) (chain : List ChainRow) :
    load_transaction_builders (tablesOf chain transactions) =
      transactions.map fun t =>
        (t.transaction.transaction_hash, ⟨t.transaction.block_hash, [], []⟩) := by
  unfold load_transaction_builders tablesOf
  rw [foldl_setItem LocatorRow.transaction_hash
    fun row => (⟨row.block_hash, [], []⟩ : TransactionBuilder)]
  · rw [List.nil_append, List.map_map]
    rfl
  · rw [List.map_nil, List.nil_append, List.map_map]
    exact h.nodup

theorem load_inputs_eq (h : Distinct transactions) (chain : List ChainRow)
    (outputs : TransactionRows → List (Nat × Output)) :
    load_inputs (tablesOf chain transactions) (transactions.map fun t =>
        (t.transaction.transaction_hash, ⟨t.transaction.block_hash, [], outputs t⟩)) =
      .ok (transactions.map fun t => (t.transaction.transaction_hash,
        { (builderOf t).2 with outputs := outputs t })) := by
  unfold load_inputs
  rw [modifyAll_ok]
  · rw [List.map_map]
    congr 1
    apply List.map_congr_left
    intro t ht
    obtain ⟨transaction, hrecords⟩ := h.records t ht
    have hlength := (collect_eq_ok.mp hrecords.inputs).length_eq
    have hfilled := (filled_by_position hlength hrecords.input_seqs).1
    have hown : (tablesOf chain transactions).transaction_inputs.filter
        (fun row => row.transaction_hash = t.transaction.transaction_hash) = t.inputs :=
      filter_flatMap_key h.inputs h.nodup ht
    simp only [Function.comp_apply]
    rw [gathered_eq_filter, hown, gathered_of_collect (h.inputs t ht) hrecords.inputs,
      foldl_set_inputs, hfilled]
    simp [builderOf, hrecords.inputs, hrecords.input_seqs, Except.toOption]
  · intro row hrow
    obtain ⟨t, ht, hrow⟩ := List.mem_flatMap.mp hrow
    obtain ⟨transaction, hrecords⟩ := h.records t ht
    obtain ⟨input, _, hinput⟩ := forall₂_mem_left (collect_eq_ok.mp hrecords.inputs) hrow
    exact ⟨input, hinput⟩
  · intro row hrow
    obtain ⟨t, ht, hrow⟩ := List.mem_flatMap.mp hrow
    rw [h.inputs t ht row hrow, List.map_map]
    exact List.mem_map_of_mem ht

theorem load_outputs_eq (h : Distinct transactions) (chain : List ChainRow) :
    load_outputs (tablesOf chain transactions) (transactions.map fun t =>
        (t.transaction.transaction_hash, { (builderOf t).2 with outputs := [] })) =
      .ok (transactions.map builderOf) := by
  unfold load_outputs
  rw [modifyAll_ok]
  · rw [List.map_map]
    congr 1
    apply List.map_congr_left
    intro t ht
    obtain ⟨transaction, hrecords⟩ := h.records t ht
    have hlength := (collect_eq_ok.mp hrecords.outputs).length_eq
    have hfilled := (filled_by_position hlength hrecords.output_seqs).1
    have hown : (tablesOf chain transactions).transaction_outputs.filter
        (fun row => row.transaction_hash = t.transaction.transaction_hash) = t.outputs :=
      filter_flatMap_key h.outputs h.nodup ht
    simp only [Function.comp_apply]
    rw [gathered_eq_filter, hown, gathered_of_collect (h.outputs t ht) hrecords.outputs,
      foldl_set_outputs, hfilled]
    simp [builderOf, hrecords.outputs, hrecords.output_seqs, Except.toOption]
  · intro row hrow
    obtain ⟨t, ht, hrow⟩ := List.mem_flatMap.mp hrow
    obtain ⟨transaction, hrecords⟩ := h.records t ht
    obtain ⟨output, _, houtput⟩ := forall₂_mem_left (collect_eq_ok.mp hrecords.outputs) hrow
    exact ⟨output, houtput⟩
  · intro row hrow
    obtain ⟨t, ht, hrow⟩ := List.mem_flatMap.mp hrow
    rw [h.outputs t ht row hrow, List.map_map]
    exact List.mem_map_of_mem ht

end Database

section Blocks

variable {params : List BlockRows}

-- The block that the first of a group is located in.
def group_block_hash (group : List (Hash × TransactionBuilder)) : Hash :=
  (group.head?.map fun item => item.2.block_hash).getD zero_hash

theorem block_builders_eq_foldl (builders : List (Hash × TransactionBuilder)) :
    block_builders builders =
      (groupBy (fun item : Hash × TransactionBuilder => item.2.block_hash) builders).foldl
        (fun groups group => setItem groups (group_block_hash group) group) [] := by
  refine List.foldl_ext _ _ [] fun groups group hgroup => ?_
  cases group with
  | nil => exact absurd rfl (List.ne_nil_of_mem_splitBy hgroup)
  | cons item rest => rfl

-- The rows of different blocks, each with at least one transaction.
structure Separate (params : List BlockRows) : Prop where
  nodup : (params.map fun rows => rows.block.block_hash).Nodup
  located : ∀ rows ∈ params, ∀ t ∈ rows.transactions, t.transaction.block_hash = rows.block.block_hash
  nonempty : ∀ rows ∈ params, rows.transactions ≠ []

theorem block_builders_eq (h : Separate params) :
    block_builders ((params.flatMap BlockRows.transactions).map builderOf) =
      params.map fun rows => (rows.block.block_hash, rows.transactions.map builderOf) := by
  have hgroups : groupBy (fun item : Hash × TransactionBuilder => item.2.block_hash)
      ((params.map fun rows => (rows.block.block_hash, rows.transactions.map builderOf)).map
        Prod.snd).flatten =
      (params.map fun rows => (rows.block.block_hash, rows.transactions.map builderOf)).map Prod.snd := by
    apply groupBy_flatten
    · intro group hgroup
      obtain ⟨rows, hrows, rfl⟩ := List.mem_map.mp hgroup
      refine ⟨fun hnil => h.nonempty rows hrows (List.map_eq_nil_iff.mp hnil), fun item hitem => ?_⟩
      obtain ⟨t, ht, rfl⟩ := List.mem_map.mp hitem
      exact h.located rows hrows t ht
    · rw [List.map_map]
      exact h.nodup
  have hflatten : (params.flatMap BlockRows.transactions).map builderOf =
      ((params.map fun rows => (rows.block.block_hash, rows.transactions.map builderOf)).map
        Prod.snd).flatten := by
    rw [List.map_map, List.map_flatMap, List.flatMap_def]
    rfl
  rw [block_builders_eq_foldl, hflatten, hgroups, List.map_map, List.foldl_map]
  have hstep : ∀ (groups : List (Hash × List (Hash × TransactionBuilder))), ∀ rows ∈ params,
      setItem groups (group_block_hash (rows.transactions.map builderOf))
          (rows.transactions.map builderOf) =
        setItem groups rows.block.block_hash (rows.transactions.map builderOf) := by
    intro groups rows hrows
    cases htransactions : rows.transactions with
    | nil => exact absurd htransactions (h.nonempty rows hrows)
    | cons t rest =>
        have ht : t ∈ rows.transactions := by simp [htransactions]
        rw [← h.located rows hrows t ht]
        rfl
  refine (List.foldl_ext _ (fun groups rows =>
    setItem groups rows.block.block_hash (rows.transactions.map builderOf)) [] hstep).trans ?_
  rw [foldl_setItem (fun rows : BlockRows => rows.block.block_hash)
    fun rows => rows.transactions.map builderOf]
  · rw [List.nil_append]
  · rw [List.map_nil, List.nil_append]
    exact h.nodup

end Blocks

section Read

-- A block as it comes back from the disk: the same content, with the hashes
-- that were computed when it was written.
structure RereadTransaction (crypto : Crypto) (original read : Transaction) : Prop where
  inputs : read.inputs = original.inputs
  outputs : read.outputs = original.outputs
  cached : ∃ bytes, original.serialize = .ok bytes ∧ read.cached_hash = some (crypto.sha256d bytes)

structure Reread (crypto : Crypto) (original read : Block) : Prop where
  header : read.header = original.header
  transactions : List.Forall₂ (RereadTransaction crypto) original.transactions read.transactions
  cached : ∃ hash, original.hash crypto = .ok hash ∧ read.cached_hash = some hash

theorem reread_transaction {block_hash : Hash} {transaction : Transaction} {rows : TransactionRows}
    (h : transaction_rows crypto block_hash transaction = .ok rows) :
    RereadTransaction crypto transaction (build_transaction (builderOf rows)) := by
  have hrecords := records_of_transaction_rows h
  obtain ⟨bytes, hbytes, hlocator, _, _⟩ := transaction_rows_eq_ok.mp h
  have hinputs := (filled_by_position (collect_eq_ok.mp hrecords.inputs).length_eq hrecords.input_seqs).2
  have houtputs :=
    (filled_by_position (collect_eq_ok.mp hrecords.outputs).length_eq hrecords.output_seqs).2
  refine ⟨?_, ?_, ⟨bytes, hbytes, ?_⟩⟩
  · simpa [build_transaction, builderOf, hrecords.inputs, hrecords.input_seqs, Except.toOption]
      using hinputs
  · simpa [build_transaction, builderOf, hrecords.outputs, hrecords.output_seqs, Except.toOption]
      using houtputs
  · simp [build_transaction, builderOf, hlocator]

theorem reread_block {block : Block} {rows : BlockRows} (h : block_rows crypto block = .ok rows) :
    Reread crypto block (build_block rows.block (rows.transactions.map builderOf)) := by
  obtain ⟨block_hash, hhash, hrow, hrows⟩ := block_rows_eq_ok.mp h
  refine ⟨?_, ?_, ⟨block_hash, hhash, by rw [hrow]; rfl⟩⟩
  · simp only [build_block, hrow, chain_row, zeroify_nullify]
  · simp only [build_block, List.map_map]
    rw [List.forall₂_map_right_iff]
    exact (collect_eq_ok.mp hrows).imp fun _ _ htransaction => reread_transaction htransaction

variable {order : List Block} {params : List BlockRows}

theorem separate_of_block_rows (hparams : collect (block_rows crypto) order = .ok params)
    (hnonempty : ∀ block ∈ order, block.transactions ≠ [])
    (hnodup : (params.map fun rows => rows.block.block_hash).Nodup) : Separate params := by
  have hall := (collect_eq_ok.mp hparams).flip
  refine ⟨hnodup, fun rows hrows => ?_, fun rows hrows hnil => ?_⟩
  · obtain ⟨_, _, hblock⟩ := forall₂_mem_left hall hrows
    exact (owned_of_block_rows hblock).located
  · obtain ⟨block, hblock, hrows⟩ := forall₂_mem_left hall hrows
    obtain ⟨_, _, _, htransactions⟩ := block_rows_eq_ok.mp hrows
    have hlength := (collect_eq_ok.mp htransactions).length_eq
    rw [hnil, List.length_nil, List.length_eq_zero_iff] at hlength
    exact hnonempty block hblock hlength

theorem distinct_of_block_rows (hparams : collect (block_rows crypto) order = .ok params)
    (hnodup : ((params.flatMap BlockRows.transactions).map fun t =>
      t.transaction.transaction_hash).Nodup) : Distinct (params.flatMap BlockRows.transactions) := by
  have hall := (collect_eq_ok.mp hparams).flip
  refine ⟨hnodup, fun t ht => ?_, fun t ht => ?_, fun t ht => ?_⟩
  · obtain ⟨rows, hrows, ht⟩ := List.mem_flatMap.mp ht
    obtain ⟨_, _, hblock⟩ := forall₂_mem_left hall hrows
    exact (owned_of_block_rows hblock).inputs t ht
  · obtain ⟨rows, hrows, ht⟩ := List.mem_flatMap.mp ht
    obtain ⟨_, _, hblock⟩ := forall₂_mem_left hall hrows
    exact (owned_of_block_rows hblock).outputs t ht
  · obtain ⟨rows, hrows, ht⟩ := List.mem_flatMap.mp ht
    obtain ⟨_, _, hblock⟩ := forall₂_mem_left hall hrows
    obtain ⟨_, _, _, htransactions⟩ := block_rows_eq_ok.mp hblock
    obtain ⟨transaction, _, htransaction⟩ := forall₂_mem_left (collect_eq_ok.mp htransactions).flip ht
    exact ⟨transaction, records_of_transaction_rows htransaction⟩

-- Each row finds the builders of its block.
theorem yielded_blocks (hnodup : (params.map fun rows => rows.block.block_hash).Nodup)
    {rows : List ChainRow} {blocks : List Block}
    (h : List.Forall₂ (fun row block => ∃ rows ∈ params, rows.block = row ∧
      block_rows crypto block = .ok rows) rows blocks) :
    List.Forall₂ (Reread crypto) blocks (rows.filterMap fun row =>
      (get (params.map fun rows => (rows.block.block_hash, rows.transactions.map builderOf))
        row.block_hash).map (build_block row)) := by
  induction h with
  | nil => exact .nil
  | @cons row block rows blocks hfirst _ ih =>
      obtain ⟨own, hmem, hrow, hblock⟩ := hfirst
      have hget : get (params.map fun rows => (rows.block.block_hash, rows.transactions.map builderOf))
          row.block_hash = some (own.transactions.map builderOf) := by
        rw [← hrow]
        apply get_of_mem
        · rw [List.map_map]
          exact hnodup
        · exact List.mem_map_of_mem hmem
      have hyield := List.filterMap_cons_some (l := rows) (f := fun row =>
        (get (params.map fun rows => (rows.block.block_hash, rows.transactions.map builderOf))
          row.block_hash).map (build_block row)) (by rw [hget]; rfl)
      rw [hyield, ← hrow]
      exact .cons (reread_block hblock) ih

-- A database with just the rows of the blocks yields each of them once, the
-- lower ones first.
theorem read_blocks_from_disk_eq (order_by_height : OrderByHeight) (self : BlockStore)
    (hparams : collect (block_rows crypto) order = .ok params)
    (hnonempty : ∀ block ∈ order, block.transactions ≠ [])
    (hblocks : (params.map fun rows => rows.block.block_hash).Nodup)
    (htransactions : ((params.flatMap BlockRows.transactions).map fun t =>
      t.transaction.transaction_hash).Nodup)
    (hview : self.view = tablesOf (params.map BlockRows.block) (params.flatMap BlockRows.transactions)) :
    ∃ sorted blocks, sorted.Perm order ∧ (sorted.Pairwise fun a b => a.height ≤ b.height) ∧
      self.read_blocks_from_disk order_by_height = .ok blocks ∧
      List.Forall₂ (Reread crypto) sorted blocks := by
  have hdistinct := distinct_of_block_rows hparams htransactions
  have hseparate := separate_of_block_rows hparams hnonempty hblocks
  have hall := collect_eq_ok.mp hparams
  have hinputs := load_inputs_eq hdistinct (params.map BlockRows.block) fun _ => []
  have houtputs := load_outputs_eq hdistinct (params.map BlockRows.block)
  -- the rows in the order of their heights stand for the blocks in some order
  have hrows : List.Forall₂ (fun row block => ∃ rows ∈ params, rows.block = row ∧
      block_rows crypto block = .ok rows) (params.map BlockRows.block) order := by
    rw [List.forall₂_map_left_iff]
    have hmem : List.Forall₂ (fun rows block => rows ∈ params ∧ block_rows crypto block = .ok rows)
        params order := by
      rw [List.forall₂_iff_zip]
      refine ⟨hall.length_eq.symm, fun hzip => ⟨(List.of_mem_zip hzip).1, ?_⟩⟩
      exact (List.forall₂_iff_zip.mp hall.flip).2 hzip
    exact hmem.imp fun rows block h => ⟨rows, h.1, rfl, h.2⟩
  obtain ⟨sorted, hsorted, hperm⟩ :=
    List.perm_comp_forall₂ (order_by_height.perm (params.map BlockRows.block)) hrows
  refine ⟨sorted, (order_by_height.run (params.map BlockRows.block)).filterMap (fun row =>
    (get (params.map fun rows => (rows.block.block_hash, rows.transactions.map builderOf))
      row.block_hash).map (build_block row)), hperm, ?_, ?_, yielded_blocks hblocks hsorted⟩
  · have hheights : (order_by_height.run (params.map BlockRows.block)).map ChainRow.height =
        sorted.map Block.height := by
      have heach : List.Forall₂ (fun a b => a = b)
          ((order_by_height.run (params.map BlockRows.block)).map ChainRow.height)
          (sorted.map Block.height) := by
        rw [List.forall₂_map_left_iff, List.forall₂_map_right_iff]
        refine hsorted.imp fun row block h => ?_
        obtain ⟨rows, _, hrow, hblock⟩ := h
        obtain ⟨_, _, hchain, _⟩ := block_rows_eq_ok.mp hblock
        rw [← hrow, hchain]
        rfl
      rwa [List.forall₂_eq_eq_eq] at heach
    have hpairwise := List.pairwise_map.mpr (order_by_height.sorted (params.map BlockRows.block))
    rw [hheights] at hpairwise
    exact List.pairwise_map.mp hpairwise
  · simp only [read_blocks_from_disk, hview, load_transaction_builders_eq hdistinct, hinputs, houtputs,
      bind, Except.bind, block_builders_eq hseparate]
    rfl

end Read

section Count

-- The blocks that a database yields have no more transactions together than it
-- locates.
theorem weigh_block_builders_le (builders : List (Hash × TransactionBuilder)) :
    weigh List.length (block_builders builders) ≤ builders.length := by
  have hgroups := List.flatten_splitBy
    (fun a b : Hash × TransactionBuilder => decide (a.2.block_hash = b.2.block_hash)) builders
  have hsum : ((groupBy (fun item : Hash × TransactionBuilder => item.2.block_hash) builders).map
      List.length).sum = builders.length := by
    rw [← List.length_flatten]
    exact congrArg List.length hgroups
  have hle := (weigh_foldl_le List.length group_block_hash (fun group => group)
    (groupBy (fun item : Hash × TransactionBuilder => item.2.block_hash) builders)
    (d := []) List.nodup_nil).2
  have hempty : weigh List.length ([] : List (Hash × List (Hash × TransactionBuilder))) = 0 := rfl
  rw [hsum, hempty, Nat.zero_add] at hle
  rw [block_builders_eq_foldl]
  exact hle

theorem yielded_transactions_le (order_by_height : OrderByHeight) {self : BlockStore} {blocks : List Block}
    (hchain : (self.view.chain.map ChainRow.block_hash).Nodup)
    (hlocator : (self.view.transaction_locator.map LocatorRow.transaction_hash).Nodup)
    (hread : self.read_blocks_from_disk order_by_height = .ok blocks) :
    (blocks.map fun block => block.transactions.length).sum ≤ self.view.transaction_locator.length := by
  simp only [read_blocks_from_disk, bind_eq_ok, pure_eq_ok] at hread
  obtain ⟨withInputs, hinputs, withOutputs, houtputs, hblocks⟩ := hread
  have hbuilders : load_transaction_builders self.view =
      self.view.transaction_locator.map fun row => (row.transaction_hash, ⟨row.block_hash, [], []⟩) := by
    unfold load_transaction_builders
    rw [foldl_setItem LocatorRow.transaction_hash
      fun row => (⟨row.block_hash, [], []⟩ : TransactionBuilder)]
    · rw [List.nil_append]
    · rw [List.map_nil, List.nil_append]
      exact hlocator
  have hlength : withOutputs.length = self.view.transaction_locator.length := by
    have hkeys := (modifyAll_keys houtputs).trans (modifyAll_keys hinputs)
    have hsame := congrArg List.length hkeys
    rw [List.length_map, List.length_map, hbuilders, List.length_map] at hsame
    exact hsame
  have hrows : ((order_by_height.run self.view.chain).map ChainRow.block_hash).Nodup :=
    ((order_by_height.perm self.view.chain).map _).nodup_iff.mpr hchain
  have hle := weigh_get_le List.length (d := block_builders withOutputs) hrows
  have hbound := weigh_block_builders_le withOutputs
  have hcount : (blocks.map fun block => block.transactions.length) =
      ((((order_by_height.run self.view.chain).map ChainRow.block_hash).filterMap
        (get (block_builders withOutputs))).map List.length) := by
    rw [← hblocks, List.map_filterMap, List.filterMap_map, List.map_filterMap]
    congr 1
    funext row
    simp only [Function.comp_apply, Option.map_map]
    cases get (block_builders withOutputs) row.block_hash with
    | none => rfl
    | some builders => simp [build_block]
  rw [hcount]
  omega

end Count

end BlockStore

end Skepticoin
