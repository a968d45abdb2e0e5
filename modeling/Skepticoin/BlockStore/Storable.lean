import Skepticoin.BlockStore.Reading
import Skepticoin.CoinState.Validated
import Skepticoin.Consensus.Construction

namespace Skepticoin

open Guard FMap Tree Effect Table

namespace BlockStore

variable {crypto : Crypto}

section Storable

-- A block whose numbers fit into the tables.
structure Representable (block : Block) : Prop where
  serializes : ∃ bytes, block.serialize = .ok bytes
  nonempty : block.transactions ≠ []
  height_lt : block.height < 2 ^ 63
  values_lt : ∀ t ∈ block.transactions, ∀ output ∈ t.outputs, output.value < 2 ^ 63

-- Blocks, newest first, that refer to older ones only: to their parent, and to
-- the outputs that they spend.
def Storable (crypto : Crypto) : List (Hash × Block) → Prop
  | [] => True
  | (h, block) :: older => block.hash crypto = .ok h ∧ Representable block ∧
      (∀ p ∈ nullify_zeros block.previous_block_hash, p ∈ older.map Prod.fst) ∧
      (∀ t ∈ block.transactions, ∀ reference ∈ output_references t,
        reference.hash = zero_hash ∨ Created crypto (older.map Prod.snd) reference) ∧
      Storable crypto older

variable {blocks : List (Hash × Block)} {coinstate : CoinState} {block : Block} {current_timestamp : Nat}

-- The coinbase pays out no more than the subsidy and what was unspent before.
theorem coinbase_values_le {m : UnspentTransactionOuts} {coinbase : Transaction}
    {transactions : List Transaction} (hblock : block.transactions = coinbase :: transactions)
    (hself : validate_block_by_itself crypto block current_timestamp = .ok ())
    (hvalid : validate_block_past_checkpoints crypto block coinstate = .ok ())
    (hlookup : coinstate.unspent_transaction_outs_by_hash.lookup block.previous_block_hash = some m) :
    (output_values coinbase).sum ≤ total Output.value m + get_block_subsidy block.height := by
  obtain ⟨_, _, _, _, hblock', _, _, _, _, _, _, hnodup, _⟩ := validate_block_by_itself_eq_ok.mp hself
  rw [hblock] at hblock'
  obtain ⟨rfl, rfl⟩ := List.cons.inj hblock'
  obtain ⟨_, _, _, _, hblock'', hcoinbase, _⟩ := validate_block_past_checkpoints_eq_ok.mp hvalid
  rw [hblock] at hblock''
  obtain ⟨rfl, rfl⟩ := List.cons.inj hblock''
  obtain ⟨_, m', fees, hm', hfees, hbound⟩ := validate_coinbase_transaction_in_coinstate_eq_ok.mp hcoinbase
  have hm : m = m' := Option.some.inj (hlookup.symm.trans hm')
  rw [hblock, List.tail_cons, ← hm] at hfees
  obtain ⟨hfees, hspent⟩ := get_block_fees_eq hfees
  have hsplit := totalOutside_add_sum Output.value hnodup hspent
  omega

theorem representable_of_validate {m : UnspentTransactionOuts}
    (hself : validate_block_by_itself crypto block current_timestamp = .ok ())
    (hvalid : validate_block_past_checkpoints crypto block coinstate = .ok ())
    (hlookup : coinstate.unspent_transaction_outs_by_hash.lookup block.previous_block_hash = some m)
    (hbound : total Output.value m + get_block_subsidy block.height ≤ MAX_SASHIMI) :
    Representable block := by
  have hmax : MAX_SASHIMI < 2 ^ 63 := by decide
  obtain ⟨_, coinbase, transactions, bytes, hblock, hbytes, _, _, ⟨data, _, hheight⟩, hall, _⟩ :=
    validate_block_by_itself_eq_ok.mp hself
  refine ⟨⟨bytes, hbytes⟩, by simp [hblock], ?_, ?_⟩
  · have hfits := data.height_le
    omega
  · intro t ht output houtput
    rw [hblock] at ht
    have hvalue : output.value ∈ output_values t := List.mem_map_of_mem houtput
    cases List.mem_cons.mp ht with
    | inl hfirst =>
        have hsum := coinbase_values_le hblock hself hvalid hlookup
        have hle : output.value ≤ (output_values t).sum := List.le_sum_of_mem hvalue
        rw [hfirst] at hle
        omega
    | inr hrest =>
        obtain ⟨_, _, _, hvalues, _⟩ := validate_non_coinbase_transaction_by_itself_eq_ok.mp (hall t hrest)
        have hle := (hvalues output.value hvalue).2
        omega

theorem references_of_validate {m : UnspentTransactionOuts}
    (hself : validate_block_by_itself crypto block current_timestamp = .ok ())
    (hvalid : validate_block_past_checkpoints crypto block coinstate = .ok ())
    (hlookup : coinstate.unspent_transaction_outs_by_hash.lookup block.previous_block_hash = some m) :
    ∀ t ∈ block.transactions, ∀ reference ∈ output_references t,
      reference.hash = zero_hash ∨ reference ∈ m := by
  intro t ht reference href
  cases (shaped_of_validate hself).cases ht with
  | inl hcoinbase =>
      rw [hcoinbase.references, List.mem_singleton] at href
      exact .inl (by rw [href]; rfl)
  | inr hspending => exact .inr (spent_mem_of_validate hvalid hlookup reference (hspending.2 reference href))

theorem genesis_representable : Representable (genesis_block crypto) := by
  have hheight : (genesis_block crypto).height = 0 := rfl
  refine ⟨?_, by simp [genesis_block], by omega, ?_⟩
  · have hsame : (genesis_block crypto).serialize =
        Block.serialize ⟨genesis_header, [genesis_transaction], none⟩ := rfl
    exact ⟨genesis_block_data, by rw [hsame, genesis_block_serialize]⟩
  · have hvalues : ∀ output ∈ genesis_transaction.outputs, output.value < 2 ^ 63 := by decide +kernel
    intro t ht
    rw [List.mem_singleton.mp ht]
    exact hvalues

theorem storable_of_validated (h : CoinState.Validated crypto blocks coinstate) :
    Storable crypto blocks := by
  induction h with
  | genesis hhash _ _ =>
      refine ⟨hhash, genesis_representable, ?_, ?_, trivial⟩
      · intro p hp
        cases hp
      · intro t ht reference href
        rw [List.mem_singleton.mp ht] at href
        rw [List.mem_singleton.mp href]
        exact .inl rfl
  | @add blocks h block coinstate _ current_timestamp hold hhash _ _ hself hvalid _ ih =>
      have hrep := hold.grown.represents
      obtain ⟨previous, hparent, hmem, hheight⟩ :=
        CoinState.parent_of_validate hrep hold.ne_zero hvalid
      obtain ⟨m, hm⟩ := Finmap.mem_iff.mp ((hrep.unspent.dom _).mpr (mem_keys_of_mem hmem))
      have hbacked := hold.backed
      have hbound : total Output.value m + get_block_subsidy block.height ≤ MAX_SASHIMI := by
        have hle := hbacked.total _ previous m hmem hm
        have hmax := sum_subsidy_le (previous.height + 2)
        rw [Finset.sum_range_succ] at hmax
        rw [hheight]
        omega
      refine ⟨hhash, representable_of_validate hself hvalid hm hbound, ?_, ?_, ih⟩
      · intro p hp
        have hp' : p = block.previous_block_hash := by
          unfold nullify_zeros at hp
          by_cases hzero : block.previous_block_hash = zero_hash
          · simp [hzero] at hp
          · simpa [hzero, eq_comm] using hp
        rw [hp']
        exact mem_keys_of_mem hmem
      · intro t ht reference href
        cases references_of_validate hself hvalid hm t ht reference href with
        | inl hthin => exact .inl hthin
        | inr hunspent => exact .inr (hbacked.created _ m hm reference hunspent)

theorem Storable.representable (h : Storable crypto blocks) :
    ∀ entry ∈ blocks, Representable entry.2 := by
  induction blocks with
  | nil => simp
  | cons entry older ih =>
      intro other hother
      cases List.mem_cons.mp hother with
      | inl hfirst => rw [hfirst]; exact h.2.1
      | inr hrest => exact ih h.2.2.2.2 other hrest

end Storable

section Rows

variable {blocks : List (Hash × Block)} {params : List BlockRows} {rows : BlockRows} {db : Database}

-- The hash under which a transaction is stored.
def storedHash (crypto : Crypto) (transaction : Transaction) : Py Hash := do
  let bytes ← transaction.serialize
  return crypto.sha256d bytes

-- A hash under which outputs are created is the hash of the bytes, also where
-- it was cached.
def HonestHash (crypto : Crypto) (transaction : Transaction) : Prop :=
  transaction.outputs ≠ [] → transaction.hash crypto = storedHash crypto transaction

theorem storedHash_of_rows {block_hash : Hash} {transaction : Transaction} {rows : TransactionRows}
    (h : transaction_rows crypto block_hash transaction = .ok rows) :
    storedHash crypto transaction = .ok rows.transaction.transaction_hash := by
  obtain ⟨bytes, hbytes, hlocator, _⟩ := transaction_rows_eq_ok.mp h
  simp only [storedHash, hbytes, hlocator]
  rfl

theorem transaction_rows_ok {transaction : Transaction} {bytes : Bytes} (block_hash : Hash)
    (h : transaction.serialize = .ok bytes) :
    ∃ rows, transaction_rows crypto block_hash transaction = .ok rows := by
  obtain ⟨_, _, hinputs, _, _⟩ := transaction_serialize_eq_ok.mp h
  obtain ⟨_, _, _, hall, _⟩ := serialize_list_eq_ok.mp hinputs
  obtain ⟨inputs, hrows⟩ := collect_ok (input_row (crypto.sha256d bytes))
    transaction.inputs.zipIdx (by
      intro item hitem
      have hin : item.1 ∈ transaction.inputs := by
        have hfst := List.mem_map_of_mem (f := Prod.fst) hitem
        simpa using hfst
      obtain ⟨_, _, hserialize⟩ := forall₂_mem_left (collect_eq_ok.mp hall) hin
      obtain ⟨_, signature, signed, _, hsome, hsigned, _⟩ := input_serialize_eq_ok.mp hserialize
      refine ⟨_, input_row_eq_ok.mpr ⟨some signed, ?_, rfl⟩⟩
      simp [serialize_signature, hsome, hsigned])
  exact ⟨⟨_, inputs, _⟩, transaction_rows_eq_ok.mpr ⟨bytes, h, rfl, hrows, rfl⟩⟩

theorem block_rows_ok {block : Block} {h : Hash} (hhash : block.hash crypto = .ok h)
    (hfits : Representable block) : ∃ rows, block_rows crypto block = .ok rows := by
  obtain ⟨bytes, hbytes⟩ := hfits.serializes
  obtain ⟨_, _, _, htransactions, _⟩ := block_serialize_eq_ok.mp hbytes
  obtain ⟨_, _, _, hall, _⟩ := serialize_list_eq_ok.mp htransactions
  obtain ⟨transactions, hrows⟩ := collect_ok (transaction_rows crypto h)
    block.transactions (by
      intro transaction ht
      obtain ⟨bytes, _, hserialize⟩ := forall₂_mem_left (collect_eq_ok.mp hall) ht
      exact transaction_rows_ok h hserialize)
  exact ⟨⟨_, transactions⟩, block_rows_eq_ok.mpr ⟨h, hhash, rfl, hrows⟩⟩

-- One more block at the end of what can be written.
theorem Writable.snoc (hwritable : Writable db params) (howned : Owned rows)
    (hnumbers : rows.block.height < 2 ^ 63 ∧ rows.block.timestamp < 2 ^ 63 ∧ rows.block.nonce < 2 ^ 63)
    (hvalues : ∀ t ∈ rows.transactions, ∀ row ∈ t.outputs, row.value < 2 ^ 63)
    (hindices : ∀ t ∈ rows.transactions, ∀ row ∈ t.inputs, row.output_reference_index < 2 ^ 63)
    (hparents : ∀ previous ∈ rows.block.previous_block_hash,
      previous ∈ (extend db params).chain.map ChainRow.block_hash)
    (hreferences : ∀ t ∈ rows.transactions, ∀ row ∈ t.inputs, ∀ hash ∈ row.output_reference_hash,
      (hash, row.output_reference_index) ∈
        (extend db params).transaction_outputs.map OutputRow.key) :
    Writable db (params ++ [rows]) := by
  -- a split of the longer list splits the shorter one, or comes at the end
  have hsplit : ∀ {done own rest}, params ++ [rows] = done ++ own :: rest →
      (∃ rest', params = done ++ own :: rest') ∨ done = params ∧ own = rows := by
    intro done own rest heq
    cases rest.eq_nil_or_concat with
    | inl hnil =>
        rw [hnil] at heq
        obtain ⟨hdone, hown⟩ := List.append_inj' heq rfl
        exact .inr ⟨hdone.symm, (List.cons.inj hown).1.symm⟩
    | inr hconcat =>
        obtain ⟨rest', last, hrest⟩ := hconcat
        rw [hrest, List.concat_eq_append, ← List.cons_append, ← List.append_assoc] at heq
        exact .inl ⟨rest', (List.append_inj' heq rfl).1⟩
  have hall : ∀ {P : BlockRows → Prop}, (∀ own ∈ params, P own) → P rows →
      ∀ own ∈ params ++ [rows], P own := by
    intro P hparams hrows own hown
    cases List.mem_append.mp hown with
    | inl hold => exact hparams own hold
    | inr hnew => rw [List.mem_singleton.mp hnew]; exact hrows
  refine ⟨hall hwritable.owned howned, hall hwritable.numbers hnumbers, hall hwritable.values hvalues,
    hall hwritable.indices hindices, ?_, ?_⟩
  · intro done own rest heq
    cases hsplit heq with
    | inl hinside =>
        obtain ⟨rest', hparams⟩ := hinside
        exact hwritable.parents done own rest' hparams
    | inr hlast =>
        rw [hlast.1, hlast.2]
        exact hparents
  · intro done own rest heq
    cases hsplit heq with
    | inl hinside =>
        obtain ⟨rest', hparams⟩ := hinside
        exact hwritable.references done own rest' hparams
    | inr hlast =>
        rw [hlast.1, hlast.2]
        exact hreferences

theorem numbers_of_block_rows {block : Block} (hrows : block_rows crypto block = .ok rows)
    (hfits : Representable block) :
    rows.block.height < 2 ^ 63 ∧ rows.block.timestamp < 2 ^ 63 ∧ rows.block.nonce < 2 ^ 63 := by
  obtain ⟨_, _, hrow, _⟩ := block_rows_eq_ok.mp hrows
  obtain ⟨bytes, hbytes⟩ := hfits.serializes
  obtain ⟨_, _, hheader, _⟩ := block_serialize_eq_ok.mp hbytes
  obtain ⟨_, hsummary, _⟩ := header_serialize_eq_ok.mp hheader
  obtain ⟨_, _, _, _, htimestamp, hnonce, _⟩ := summary_serialize_eq_ok.mp hsummary
  have htime := (pack_eq_ok.mp htimestamp).1
  have hnumber := (pack_eq_ok.mp hnonce).1
  rw [hrow]
  refine ⟨hfits.height_lt, ?_, ?_⟩
  · show block.header.summary.timestamp < 2 ^ 63
    omega
  · show block.header.summary.nonce < 2 ^ 63
    omega

theorem values_of_block_rows {block : Block} (hrows : block_rows crypto block = .ok rows)
    (hfits : Representable block) : ∀ t ∈ rows.transactions, ∀ row ∈ t.outputs, row.value < 2 ^ 63 := by
  intro t ht row hrow
  obtain ⟨_, _, _, htransactions⟩ := block_rows_eq_ok.mp hrows
  obtain ⟨transaction, hin, htransaction⟩ := forall₂_mem_left (collect_eq_ok.mp htransactions).flip ht
  obtain ⟨_, _, _, _, houtputs⟩ := transaction_rows_eq_ok.mp htransaction
  rw [houtputs] at hrow
  obtain ⟨item, hitem, hrow⟩ := List.mem_map.mp hrow
  have hmem : item.1 ∈ transaction.outputs := by
    have hfst := List.mem_map_of_mem (f := Prod.fst) hitem
    simpa using hfst
  rw [← hrow]
  exact hfits.values_lt transaction hin item.1 hmem

-- Every input row refers to what an input of the block refers to.
theorem reference_of_block_rows {block : Block} (hrows : block_rows crypto block = .ok rows)
    {t : TransactionRows} (ht : t ∈ rows.transactions) {row : InputRow} (hrow : row ∈ t.inputs) :
    ∃ transaction ∈ block.transactions, ∃ reference ∈ output_references transaction,
      row.output_reference_hash = nullify_zeros reference.hash ∧
      row.output_reference_index = reference.index := by
  obtain ⟨_, _, _, htransactions⟩ := block_rows_eq_ok.mp hrows
  obtain ⟨transaction, hin, htransaction⟩ := forall₂_mem_left (collect_eq_ok.mp htransactions).flip ht
  obtain ⟨_, _, _, hinputs, _⟩ := transaction_rows_eq_ok.mp htransaction
  obtain ⟨item, hitem, hinput⟩ := forall₂_mem_left (collect_eq_ok.mp hinputs).flip hrow
  obtain ⟨_, _, hrow⟩ := input_row_eq_ok.mp hinput
  have hmem : item.1 ∈ transaction.inputs := by
    have hfst := List.mem_map_of_mem (f := Prod.fst) hitem
    simpa using hfst
  rw [hrow]
  exact ⟨transaction, hin, item.1.output_reference, List.mem_map_of_mem hmem, rfl, rfl⟩

-- An output that a block creates has a row.
theorem created_row {block : Block} (hrows : block_rows crypto block = .ok rows) {transaction : Transaction}
    (hin : transaction ∈ block.transactions) (hhonest : HonestHash crypto transaction)
    {reference : OutputReference} (hcreates : Creates crypto transaction reference) :
    ∃ t ∈ rows.transactions, ∃ row ∈ t.outputs, row.key = (reference.hash, reference.index) := by
  obtain ⟨_, _, _, htransactions⟩ := block_rows_eq_ok.mp hrows
  obtain ⟨t, ht, htransaction⟩ := forall₂_mem_left (collect_eq_ok.mp htransactions) hin
  obtain ⟨hhash, hindex⟩ := hcreates
  have houtputs : transaction.outputs ≠ [] := List.ne_nil_of_length_pos (by omega)
  rw [hhonest houtputs, storedHash_of_rows htransaction] at hhash
  obtain ⟨bytes, hbytes, hlocator, _, houtputs⟩ := transaction_rows_eq_ok.mp htransaction
  have hstored : crypto.sha256d bytes = reference.hash := by
    rw [hlocator] at hhash
    exact Except.ok.inj hhash
  refine ⟨t, ht, output_row (crypto.sha256d bytes) (transaction.outputs[reference.index], reference.index),
    ?_, ?_⟩
  · rw [houtputs]
    apply List.mem_map_of_mem
    exact List.mem_zipIdx_iff_getElem?.mpr (List.getElem?_eq_getElem hindex)
  · rw [← hstored]
    rfl

-- The transactions of the blocks have honest hashes.
def Honest (crypto : Crypto) (blocks : List Block) : Prop :=
  ∀ transaction ∈ chainTransactions blocks, HonestHash crypto transaction

-- The hash of the rows of a block is that of the block.
theorem hash_of_block_rows {block : Block} (hrows : block_rows crypto block = .ok rows) :
    block.hash crypto = .ok rows.block.block_hash := by
  obtain ⟨h, hhash, hrow, _⟩ := block_rows_eq_ok.mp hrows
  rw [hrow, hhash]
  rfl

-- The rows of all blocks, the oldest first, can be written one block after the
-- other. The induction is on the list of blocks, newest first; what is in the
-- tables already are the hashes and the created outputs of the older ones.
theorem rows_of_storable (hstorable : Storable crypto blocks)
    (hhonest : Honest crypto (blocks.map Prod.snd)) :
    ∃ params, collect (block_rows crypto) (blocks.map Prod.snd).reverse = .ok params ∧
      (params.map fun rows => rows.block.block_hash) = (blocks.map Prod.fst).reverse ∧
      Writable ⟨[], [], [], []⟩ params := by
  induction blocks with
  | nil => exact ⟨[], rfl, rfl, ⟨by simp, by simp, by simp, by simp, by simp, by simp⟩⟩
  | cons entry older ih =>
      obtain ⟨h, block⟩ := entry
      obtain ⟨hhash, hfits, hparent, hreference, hrest⟩ := hstorable
      have hhonest' : Honest crypto (older.map Prod.snd) := by
        intro transaction ht
        exact hhonest transaction (List.mem_append_right _ ht)
      obtain ⟨params, hparams, hkeys, hwritable⟩ := ih hrest hhonest'
      obtain ⟨rows, hrows⟩ := block_rows_ok hhash hfits
      have hkey : rows.block.block_hash = h := Except.ok.inj ((hash_of_block_rows hrows).symm.trans hhash)
      refine ⟨params ++ [rows], ?_, ?_, ?_⟩
      · rw [List.map_cons, List.reverse_cons]
        exact collect_append.mpr ⟨params, [rows], hparams, collect_eq_ok.mpr (.cons hrows .nil), rfl⟩
      · rw [List.map_append, hkeys, List.map_singleton, hkey, List.map_cons, List.reverse_cons]
      · apply hwritable.snoc (owned_of_block_rows hrows) (numbers_of_block_rows hrows hfits)
          (values_of_block_rows hrows hfits)
        · intro t ht row hrow
          obtain ⟨_, _, reference, _, _, hindex⟩ := reference_of_block_rows hrows ht hrow
          have hle := reference.index_le
          omega
        · intro previous hprevious
          obtain ⟨_, _, hchain, _⟩ := block_rows_eq_ok.mp hrows
          rw [hchain] at hprevious
          apply mem_keys_insertAll.mpr
          right
          rw [List.map_map]
          show previous ∈ params.map fun rows => rows.block.block_hash
          rw [hkeys, List.mem_reverse]
          exact hparent previous hprevious
        · intro t ht row hrow hash hhashrow
          obtain ⟨transaction, hin, reference, href, hrefhash, hindex⟩ :=
            reference_of_block_rows hrows ht hrow
          rw [hrefhash] at hhashrow
          have hne : reference.hash ≠ zero_hash ∧ reference.hash = hash := by
            unfold nullify_zeros at hhashrow
            by_cases hzero : reference.hash = zero_hash
            · simp [hzero] at hhashrow
            · exact ⟨hzero, by simpa [hzero] using hhashrow⟩
          obtain ⟨creator, hcreator, hcreates⟩ : Created crypto (older.map Prod.snd) reference := by
            cases hreference transaction hin reference href with
            | inl hthin => exact absurd hthin hne.1
            | inr hcreated => exact hcreated
          obtain ⟨source, hsource, hcreator'⟩ := List.mem_flatMap.mp hcreator
          obtain ⟨rows', hrows', hsourceRows⟩ :=
            forall₂_mem_left (collect_eq_ok.mp hparams) (List.mem_reverse.mpr hsource)
          obtain ⟨t', ht', row', hrow', hkey'⟩ :=
            created_row hsourceRows hcreator' (hhonest' creator hcreator) hcreates
          apply mem_keys_insertAll.mpr
          right
          rw [hindex, ← hne.2, ← hkey']
          exact List.mem_map_of_mem (List.mem_flatMap.mpr
            ⟨t', List.mem_flatMap.mpr ⟨rows', hrows', ht'⟩, hrow'⟩)

end Rows

end BlockStore

end Skepticoin
