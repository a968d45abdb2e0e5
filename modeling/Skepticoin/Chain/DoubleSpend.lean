import Skepticoin.Chain

namespace Skepticoin

open Guard FMap

variable {crypto : Crypto}

def chainTransactions (blocks : List Block) : List Transaction := blocks.flatMap Block.transactions

-- The references that the transactions after the coinbase spend.
def spentReferences (block : Block) : List OutputReference :=
  block.transactions.tail.flatMap output_references

section Shape

def CoinbaseOf (block : Block) (transaction : Transaction) : Prop :=
  ∃ data, transaction.inputs = [⟨construct_reference_to_thin_air, some (.CoinbaseData data)⟩] ∧
    data.height = block.height

def Spending (transaction : Transaction) : Prop :=
  transaction.inputs ≠ [] ∧ construct_reference_to_thin_air ∉ output_references transaction

-- One coinbase, which carries the height, and then transactions that spend
-- distinct outputs.
def Shaped (block : Block) : Prop :=
  ∃ coinbase transactions, block.transactions = coinbase :: transactions ∧
    CoinbaseOf block coinbase ∧ (∀ transaction ∈ transactions, Spending transaction) ∧
    (transactions.flatMap output_references).Nodup

theorem coinbase_data_eq_some {transaction : Transaction} {data data' : CoinbaseData}
    (hinputs : transaction.inputs = [⟨construct_reference_to_thin_air, some (.CoinbaseData data)⟩])
    (hdata : coinbase_data transaction = some data') : data = data' := by
  simpa [coinbase_data, hinputs] using hdata

theorem shaped_of_validate {block : Block} {current_timestamp : Nat}
    (h : validate_block_by_itself crypto block current_timestamp = .ok ()) : Shaped block := by
  obtain ⟨_, coinbase, transactions, _, hblock, _, _, hcoinbase, ⟨data', hdata', hheight⟩, hall, _, hnodup,
    _⟩ := validate_block_by_itself_eq_ok.mp h
  obtain ⟨data, hinputs, _⟩ := validate_coinbase_transaction_by_itself_eq_ok.mp hcoinbase
  obtain rfl := coinbase_data_eq_some hinputs hdata'
  refine ⟨coinbase, transactions, hblock, ⟨data, hinputs, hheight⟩, ?_, hnodup⟩
  intro transaction hmem
  obtain ⟨hne, _, _, _, _, _, hinput⟩ :=
    validate_non_coinbase_transaction_by_itself_eq_ok.mp (hall transaction hmem)
  refine ⟨hne, fun hthin => ?_⟩
  obtain ⟨input, hin, hreference⟩ := List.mem_map.mp hthin
  exact (validate_non_coinbase_input_eq_ok.mp (hinput input hin)).1 hreference

theorem CoinbaseOf.references {block : Block} {transaction : Transaction}
    (h : CoinbaseOf block transaction) :
    output_references transaction = [construct_reference_to_thin_air] := by
  obtain ⟨data, hinputs, _⟩ := h
  simp [output_references, hinputs]

theorem CoinbaseOf.inputs_ne {block : Block} {coinbase transaction : Transaction}
    (hcoinbase : CoinbaseOf block coinbase) (hspending : Spending transaction) :
    coinbase.inputs ≠ transaction.inputs := by
  intro hinputs
  have hreferences : output_references coinbase = output_references transaction := by
    rw [output_references, hinputs, output_references]
  apply hspending.2
  rw [← hreferences, hcoinbase.references]
  exact List.mem_singleton_self _

theorem CoinbaseOf.height_eq {first second : Block} {coinbase coinbase' : Transaction}
    (h : CoinbaseOf first coinbase) (h' : CoinbaseOf second coinbase')
    (hinputs : coinbase.inputs = coinbase'.inputs) : first.height = second.height := by
  obtain ⟨data, hdata, hheight⟩ := h
  obtain ⟨data', hdata', hheight'⟩ := h'
  have hsame : data = data' := by simpa [hdata, hdata'] using hinputs
  rw [← hheight, ← hheight', hsame]

-- Any transaction of a block is its coinbase, or spends.
theorem Shaped.cases {block : Block} (h : Shaped block) {transaction : Transaction}
    (hmem : transaction ∈ block.transactions) :
    CoinbaseOf block transaction ∨
      Spending transaction ∧ ∀ reference ∈ output_references transaction,
        reference ∈ spentReferences block := by
  obtain ⟨coinbase, transactions, hblock, hcoinbase, hspending, _⟩ := h
  rw [hblock] at hmem
  rcases List.mem_cons.mp hmem with rfl | hmem
  · exact .inl hcoinbase
  · refine .inr ⟨hspending _ hmem, fun reference href => ?_⟩
    rw [spentReferences, hblock, List.tail_cons]
    exact List.mem_flatMap.mpr ⟨transaction, hmem, href⟩

end Shape

section Apply

variable {m m' : UnspentTransactionOuts}

-- The output that a reference names is one of the transaction's.
def Creates (crypto : Crypto) (transaction : Transaction) (reference : OutputReference) : Prop :=
  transaction.hash crypto = .ok reference.hash ∧ reference.index < transaction.outputs.length

theorem uto_remove_inputs_mem {inputs : List Input} (h : uto_remove_inputs m inputs = .ok m')
    {reference : OutputReference} (hmem : reference ∈ m') :
    reference ∈ m ∧ reference ∉ inputs.map Input.output_reference := by
  induction inputs generalizing m with
  | nil =>
      cases h
      exact ⟨hmem, List.not_mem_nil⟩
  | cons input inputs ih =>
      simp only [uto_remove_inputs, bind_eq_ok, delItem_eq_ok] at h
      obtain ⟨_, ⟨_, rfl⟩, hrest⟩ := h
      obtain ⟨hold, hnot⟩ := ih hrest
      obtain ⟨hne, hold⟩ := Finmap.mem_erase.mp hold
      rw [List.map_cons, List.mem_cons, not_or]
      exact ⟨hold, hne, hnot⟩

theorem uto_add_outputs_mem {transaction : Transaction} {i : Nat} {outputs : List Output}
    (h : uto_add_outputs crypto transaction m i outputs = .ok m') {reference : OutputReference}
    (hmem : reference ∈ m') :
    reference ∈ m ∨ transaction.hash crypto = .ok reference.hash ∧
      reference.index < i + outputs.length := by
  induction outputs generalizing m i with
  | nil =>
      cases h
      exact .inl hmem
  | cons output outputs ih =>
      simp only [uto_add_outputs, bind_eq_ok] at h
      obtain ⟨hash, hhash, added, hadded, hrest⟩ := h
      rw [List.length_cons]
      rcases ih hrest with hold | ⟨hcreated, hindex⟩
      · rcases Finmap.mem_insert.mp hold with rfl | hold
        · obtain ⟨rfl, rfl⟩ := output_reference_new_eq_ok hadded
          exact .inr ⟨hhash, by omega⟩
        · exact .inl hold
      · exact .inr ⟨hcreated, by omega⟩

theorem uto_apply_coinbase_mem {transaction : Transaction}
    (h : uto_apply_transaction crypto m transaction true = .ok m') {reference : OutputReference}
    (hmem : reference ∈ m') : Creates crypto transaction reference ∨ reference ∈ m := by
  simp only [uto_apply_transaction, bind_eq_ok, if_true, Except.ok.injEq, exists_eq_left'] at h
  rcases uto_add_outputs_mem h hmem with hold | ⟨hhash, hindex⟩
  · exact .inr hold
  · exact .inl ⟨hhash, by omega⟩

theorem uto_apply_transactions_mem {transactions : List Transaction}
    (h : uto_apply_transactions crypto m transactions = .ok m') {reference : OutputReference}
    (hmem : reference ∈ m') :
    (∃ transaction ∈ transactions, Creates crypto transaction reference) ∨
      reference ∈ m ∧ reference ∉ transactions.flatMap output_references := by
  induction transactions generalizing m with
  | nil =>
      cases h
      exact .inr ⟨hmem, List.not_mem_nil⟩
  | cons transaction transactions ih =>
      simp only [uto_apply_transactions, uto_apply_transaction, bind_eq_ok, Bool.false_eq_true,
        if_false] at h
      obtain ⟨_, ⟨_, hremove, hadd⟩, hrest⟩ := h
      rw [List.flatMap_cons, List.mem_append, not_or]
      rcases ih hrest with ⟨creator, hin, hcreates⟩ | ⟨hold, hnot⟩
      · exact .inl ⟨creator, List.mem_cons_of_mem _ hin, hcreates⟩
      · rcases uto_add_outputs_mem hadd hold with hold | ⟨hhash, hindex⟩
        · obtain ⟨hold, hnotFirst⟩ := uto_remove_inputs_mem hremove hold
          exact .inr ⟨hold, hnotFirst, hnot⟩
        · exact .inl ⟨transaction, List.mem_cons_self, hhash, by omega⟩

-- What is unspent after a block was created in it, or was unspent before and
-- is not spent in it.
theorem uto_apply_block_mem {block : Block} (h : uto_apply_block crypto m block = .ok m')
    {reference : OutputReference} (hmem : reference ∈ m') :
    (∃ transaction ∈ block.transactions, Creates crypto transaction reference) ∨
      reference ∈ m ∧ reference ∉ spentReferences block := by
  unfold uto_apply_block at h
  unfold spentReferences
  split at h
  · cases h
  · rename_i coinbase transactions hblock
    rw [hblock, List.tail_cons]
    obtain ⟨_, hcoinbase, hrest⟩ := bind_eq_ok.mp h
    rcases uto_apply_transactions_mem hrest hmem with ⟨creator, hin, hcreates⟩ | ⟨hold, hnot⟩
    · exact .inl ⟨creator, List.mem_cons_of_mem _ hin, hcreates⟩
    · rcases uto_apply_coinbase_mem hcoinbase hold with hcreates | hold
      · exact .inl ⟨coinbase, List.mem_cons_self, hcreates⟩
      · exact .inr ⟨hold, hnot⟩

end Apply

section Invariant

def Created (crypto : Crypto) (blocks : List Block) (reference : OutputReference) : Prop :=
  ∃ transaction ∈ chainTransactions blocks, Creates crypto transaction reference

-- The books of a chain, newest block first: identifiers are unique, whatever
-- is spent is spent once and was created before, and what is unspent was
-- created and is not spent.
structure Accounted (crypto : Crypto) (blocks : List Block) (m : UnspentTransactionOuts) : Prop where
  distinct : (chainTransactions blocks).Pairwise fun a b => a.hash crypto ≠ b.hash crypto
  spent_once : (blocks.flatMap spentReferences).Nodup
  spent_earlier : ∀ newer block older, blocks = newer ++ block :: older →
    ∀ reference ∈ spentReferences block, Created crypto older reference
  unspent_created : ∀ reference ∈ m, Created crypto blocks reference
  unspent_not_spent : ∀ reference ∈ m, reference ∉ blocks.flatMap spentReferences

theorem Created.append (newer : List Block) {blocks : List Block} {reference : OutputReference}
    (h : Created crypto blocks reference) : Created crypto (newer ++ blocks) reference := by
  obtain ⟨transaction, hmem, hcreates⟩ := h
  refine ⟨transaction, ?_, hcreates⟩
  rw [chainTransactions, List.flatMap_append]
  exact List.mem_append_right _ hmem

theorem Accounted.spent_created {blocks : List Block} {m : UnspentTransactionOuts}
    (h : Accounted crypto blocks m) {reference : OutputReference}
    (hspent : reference ∈ blocks.flatMap spentReferences) : Created crypto blocks reference := by
  obtain ⟨block, hblock, href⟩ := List.mem_flatMap.mp hspent
  obtain ⟨newer, older, rfl⟩ := List.append_of_mem hblock
  have hcreated := h.spent_earlier newer block older rfl reference href
  have hcreated := hcreated.append (newer ++ [block])
  rwa [List.append_assoc, List.singleton_append] at hcreated

section Step

variable {block : Block} {blocks : List Block} {m before after : UnspentTransactionOuts}

-- Two transactions of one hash have the same inputs: no two of a new block
-- do, because they spend distinct outputs, and none of an older block does,
-- because what it spends is no longer unspent.
theorem distinct_step (hshaped : Shaped block) (hacc : Accounted crypto blocks m)
    (hblocks : ∀ older ∈ blocks, Shaped older ∧ older.height < block.height)
    (hunspent : ∀ reference ∈ spentReferences block, reference ∈ m)
    (hinputs : ∀ a ∈ chainTransactions (block :: blocks), ∀ b ∈ chainTransactions (block :: blocks),
      a.hash crypto = b.hash crypto → a.inputs = b.inputs) :
    (chainTransactions (block :: blocks)).Pairwise fun a b => a.hash crypto ≠ b.hash crypto := by
  have hnew : ∀ a ∈ block.transactions, a ∈ chainTransactions (block :: blocks) :=
    fun a ha => List.mem_append_left _ ha
  have hold : ∀ a ∈ chainTransactions blocks, a ∈ chainTransactions (block :: blocks) :=
    fun a ha => List.mem_append_right _ ha
  have hwithin : block.transactions.Pairwise fun a b => a.hash crypto ≠ b.hash crypto := by
    obtain ⟨coinbase, transactions, hblock, hcoinbase, hspending, hnodup⟩ := hshaped
    rw [hblock] at hnew ⊢
    refine List.pairwise_cons.mpr ⟨fun b hb hhash => ?_, ?_⟩
    · exact hcoinbase.inputs_ne (hspending b hb) (hinputs _ (hnew _ List.mem_cons_self) b
        (hnew _ (List.mem_cons_of_mem _ hb)) hhash)
    · refine (List.nodup_flatMap.mp hnodup).2.imp_of_mem fun {a b} ha hb hdisjoint hhash => ?_
      have hsame := hinputs a (hnew _ (List.mem_cons_of_mem _ ha)) b (hnew _ (List.mem_cons_of_mem _ hb)) hhash
      obtain ⟨input, hin⟩ := List.exists_mem_of_ne_nil _ (hspending a ha).1
      exact hdisjoint (List.mem_map_of_mem hin) (List.mem_map_of_mem (hsame ▸ hin))
  have hacross : ∀ a ∈ block.transactions, ∀ b ∈ chainTransactions blocks,
      a.hash crypto ≠ b.hash crypto := by
    intro a ha b hb hhash
    have hsame := hinputs a (hnew a ha) b (hold b hb) hhash
    obtain ⟨older, holder, hb⟩ := List.mem_flatMap.mp hb
    obtain ⟨hshapedOlder, hlower⟩ := hblocks older holder
    rcases hshaped.cases ha with hcoinbase | ⟨hspending, hreferences⟩
    · rcases hshapedOlder.cases hb with hcoinbase' | ⟨hspending', _⟩
      · exact absurd (hcoinbase.height_eq hcoinbase' hsame) (by omega)
      · exact hcoinbase.inputs_ne hspending' hsame
    · rcases hshapedOlder.cases hb with hcoinbase' | ⟨_, hreferences'⟩
      · exact hcoinbase'.inputs_ne hspending hsame.symm
      · obtain ⟨input, hin⟩ := List.exists_mem_of_ne_nil _ hspending.1
        have href := hunspent _ (hreferences _ (List.mem_map_of_mem hin))
        refine hacc.unspent_not_spent _ href (List.mem_flatMap.mpr ⟨older, holder, ?_⟩)
        exact hreferences' _ (List.mem_map_of_mem (hsame ▸ hin))
  exact List.pairwise_append.mpr ⟨hwithin, hacc.distinct, hacross⟩

theorem accounted_step (hshaped : Shaped block) (hacc : Accounted crypto blocks m)
    (hblocks : ∀ older ∈ blocks, Shaped older ∧ older.height < block.height)
    (hunspent : ∀ reference ∈ spentReferences block, reference ∈ m)
    (hinputs : ∀ a ∈ chainTransactions (block :: blocks), ∀ b ∈ chainTransactions (block :: blocks),
      a.hash crypto = b.hash crypto → a.inputs = b.inputs)
    (hbefore : ∀ reference ∈ before, reference ∈ m)
    (happly : uto_apply_block crypto before block = .ok after) :
    Accounted crypto (block :: blocks) after := by
  have hdistinct := distinct_step hshaped hacc hblocks hunspent hinputs
  have hfresh : ∀ transaction ∈ block.transactions, ∀ reference,
      Creates crypto transaction reference → ¬Created crypto blocks reference := by
    rintro transaction hmem reference ⟨hhash, _⟩ ⟨older, holder, hhash', _⟩
    exact (List.pairwise_append.mp hdistinct).2.2 _ hmem _ holder (hhash.trans hhash'.symm)
  refine ⟨hdistinct, ?_, ?_, ?_, ?_⟩
  · obtain ⟨_, _, hblock, _, _, hnodup⟩ := hshaped
    refine List.nodup_append.mpr ⟨by rwa [spentReferences, hblock], hacc.spent_once, ?_⟩
    rintro reference href _ hspent rfl
    exact hacc.unspent_not_spent _ (hunspent _ href) hspent
  · intro newer block' older hsplit reference href
    cases newer with
    | nil =>
        obtain ⟨rfl, rfl⟩ := List.cons.inj hsplit
        exact hacc.unspent_created _ (hunspent _ href)
    | cons _ newer =>
        obtain ⟨rfl, rfl⟩ := List.cons.inj hsplit
        exact hacc.spent_earlier newer block' older rfl reference href
  · intro reference hmem
    rcases uto_apply_block_mem happly hmem with ⟨transaction, hin, hcreates⟩ | ⟨hold, _⟩
    · exact ⟨transaction, List.mem_append_left _ hin, hcreates⟩
    · exact (hacc.unspent_created _ (hbefore _ hold)).append [block]
  · intro reference hmem hspent
    rcases uto_apply_block_mem happly hmem with ⟨transaction, hin, hcreates⟩ | ⟨hold, hnot⟩
    · refine hfresh transaction hin reference hcreates ?_
      rcases List.mem_append.mp hspent with hspent | hspent
      · exact hacc.unspent_created _ (hunspent _ hspent)
      · exact hacc.spent_created hspent
    · rcases List.mem_append.mp hspent with hspent | hspent
      · exact hnot hspent
      · exact hacc.unspent_not_spent _ (hbefore _ hold) hspent

end Step

end Invariant

section Run

-- What is hashed along a chain: the headers and the transactions.
def hashedBytes (blocks : List Block) : List Bytes :=
  blocks.filterMap (fun block => block.header.serialize.toOption) ++
    (chainTransactions blocks).filterMap fun transaction => transaction.serialize.toOption

def CollisionFree (crypto : Crypto) (blocks : List Block) : Prop :=
  ∀ a ∈ hashedBytes blocks, ∀ b ∈ hashedBytes blocks, crypto.sha256d a = crypto.sha256d b → a = b

-- Every cached hash is the hash that would be computed.
def HonestCaches (crypto : Crypto) (blocks : List Block) : Prop :=
  (∀ block ∈ blocks, ∀ hash ∈ block.cached_hash, block.header.hash crypto = .ok hash) ∧
    ∀ transaction ∈ chainTransactions blocks, ∀ hash ∈ transaction.cached_hash,
      Transaction.hash crypto { transaction with cached_hash := none } = .ok hash

-- A block of height 0 with only a coinbase, which passes the checks that need
-- no coinstate.
def PlainGenesis (crypto : Crypto) (block : Block) : Prop :=
  block.height = 0 ∧ (∃ coinbase, block.transactions = [coinbase]) ∧
    ∃ current_timestamp, validate_block_by_itself crypto block current_timestamp = .ok ()

variable {blocks : List Block} {coinstate : CoinState}

theorem Chain.validated (h : Chain crypto (PlainGenesis crypto) blocks coinstate) :
    ∀ block ∈ blocks, ∃ current_timestamp,
      validate_block_by_itself crypto block current_timestamp = .ok () := by
  induction h with
  | genesis _ hgenesis _ =>
      intro block hmem
      obtain rfl := List.mem_singleton.mp hmem
      exact hgenesis.2.2
  | extend current_timestamp _ _ hself _ _ ih =>
      intro block hmem
      rcases List.mem_cons.mp hmem with rfl | hmem
      · exact ⟨current_timestamp, hself⟩
      · exact ih block hmem

theorem serialize_of_validate {block : Block} {current_timestamp : Nat}
    (h : validate_block_by_itself crypto block current_timestamp = .ok ()) {transaction : Transaction}
    (hmem : transaction ∈ block.transactions) : ∃ bytes, transaction.serialize = .ok bytes := by
  obtain ⟨_, _, _, _, _, hbytes, _⟩ := validate_block_by_itself_eq_ok.mp h
  obtain ⟨_, _, _, htransactions, _⟩ := block_serialize_eq_ok.mp hbytes
  obtain ⟨_, _, _, hall, _⟩ := serialize_list_eq_ok.mp htransactions
  obtain ⟨bytes, _, hserialize⟩ := forall₂_mem_left (collect_eq_ok.mp hall) hmem
  exact ⟨bytes, hserialize⟩

theorem HonestCaches.hash_eq (h : HonestCaches crypto blocks) {transaction : Transaction}
    (hmem : transaction ∈ chainTransactions blocks) {bytes : Bytes}
    (hbytes : transaction.serialize = .ok bytes) :
    transaction.hash crypto = .ok (crypto.sha256d bytes) := by
  have huncached : Transaction.hash crypto { transaction with cached_hash := none } =
      .ok (crypto.sha256d bytes) := by
    have hsame : Transaction.serialize { transaction with cached_hash := none } = .ok bytes := hbytes
    simp [Transaction.hash, hsame]
  cases hcached : transaction.cached_hash with
  | none => simp [Transaction.hash, hcached, hbytes]
  | some hash =>
      have hhonest := h.2 transaction hmem hash hcached
      rw [huncached] at hhonest
      rw [Transaction.hash, hcached, hhonest]

theorem mem_hashedBytes {transaction : Transaction} (hmem : transaction ∈ chainTransactions blocks)
    {bytes : Bytes} (hbytes : transaction.serialize = .ok bytes) : bytes ∈ hashedBytes blocks :=
  List.mem_append_right _ (List.mem_filterMap.mpr ⟨transaction, hmem, by rw [hbytes]; rfl⟩)

-- With no collision, transactions of one hash have the same inputs.
theorem inputs_eq_of_hash_eq (hcollision : CollisionFree crypto blocks)
    (hcaches : HonestCaches crypto blocks)
    (hvalid : ∀ block ∈ blocks, ∃ current_timestamp,
      validate_block_by_itself crypto block current_timestamp = .ok ()) :
    ∀ a ∈ chainTransactions blocks, ∀ b ∈ chainTransactions blocks,
      a.hash crypto = b.hash crypto → a.inputs = b.inputs := by
  have hbytes : ∀ a ∈ chainTransactions blocks, ∃ bytes, a.serialize = .ok bytes := by
    intro a ha
    obtain ⟨block, hblock, ha⟩ := List.mem_flatMap.mp ha
    obtain ⟨_, hself⟩ := hvalid block hblock
    exact serialize_of_validate hself ha
  intro a ha b hb hhash
  obtain ⟨first, hfirst⟩ := hbytes a ha
  obtain ⟨second, hsecond⟩ := hbytes b hb
  rw [hcaches.hash_eq ha hfirst, hcaches.hash_eq hb hsecond, Except.ok.injEq] at hhash
  obtain rfl := hcollision first (mem_hashedBytes ha hfirst) second (mem_hashedBytes hb hsecond) hhash
  exact (transaction_serialize_inj hfirst hsecond).1

theorem CollisionFree.tail {block : Block} (h : CollisionFree crypto (block :: blocks)) :
    CollisionFree crypto blocks := by
  have hsub : ∀ bytes ∈ hashedBytes blocks, bytes ∈ hashedBytes (block :: blocks) := by
    intro bytes hmem
    rcases List.mem_append.mp hmem with hmem | hmem
    · obtain ⟨older, holder, hbytes⟩ := List.mem_filterMap.mp hmem
      exact List.mem_append_left _ (List.mem_filterMap.mpr ⟨older, List.mem_cons_of_mem _ holder, hbytes⟩)
    · obtain ⟨transaction, hin, hbytes⟩ := List.mem_filterMap.mp hmem
      exact List.mem_append_right _ (List.mem_filterMap.mpr
        ⟨transaction, List.mem_append_right _ hin, hbytes⟩)
  exact fun a ha b hb => h a (hsub a ha) b (hsub b hb)

theorem HonestCaches.tail {block : Block} (h : HonestCaches crypto (block :: blocks)) :
    HonestCaches crypto blocks :=
  ⟨fun older hmem => h.1 older (List.mem_cons_of_mem _ hmem),
    fun transaction hmem => h.2 transaction (List.mem_append_right _ hmem)⟩

-- The inputs of a block that passes were unspent after its parent.
theorem spent_mem_of_validate {block : Block} {m : UnspentTransactionOuts}
    (hvalid : validate_block_past_checkpoints crypto block coinstate = .ok ())
    (hlookup : coinstate.unspent_transaction_outs_by_hash.lookup block.previous_block_hash = some m) :
    ∀ reference ∈ spentReferences block, reference ∈ m := by
  intro reference href
  obtain ⟨_, _, _, transactions, hblock, _, hall⟩ := validate_block_past_checkpoints_eq_ok.mp hvalid
  rw [spentReferences, hblock, List.tail_cons] at href
  obtain ⟨transaction, hmem, href⟩ := List.mem_flatMap.mp href
  obtain ⟨m', values, hm', hvalues, _⟩ :=
    validate_non_coinbase_transaction_in_coinstate_eq_ok.mp (hall transaction hmem)
  obtain rfl : m = m' := Option.some.inj (hlookup.symm.trans hm')
  obtain ⟨input, hin, rfl⟩ := List.mem_map.mp href
  obtain ⟨_, _, hspend⟩ := forall₂_mem_left (collect_eq_ok.mp hvalues) hin
  obtain ⟨_, houtput, _⟩ := validate_spend_eq_ok.mp hspend
  exact Finmap.mem_of_lookup_eq_some houtput

theorem previous_unspent_mem {block : Block} {m before : UnspentTransactionOuts}
    (hlookup : coinstate.unspent_transaction_outs_by_hash.lookup block.previous_block_hash = some m)
    (hbefore : coinstate.previous_unspent_transaction_outs block = .ok before) :
    ∀ reference ∈ before, reference ∈ m := by
  unfold CoinState.previous_unspent_transaction_outs at hbefore
  split_ifs at hbefore
  · cases hbefore
    exact fun reference hmem => absurd hmem Finmap.notMem_empty
  · rw [getItem_eq_ok, hlookup] at hbefore
    cases hbefore
    exact fun _ hmem => hmem

theorem accounted_run {block : Block}
    (h : Chain crypto (PlainGenesis crypto) (block :: blocks) coinstate)
    (hcollision : CollisionFree crypto (block :: blocks))
    (hcaches : HonestCaches crypto (block :: blocks)) :
    ∃ hash m, block.hash crypto = .ok hash ∧
      coinstate.unspent_transaction_outs_by_hash.lookup hash = some m ∧
      Accounted crypto (block :: blocks) m := by
  induction blocks generalizing block coinstate with
  | nil =>
      have hinputs := inputs_eq_of_hash_eq hcollision hcaches h.validated
      obtain ⟨_, hself⟩ := h.validated block List.mem_cons_self
      cases h with
      | genesis hprevious hgenesis hadd =>
          obtain ⟨hash, before, after, hhash, hbefore, hafter, _, hstored⟩ := CoinState.lookup_added hadd
          obtain rfl : ∅ = before := by
            simpa [CoinState.previous_unspent_transaction_outs, hprevious] using hbefore
          obtain ⟨coinbase, hblock⟩ := hgenesis.2.1
          have hnone : Accounted crypto [] ∅ :=
            { distinct := List.Pairwise.nil
              spent_once := List.nodup_nil
              spent_earlier := fun newer block older hsplit => by simp at hsplit
              unspent_created := fun reference hmem => absurd hmem Finmap.notMem_empty
              unspent_not_spent := fun reference hmem => absurd hmem Finmap.notMem_empty }
          refine ⟨hash, after, hhash, hstored, accounted_step (shaped_of_validate hself) hnone ?_ ?_
            hinputs (fun _ hmem => hmem) hafter⟩
          · simp
          · simp [spentReferences, hblock]
  | cons parent blocks ih =>
      have hinputs := inputs_eq_of_hash_eq hcollision hcaches h.validated
      have hheights := h.heights
      cases h with
      | extend _ hchain hparent hself hvalid hadd =>
          obtain ⟨hash, m, hhash, hstored, hacc⟩ := ih hchain hcollision.tail hcaches.tail
          obtain rfl : hash = block.previous_block_hash := Except.ok.inj (hhash.symm.trans hparent)
          obtain ⟨hash, before, after, hhash, hbefore, hafter, _, hafterStored⟩ :=
            CoinState.lookup_added hadd
          refine ⟨hash, after, hhash, hafterStored, accounted_step (shaped_of_validate hself) hacc ?_
            (spent_mem_of_validate hvalid hstored) hinputs (previous_unspent_mem hstored hbefore) hafter⟩
          intro older holder
          obtain ⟨_, holderSelf⟩ := hchain.validated older holder
          exact ⟨shaped_of_validate holderSelf, hheights older holder⟩

-- No double spending: along any chain the identifiers of transactions are
-- distinct, no reference is spent twice, and each names an output of an
-- earlier block.
theorem no_double_spending {block : Block}
    (h : Chain crypto (PlainGenesis crypto) (block :: blocks) coinstate)
    (hcollision : CollisionFree crypto (block :: blocks))
    (hcaches : HonestCaches crypto (block :: blocks)) :
    (chainTransactions (block :: blocks)).Pairwise (fun a b => a.hash crypto ≠ b.hash crypto) ∧
    ((block :: blocks).flatMap spentReferences).Nodup ∧
    ∀ newer spender older, block :: blocks = newer ++ spender :: older →
      ∀ reference ∈ spentReferences spender, Created crypto older reference := by
  obtain ⟨_, _, _, _, hacc⟩ := accounted_run h hcollision hcaches
  exact ⟨hacc.distinct, hacc.spent_once, hacc.spent_earlier⟩

theorem sample_plain : PlainGenesis .residue sample_genesis := by
  refine ⟨?_, ⟨sample_genesis.transactions.headD genesis_transaction, ?_⟩, 1000, ?_⟩
  · decide +kernel
  · decide +kernel
  · decide +kernel

theorem no_double_spending_sample :
    (chainTransactions [sample_second, sample_first, sample_genesis]).Pairwise
      (fun a b => a.hash .residue ≠ b.hash .residue) ∧
    ([sample_second, sample_first, sample_genesis].flatMap spentReferences).Nodup ∧
    ∀ newer spender older, [sample_second, sample_first, sample_genesis] = newer ++ spender :: older →
      ∀ reference ∈ spentReferences spender, Created .residue older reference := by
  have hcollision : CollisionFree .residue [sample_second, sample_first, sample_genesis] := by
    unfold CollisionFree
    decide +kernel
  have hcaches : HonestCaches .residue [sample_second, sample_first, sample_genesis] := by
    unfold HonestCaches
    decide +kernel
  exact no_double_spending (sample_chain sample_plain) hcollision hcaches

end Run

end Skepticoin
