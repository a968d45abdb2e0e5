import Skepticoin.CoinState.ForkChoice

namespace Skepticoin

open Guard FMap Tree

variable {crypto : Crypto}

-- Applying a block succeeds when what it spends is there to be spent.
section Apply

variable {m : UnspentTransactionOuts}

theorem uto_remove_inputs_ok {inputs : List Input} (hnodup : (inputs.map Input.output_reference).Nodup)
    (hmem : ∀ reference ∈ inputs.map Input.output_reference, reference ∈ m) :
    ∃ m', uto_remove_inputs m inputs = .ok m' ∧
      ∀ reference ∈ m, reference ∉ inputs.map Input.output_reference → reference ∈ m' := by
  induction inputs generalizing m with
  | nil => exact ⟨m, rfl, fun _ hold _ => hold⟩
  | cons input inputs ih =>
      rw [List.map_cons, List.nodup_cons] at hnodup
      have hrest : ∀ reference ∈ inputs.map Input.output_reference,
          reference ∈ m.erase input.output_reference := by
        intro reference href
        refine Finmap.mem_erase.mpr ⟨?_, hmem reference (List.mem_cons_of_mem _ href)⟩
        rintro rfl
        exact hnodup.1 href
      obtain ⟨m', hm', hkept⟩ := ih hnodup.2 hrest
      refine ⟨m', ?_, fun reference hold hnot => ?_⟩
      · simp only [uto_remove_inputs, bind_eq_ok, delItem_eq_ok]
        exact ⟨_, ⟨hmem _ List.mem_cons_self, rfl⟩, hm'⟩
      · rw [List.map_cons, List.mem_cons, not_or] at hnot
        exact hkept reference (Finmap.mem_erase.mpr ⟨hnot.1, hold⟩) hnot.2

theorem uto_add_outputs_ok {transaction : Transaction} {hash : Hash}
    (hhash : transaction.hash crypto = .ok hash) (i : Nat) (outputs : List Output)
    (hbound : i + outputs.length ≤ 2 ^ 32) :
    ∃ m', uto_add_outputs crypto transaction m i outputs = .ok m' ∧ ∀ reference ∈ m, reference ∈ m' := by
  induction outputs generalizing m i with
  | nil => exact ⟨m, rfl, fun _ hold => hold⟩
  | cons output outputs ih =>
      rw [List.length_cons] at hbound
      have hindex : i ≤ 0xffffffff := by omega
      obtain ⟨m', hm', hkept⟩ := ih (m := m.insert ⟨hash, i, hindex⟩ output) (i + 1) (by omega)
      refine ⟨m', ?_, fun reference hold => hkept reference (Finmap.mem_insert.mpr (.inr hold))⟩
      simp only [uto_add_outputs, bind_eq_ok]
      exact ⟨hash, hhash, ⟨hash, i, hindex⟩, by simp [OutputReference.new, hindex], hm'⟩

-- A transaction that can be hashed and whose outputs can be numbered.
def Applicable (crypto : Crypto) (transaction : Transaction) : Prop :=
  (∃ hash, transaction.hash crypto = .ok hash) ∧ transaction.outputs.length ≤ 2 ^ 32

theorem uto_apply_transactions_ok {transactions : List Transaction}
    (happlicable : ∀ transaction ∈ transactions, Applicable crypto transaction)
    (hnodup : (transactions.flatMap output_references).Nodup)
    (hmem : ∀ reference ∈ transactions.flatMap output_references, reference ∈ m) :
    ∃ m', uto_apply_transactions crypto m transactions = .ok m' := by
  induction transactions generalizing m with
  | nil => exact ⟨m, rfl⟩
  | cons transaction transactions ih =>
      rw [List.flatMap_cons, List.nodup_append] at hnodup
      obtain ⟨hfirst, hrest, hdisjoint⟩ := hnodup
      obtain ⟨⟨hash, hhash⟩, hbound⟩ := happlicable transaction List.mem_cons_self
      obtain ⟨removed, hremove, hkeptRemove⟩ := uto_remove_inputs_ok hfirst
        fun reference href => hmem reference (List.mem_append_left _ href)
      obtain ⟨added, hadd, hkeptAdd⟩ := uto_add_outputs_ok (m := removed) hhash 0 transaction.outputs
        (by omega)
      have hleft : ∀ reference ∈ transactions.flatMap output_references, reference ∈ added := by
        intro reference href
        refine hkeptAdd reference (hkeptRemove reference (hmem reference (List.mem_append_right _ href)) ?_)
        exact fun hspent => hdisjoint reference hspent reference href rfl
      obtain ⟨m', hm'⟩ := ih (fun t ht => happlicable t (List.mem_cons_of_mem _ ht)) hrest hleft
      refine ⟨m', ?_⟩
      simp only [uto_apply_transactions, uto_apply_transaction, bind_eq_ok, Bool.false_eq_true, if_false]
      exact ⟨added, ⟨removed, hremove, hadd⟩, hm'⟩

theorem uto_apply_block_ok {block : Block} {coinbase : Transaction} {transactions : List Transaction}
    (hblock : block.transactions = coinbase :: transactions) (hcoinbase : Applicable crypto coinbase)
    (happlicable : ∀ transaction ∈ transactions, Applicable crypto transaction)
    (hnodup : (transactions.flatMap output_references).Nodup)
    (hmem : ∀ reference ∈ transactions.flatMap output_references, reference ∈ m) :
    ∃ m', uto_apply_block crypto m block = .ok m' := by
  obtain ⟨⟨hash, hhash⟩, hbound⟩ := hcoinbase
  obtain ⟨added, hadd, hkept⟩ := uto_add_outputs_ok (m := m) hhash 0 coinbase.outputs (by omega)
  obtain ⟨m', hm'⟩ := uto_apply_transactions_ok happlicable hnodup
    fun reference href => hkept reference (hmem reference href)
  refine ⟨m', ?_⟩
  simp only [uto_apply_block, hblock, uto_apply_transaction, bind_eq_ok, if_true, Except.ok.injEq,
    exists_eq_left']
  exact ⟨added, hadd, hm'⟩

end Apply

-- What the construction of a block for mining has put together.
section Inversion

variable {coinstate : CoinState} {transactions : List Transaction} {key : SECP256k1PublicKey}
  {timestamp nonce : Nat} {random_data : Bytes}

theorem construct_coinbase_transaction_eq_ok {height : Nat} {m : UnspentTransactionOuts}
    {coinbase : Transaction}
    (h : construct_coinbase_transaction height transactions m random_data key = .ok coinbase) :
    ∃ (fees : Int) (data : CoinbaseData), get_block_fees transactions m = .ok fees ∧
      data.height = height ∧ data.signature = random_data ∧ 0 ≤ get_block_subsidy height + fees ∧
      coinbase = {
        inputs := [⟨construct_reference_to_thin_air, some (.CoinbaseData data)⟩]
        outputs := [⟨(get_block_subsidy height + fees).toNat, key⟩] } := by
  simp only [construct_coinbase_transaction, bind_eq_ok, raiseIf_eq_ok, exists_const, not_lt,
    pure_eq_ok] at h
  obtain ⟨fees, hfees, data, hdata, hvalue, rfl⟩ := h
  obtain ⟨hheight, hsignature⟩ := coinbase_data_new_eq_ok hdata
  exact ⟨fees, data, hfees, hheight, hsignature, hvalue, rfl⟩

theorem construct_block_for_mining_eq_ok {block : Block}
    (h : construct_block_for_mining crypto coinstate transactions key timestamp random_data nonce =
      .ok block) :
    ∃ current head m coinbase,
      coinstate.current_chain_hash = some current ∧
      coinstate.block_by_hash.lookup current = some head ∧
      coinstate.unspent_transaction_outs_by_hash.lookup current = some m ∧
      construct_coinbase_transaction (head.height + 1) transactions m random_data key = .ok coinbase ∧
      block.transactions = coinbase :: transactions ∧ block.cached_hash = none ∧
      block.height = head.height + 1 ∧ block.previous_block_hash = current ∧
      block.timestamp = timestamp ∧
      calc_merkle_root_hash crypto block.transactions = .ok block.header.summary.merkle_root_hash ∧
      calc_target crypto coinstate (head.height + 1) timestamp head = .ok block.target ∧
      construct_pow_evidence crypto coinstate block.header.summary block.height block.transactions =
        .ok block.header.pow_evidence := by
  simp only [construct_block_for_mining, construct_block_pow_evidence_input, construct_minable_summary,
    CoinState.head, bind_eq_ok, Prod.exists] at h
  obtain ⟨summary, height, all, hinput, evidence, hevidence, hblock⟩ := h
  cases hcurrent : coinstate.current_chain_hash with
  | none => simp [hcurrent] at hinput
  | some current =>
      simp only [hcurrent, getItem_eq_ok, bind_eq_ok, pure_eq_ok, Prod.mk.injEq] at hinput
      obtain ⟨head, hhead, m, hm, coinbase, hcoinbase, _, ⟨head', hhead', root, hroot, target, htarget,
        rfl⟩, rfl, rfl, rfl⟩ := hinput
      obtain rfl := Option.some.inj (hhead.symm.trans hhead')
      obtain rfl := Except.ok.inj hblock
      exact ⟨current, head, m, coinbase, rfl, hhead, hm, hcoinbase, rfl, rfl, rfl, rfl, rfl, hroot,
        htarget, hevidence⟩

end Inversion

section Transactions

variable {transaction : Transaction} {transactions : List Transaction}

theorem output_serialize_pos {output : Output} {bytes : Bytes}
    (h : output.stream_serialize = .ok bytes) : 1 ≤ bytes.length := by
  simp only [Output.stream_serialize, bind_eq_ok, pure_eq_ok, pack_eq_ok] at h
  obtain ⟨_, ⟨_, rfl⟩, rfl⟩ := h
  rw [List.length_append, to_bytes_length]
  omega

-- Every output takes up some of the bytes.
theorem outputs_length_le {bytes : Bytes} (h : transaction.serialize = .ok bytes) :
    transaction.outputs.length ≤ bytes.length := by
  obtain ⟨_, _, _, houtputs, rfl⟩ := transaction_serialize_eq_ok.mp h
  obtain ⟨_, elems, _, helems, rfl⟩ := serialize_list_eq_ok.mp houtputs
  have hall := collect_eq_ok.mp helems
  have hpos : ∀ n ∈ elems.map List.length, 1 ≤ n := by
    intro n hn
    obtain ⟨elem, helem, rfl⟩ := List.mem_map.mp hn
    obtain ⟨_, _, houtput⟩ := forall₂_mem_left hall.flip helem
    exact output_serialize_pos houtput
  have hsum := List.length_le_sum_of_one_le _ hpos
  rw [List.length_map, ← hall.length_eq, ← List.length_flatten] at hsum
  simp only [List.length_append]
  omega

theorem hash_of_serialize {bytes : Bytes} (h : transaction.serialize = .ok bytes) :
    ∃ hash, transaction.hash crypto = .ok hash := by
  cases hcached : transaction.cached_hash <;> simp [Transaction.hash, hcached, h]

theorem applicable_of_validate
    (h : validate_non_coinbase_transaction_by_itself transaction = .ok ()) :
    Applicable crypto transaction := by
  obtain ⟨_, _, ⟨bytes, hbytes, hsize⟩, _⟩ := validate_non_coinbase_transaction_by_itself_eq_ok.mp h
  refine ⟨hash_of_serialize hbytes, ?_⟩
  have hle := outputs_length_le hbytes
  have hmax : MAX_BLOCK_SIZE ≤ 2 ^ 32 := by decide
  omega

-- Equal transactions spend the same, whatever their signatures.
theorem shared_reference_of_eq {a b : Transaction} (h : a.eq b = true) (hne : b.inputs ≠ []) :
    ∃ reference ∈ output_references a, reference ∈ output_references b := by
  simp only [Transaction.eq, Bool.and_eq_true] at h
  obtain ⟨hinputs, _⟩ := h
  unfold output_references
  match ha : a.inputs, hb : b.inputs with
  | _, [] => exact absurd hb hne
  | [], _ :: _ => simp [ha, hb] at hinputs
  | input :: _, input' :: _ =>
      simp only [ha, hb, List.isEqv_cons_cons, Bool.and_eq_true, Input.eq, decide_eq_true_eq] at hinputs
      exact ⟨_, List.mem_cons_self, hinputs.1.1 ▸ List.mem_cons_self⟩

theorem validate_no_duplicate_transactions_ok {seen : List (Hash × Transaction)}
    (hhash : ∀ t ∈ transactions, ∃ hash, t.hash crypto = .ok hash)
    (hne : ∀ t ∈ transactions, t.inputs ≠ [])
    (hseen : ∀ s ∈ seen, ∀ t ∈ transactions, (output_references s.2).Disjoint (output_references t))
    (hdisjoint : transactions.Pairwise fun a b =>
      (output_references a).Disjoint (output_references b)) :
    validate_no_duplicate_transactions crypto seen transactions = .ok () := by
  induction transactions generalizing seen with
  | nil => rfl
  | cons transaction transactions ih =>
      obtain ⟨hash, hhashFirst⟩ := hhash transaction List.mem_cons_self
      obtain ⟨hfirst, hrest⟩ := List.pairwise_cons.mp hdisjoint
      have hnone : (seen.any fun s => s.1 = hash && s.2.eq transaction) = false := by
        rw [List.any_eq_false]
        intro s hs heq
        rw [Bool.and_eq_true] at heq
        obtain ⟨reference, ha, hb⟩ := shared_reference_of_eq heq.2 (hne transaction List.mem_cons_self)
        exact hseen s hs transaction List.mem_cons_self ha hb
      simp only [validate_no_duplicate_transactions, bind_eq_ok, raiseIf_eq_ok, exists_const]
      refine ⟨hash, hhashFirst, by simp [hnone], ih (fun t ht => hhash t (List.mem_cons_of_mem _ ht))
        (fun t ht => hne t (List.mem_cons_of_mem _ ht)) ?_ hrest⟩
      intro s hs t ht
      rcases List.mem_cons.mp hs with rfl | hs
      · exact hfirst t ht
      · exact hseen s hs t (List.mem_cons_of_mem _ ht)

theorem nodup_references_of_validate
    (hvalid : ∀ t ∈ transactions, validate_non_coinbase_transaction_by_itself t = .ok ())
    (hdisjoint : transactions.Pairwise fun a b =>
      (output_references a).Disjoint (output_references b)) :
    (transactions.flatMap output_references).Nodup := by
  refine List.nodup_flatMap.mpr ⟨fun t ht => ?_, hdisjoint⟩
  obtain ⟨_, _, _, _, _, hnodup, _⟩ := validate_non_coinbase_transaction_by_itself_eq_ok.mp (hvalid t ht)
  exact hnodup

end Transactions

-- No known block has the hash that stands for no parent, and the index of each
-- known block holds just its ancestors, each at its height.
def HeightIndexed (coinstate : CoinState) : Prop :=
  zero_hash ∉ coinstate.block_by_hash ∧
    ∃ blocks, (∀ h block, coinstate.block_by_hash.lookup h = some block ↔ (h, block) ∈ blocks) ∧
      ∀ h block, (h, block) ∈ blocks → ∃ index,
        coinstate.block_by_height_by_hash.lookup h = some index ∧ CoinState.Indexed blocks h block index

theorem CoinState.Grown.height_indexed {crypto : Crypto} {blocks : List (Hash × Block)} {coinstate : CoinState}
    (hgrown : CoinState.Grown crypto blocks coinstate)
    (hroot : ∀ h block, (h, block) ∈ blocks → block.parent = none → block.height = 0)
    (hzero : zero_hash ∉ blocks.map Prod.fst) : HeightIndexed coinstate := by
  have hrep := hgrown.represents
  refine ⟨?_, blocks, hrep.known, ?_⟩
  · intro hin
    obtain ⟨block, hlookup⟩ := Finmap.mem_iff.mp hin
    exact hzero (mem_keys_of_mem ((hrep.known _ _).mp hlookup))
  · intro h block hmem
    obtain ⟨index, hindex⟩ := Finmap.mem_iff.mp ((hrep.index.dom h).mpr (mem_keys_of_mem hmem))
    exact ⟨index, hindex, hrep.indexed hgrown.tree hroot h block index hmem hindex⟩

section Agreement

variable {coinstate : CoinState} {transactions : List Transaction} {key : SECP256k1PublicKey}
  {timestamp nonce now : Nat} {random_data : Bytes} {block : Block}

-- The transactions that a miner may pick at the head.
structure Minable (crypto : Crypto) (coinstate : CoinState) (transactions : List Transaction) : Prop where
  by_itself : ∀ t ∈ transactions, validate_non_coinbase_transaction_by_itself t = .ok ()
  in_coinstate : ∀ t ∈ transactions, ∀ current ∈ coinstate.current_chain_hash,
    validate_non_coinbase_transaction_in_coinstate crypto t current coinstate = .ok ()
  disjoint : transactions.Pairwise fun a b => (output_references a).Disjoint (output_references b)

theorem Minable.unspent (h : Minable crypto coinstate transactions) {current : Hash}
    {m : UnspentTransactionOuts} (hcurrent : coinstate.current_chain_hash = some current)
    (hm : coinstate.unspent_transaction_outs_by_hash.lookup current = some m) :
    ∀ reference ∈ transactions.flatMap output_references, reference ∈ m := by
  intro reference href
  obtain ⟨t, ht, href⟩ := List.mem_flatMap.mp href
  obtain ⟨m', values, hm', hvalues, _⟩ :=
    validate_non_coinbase_transaction_in_coinstate_eq_ok.mp (h.in_coinstate t ht current hcurrent)
  obtain rfl := Option.some.inj (hm.symm.trans hm')
  obtain ⟨input, hin, rfl⟩ := List.mem_map.mp href
  obtain ⟨_, _, hspend⟩ := forall₂_mem_left (collect_eq_ok.mp hvalues) hin
  obtain ⟨_, houtput, _⟩ := validate_spend_eq_ok.mp hspend
  exact Finmap.mem_of_lookup_eq_some houtput

theorem constructed_validates_by_itself (hminable : Minable crypto coinstate transactions)
    (hrandom : random_data.length ≤ MAX_COINBASE_RANDOM_DATA_SIZE)
    (hnow : timestamp ≤ now + MAX_FUTURE_BLOCK_TIME)
    (hbuild : construct_block_for_mining crypto coinstate transactions key timestamp random_data nonce =
      .ok block)
    (hsize : ∃ bytes, block.serialize = .ok bytes ∧ bytes.length ≤ MAX_BLOCK_SIZE)
    (hpow : ∃ hash, block.hash crypto = .ok hash ∧ hash.1 < block.target.1) :
    validate_block_by_itself crypto block now = .ok () := by
  obtain ⟨current, head, m, coinbase, _, _, _, hcoinbase, hblock, hcached, hheight, _, htimestamp,
    hroot, _, _⟩ := construct_block_for_mining_eq_ok hbuild
  obtain ⟨fees, data, _, hdataHeight, hsignature, _, hcoinbaseEq⟩ :=
    construct_coinbase_transaction_eq_ok hcoinbase
  obtain ⟨bytes, hbytes, hsize⟩ := hsize
  obtain ⟨hash, hhash, hpow⟩ := hpow
  rw [Block.hash, hcached] at hhash
  have hhashes : ∀ t ∈ transactions, ∃ hash, t.hash crypto = .ok hash :=
    fun t ht => (applicable_of_validate (hminable.by_itself t ht)).1
  have hne : ∀ t ∈ transactions, t.inputs ≠ [] := fun t ht =>
    (validate_non_coinbase_transaction_by_itself_eq_ok.mp (hminable.by_itself t ht)).1
  refine validate_block_by_itself_eq_ok.mpr ⟨?_, coinbase, transactions, bytes, hblock, hbytes, hsize, ?_,
    ⟨data, ?_, ?_⟩, hminable.by_itself, ?_, ?_, hroot⟩
  · refine validate_block_header_by_itself_eq_ok.mpr ⟨⟨hash, hhash, hpow⟩, ?_⟩
    have htime : block.header.summary.timestamp = timestamp := htimestamp
    omega
  · refine validate_coinbase_transaction_by_itself_eq_ok.mpr ⟨data, by rw [hcoinbaseEq], ?_⟩
    rw [hsignature]
    exact hrandom
  · simp [hcoinbaseEq, coinbase_data]
  · rw [hdataHeight, hheight]
  · exact validate_no_duplicate_transactions_ok hhashes hne (by simp) hminable.disjoint
  · exact nodup_references_of_validate hminable.by_itself hminable.disjoint

theorem constructed_validates_in_coinstate (hminable : Minable crypto coinstate transactions)
    (hhead : ∃ head, coinstate.head = .ok head ∧ MAX_KNOWN_HASH_HEIGHT ≤ head.height ∧
      head.timestamp < timestamp)
    (hbuild : construct_block_for_mining crypto coinstate transactions key timestamp random_data nonce =
      .ok block) :
    validate_block_in_coinstate crypto block coinstate = .ok () := by
  obtain ⟨current, head, m, coinbase, hcurrent, hlookup, hm, hcoinbase, hblock, _, hheight, hprevious,
    htimestamp, _, htarget, hevidence⟩ := construct_block_for_mining_eq_ok hbuild
  obtain ⟨fees, data, hfees, _, _, hvalue, hcoinbaseEq⟩ := construct_coinbase_transaction_eq_ok hcoinbase
  obtain ⟨head', hhead', hmax, htime⟩ := hhead
  simp only [CoinState.head, hcurrent, getItem_eq_ok, hlookup, Option.some.injEq] at hhead'
  subst hhead'
  rw [validate_block_in_coinstate_of_lt (by omega)]
  refine validate_block_past_checkpoints_eq_ok.mpr ⟨?_, hevidence, coinbase, transactions, hblock, ?_, ?_⟩
  · refine validate_block_summary_in_coinstate_eq_ok.mpr ⟨head, ?_, ?_, ?_⟩
    · rw [← hlookup, ← hprevious]
    · have hsummary : block.header.summary.timestamp = timestamp := htimestamp
      omega
    · rw [← htimestamp] at htarget
      exact htarget
  · refine validate_coinbase_transaction_in_coinstate_eq_ok.mpr ⟨⟨head, ?_, hheight⟩, m, fees, ?_, ?_, ?_⟩
    · rw [hprevious, hlookup]
    · rw [hprevious, hm]
    · rw [hblock, List.tail_cons, hfees]
    · rw [hcoinbaseEq, hheight]
      simp only [output_values, List.map_cons, List.map_nil, List.sum_cons, List.sum_nil]
      omega
  · intro t ht
    rw [hprevious]
    exact hminable.in_coinstate t ht current hcurrent

theorem constructed_adds (hindexed : HeightIndexed coinstate) (hminable : Minable crypto coinstate transactions)
    (hbuild : construct_block_for_mining crypto coinstate transactions key timestamp random_data nonce =
      .ok block)
    (hhash : ∃ hash, block.hash crypto = .ok hash) :
    ∃ next, coinstate.add_block_no_validation crypto block = .ok next ∧ next.head = .ok block := by
  obtain ⟨current, head, m, coinbase, hcurrent, hlookup, hm, hcoinbase, hblock, _, _, hprevious, _, hroot,
    _, _⟩ := construct_block_for_mining_eq_ok hbuild
  obtain ⟨_, _, _, _, _, _, hcoinbaseEq⟩ := construct_coinbase_transaction_eq_ok hcoinbase
  obtain ⟨hash, hhash⟩ := hhash
  obtain ⟨hzero, blocks, hknown, hindex⟩ := hindexed
  obtain ⟨index, hindex, _⟩ := hindex current head ((hknown current head).mp hlookup)
  have hne : block.previous_block_hash ≠ zero_hash := by
    rw [hprevious]
    rintro rfl
    exact hzero (Finmap.mem_of_lookup_eq_some hlookup)
  have hcoinbaseHash : ∃ hash, coinbase.hash crypto = .ok hash := by
    simp only [calc_merkle_root_hash, hblock, bind_eq_ok, collect_eq_ok] at hroot
    obtain ⟨_, hall, _⟩ := hroot
    obtain ⟨hash, _, hcoinbaseHash⟩ := forall₂_mem_left hall List.mem_cons_self
    exact ⟨hash, hcoinbaseHash⟩
  obtain ⟨after, hafter⟩ := uto_apply_block_ok (m := m) hblock
    ⟨hcoinbaseHash, by simp [hcoinbaseEq]⟩
    (fun t ht => applicable_of_validate (hminable.by_itself t ht))
    (nodup_references_of_validate hminable.by_itself hminable.disjoint)
    (hminable.unspent hcurrent hm)
  have hunspent : coinstate.previous_unspent_transaction_outs block = .ok m := by
    rw [CoinState.previous_unspent_transaction_outs, if_neg hne, hprevious, getItem_eq_ok, hm]
  have hnextIndex : coinstate.next_block_by_height_by_hash hash block =
      .ok (coinstate.block_by_height_by_hash.insert hash (index.insert block.height block)) := by
    rw [CoinState.next_block_by_height_by_hash, if_neg hne, hprevious]
    simp [hindex]
  have hnextCurrent : coinstate.next_current_chain_hash hash block = .ok hash := by
    simp [CoinState.next_current_chain_hash, hcurrent, hprevious]
  refine ⟨_, CoinState.add_block_no_validation_eq_ok.mpr
    ⟨m, after, hash, _, hash, hunspent, hafter, hhash, hnextIndex, hnextCurrent, rfl⟩, ?_⟩
  simp [CoinState.head]

-- A block built for mining on a coinstate is accepted by that coinstate, and
-- becomes its head, once its hash is below the target.
theorem construction_agrees_with_validation (hindexed : HeightIndexed coinstate)
    (hminable : Minable crypto coinstate transactions)
    (hhead : ∃ head, coinstate.head = .ok head ∧ MAX_KNOWN_HASH_HEIGHT ≤ head.height ∧
      head.timestamp < timestamp)
    (hrandom : random_data.length ≤ MAX_COINBASE_RANDOM_DATA_SIZE)
    (hnow : timestamp ≤ now + MAX_FUTURE_BLOCK_TIME)
    (hbuild : construct_block_for_mining crypto coinstate transactions key timestamp random_data nonce =
      .ok block)
    (hsize : ∃ bytes, block.serialize = .ok bytes ∧ bytes.length ≤ MAX_BLOCK_SIZE)
    (hpow : ∃ hash, block.hash crypto = .ok hash ∧ hash.1 < block.target.1) :
    ∃ next, coinstate.add_block crypto block now = .ok next ∧ next.head = .ok block := by
  obtain ⟨hash, hhash, _⟩ := id hpow
  obtain ⟨next, hadd, hnext⟩ := constructed_adds hindexed hminable hbuild ⟨hash, hhash⟩
  refine ⟨next, CoinState.add_block_eq_ok.mpr ⟨?_, ?_, hadd⟩, hnext⟩
  · exact constructed_validates_by_itself hminable hrandom hnow hbuild hsize hpow
  · exact constructed_validates_in_coinstate hminable hhead hbuild

end Agreement

-- A chain without branches up to any height, whose block at height i has the
-- hash i + 1, and a block mined on top of the one of the last checkpoint. It
-- spends what the first block has granted.
section Tower

open CoinState

def towerKey : SECP256k1PublicKey := ⟨.ofNat 64 7⟩

def towerOutputs : Nat → List Output
  | 0 => [⟨1000, towerKey⟩]
  | _ + 1 => []

def towerBlock (i : Nat) : Block :=
  { bareBlock (i + 1) i i with transactions := [{ inputs := [], outputs := towerOutputs i }] }

def towerEntries : Nat → List (Hash × Block)
  | 0 => [(.ofNat 32 1, towerBlock 0)]
  | n + 1 => (.ofNat 32 (n + 2), towerBlock (n + 1)) :: towerEntries n

def towerCoinstate : Nat → CoinState
  | 0 => (empty.add_block_no_validation .residue (towerBlock 0)).toOption.getD empty
  | n + 1 =>
    ((towerCoinstate n).add_block_no_validation .residue (towerBlock (n + 1))).toOption.getD empty

theorem mem_towerEntries {n : Nat} {h : Hash} {block : Block} :
    (h, block) ∈ towerEntries n ↔ ∃ i ≤ n, h = .ofNat 32 (i + 1) ∧ block = towerBlock i := by
  induction n with
  | zero => simp [towerEntries]
  | succ n ih =>
      rw [towerEntries, List.mem_cons, ih, Prod.mk.injEq]
      constructor
      · rintro (⟨rfl, rfl⟩ | ⟨i, hi, rfl, rfl⟩)
        · exact ⟨n + 1, Nat.le_refl _, rfl, rfl⟩
        · exact ⟨i, by omega, rfl, rfl⟩
      · rintro ⟨i, hi, rfl, rfl⟩
        rcases Nat.lt_or_eq_of_le hi with hlt | rfl
        · exact .inr ⟨i, by omega, rfl, rfl⟩
        · exact .inl ⟨rfl, rfl⟩

theorem towerBlock_parent {i : Nat} (hi : i + 1 < 256 ^ 32) :
    (towerBlock (i + 1)).parent = some (.ofNat 32 (i + 1)) := by
  refine Block.parent_eq_some.mpr ⟨fun hzero => ?_, rfl⟩
  have := FixedBytes.ofNat_inj hi (by decide) hzero
  omega

theorem tower_grown {n : Nat} (hn : n + 1 < 256 ^ 32) :
    CoinState.Grown .residue (towerEntries n) (towerCoinstate n) := by
  induction n with
  | zero => exact .root (by decide +kernel) rfl (by decide +kernel)
  | succ n ih =>
      have hgrown := ih (by omega)
      have hmem : ((.ofNat 32 (n + 1) : Hash), towerBlock n) ∈ towerEntries n :=
        mem_towerEntries.mpr ⟨n, Nat.le_refl _, rfl, rfl⟩
      have hparent := towerBlock_parent (i := n) (by omega)
      have hhash : (towerBlock (n + 1)).hash .residue = .ok (.ofNat 32 (n + 2)) := rfl
      obtain ⟨next, hnext⟩ := hgrown.represents.add_ok hhash hparent hmem
        fun before _ => ⟨before, rfl⟩
      have hfresh : (.ofNat 32 (n + 2) : Hash) ∉ (towerEntries n).map Prod.fst := by
        intro hkey
        obtain ⟨⟨h, block⟩, hentry, heq⟩ := List.mem_map.mp hkey
        obtain ⟨i, hi, rfl, rfl⟩ := mem_towerEntries.mp hentry
        have := FixedBytes.ofNat_inj (by omega) (by omega) heq
        omega
      have hadd : (towerCoinstate n).add_block_no_validation .residue (towerBlock (n + 1)) =
          .ok (towerCoinstate (n + 1)) := by
        rw [hnext, towerCoinstate, hnext]
        rfl
      exact .add hgrown rfl hfresh hparent hmem rfl hadd

theorem tower_indexed {n : Nat} (hn : n + 1 < 256 ^ 32) : HeightIndexed (towerCoinstate n) := by
  apply (tower_grown hn).height_indexed
  · intro k block hmem hnone
    obtain ⟨i, hi, rfl, rfl⟩ := mem_towerEntries.mp hmem
    cases i with
    | zero => rfl
    | succ i =>
        rw [towerBlock_parent (by omega)] at hnone
        cases hnone
  · intro hzero
    obtain ⟨⟨h, block⟩, hmem, heq⟩ := List.mem_map.mp hzero
    obtain ⟨i, hi, hkey, _⟩ := mem_towerEntries.mp hmem
    have hsame : FixedBytes.ofNat 32 (i + 1) = FixedBytes.ofNat 32 0 := hkey.symm.trans heq
    have := FixedBytes.ofNat_inj (by omega) (by decide) hsame
    omega

theorem tower_current {n : Nat} (hn : n + 1 < 256 ^ 32) :
    (towerCoinstate n).current_chain_hash = some (.ofNat 32 (n + 1)) := by
  obtain ⟨h, hcurrent, hbest⟩ := (tower_grown hn).represents.current
  obtain ⟨block, hmem, hmax⟩ := hbest.mem
  obtain ⟨i, hi, rfl, rfl⟩ := mem_towerEntries.mp hmem
  have htop : n ≤ i := hmax (.ofNat 32 (n + 1), towerBlock n)
    (mem_towerEntries.mpr ⟨n, Nat.le_refl _, rfl, rfl⟩)
  rw [hcurrent, Nat.le_antisymm hi htop]

def towerUnspent : UnspentTransactionOuts := (uto_apply_block .residue ∅ (towerBlock 0)).toOption.getD ∅

-- The grant is there at every height.
theorem tower_unspent {n : Nat} (hn : n + 1 < 256 ^ 32) :
    (towerCoinstate n).unspent_transaction_outs_by_hash.lookup (.ofNat 32 (n + 1)) = some towerUnspent := by
  have hunspent := (tower_grown hn).represents.unspent
  have hmem : ∀ i ≤ n, ((.ofNat 32 (i + 1) : Hash), towerBlock i) ∈ towerEntries n := fun i hi =>
    mem_towerEntries.mpr ⟨i, hi, rfl, rfl⟩
  have hall : ∀ i ≤ n, (towerCoinstate n).unspent_transaction_outs_by_hash.lookup (.ofNat 32 (i + 1)) =
      some towerUnspent := by
    intro i hi
    induction i with
    | zero =>
        have hgrant : (towerBlock 0).parent = none ∧
            uto_apply_block .residue ∅ (towerBlock 0) = .ok towerUnspent := by
          decide +kernel
        obtain ⟨m, happly, hm⟩ := hunspent.root _ _ (hmem 0 hi) hgrant.1
        rw [hm, Except.ok.inj (happly.symm.trans hgrant.2)]
    | succ i ih =>
        obtain ⟨before, after, hbefore, happly, hafter⟩ :=
          hunspent.child _ _ _ (hmem (i + 1) hi) (towerBlock_parent (by omega))
        rw [ih (by omega)] at hbefore
        obtain rfl := Option.some.inj hbefore
        have hnothing : applyUnspent .residue (some towerUnspent) (towerBlock (i + 1)) = .ok towerUnspent := rfl
        rw [hafter, Except.ok.inj (happly.symm.trans hnothing)]
  exact hall n (Nat.le_refl n)

-- Looking a block up by its height along the tower.
def towerByHeight (n h : Nat) : Py Block := if h ≤ n then .ok (towerBlock h) else .error .KeyError

theorem tower_by_height {n : Nat} (hn : n + 1 < 256 ^ 32) :
    get_block_by_height (towerCoinstate n) (.ofNat 32 (n + 1)) = towerByHeight n := by
  have hgrown := tower_grown hn
  obtain ⟨_, blocks, hknown, hindex⟩ := tower_indexed hn
  have htop := (hgrown.represents.known (.ofNat 32 (n + 1)) (towerBlock n)).mpr
    (mem_towerEntries.mpr ⟨n, Nat.le_refl _, rfl, rfl⟩)
  obtain ⟨index, hlookup, hkeys, hancestors⟩ := hindex _ _ ((hknown _ _).mp htop)
  funext h
  have hrun : get_block_by_height (towerCoinstate n) (.ofNat 32 (n + 1)) h = getItem index h := by
    rw [get_block_by_height, getItem_eq_ok.mpr hlookup]
    rfl
  have hle : h ∈ index ↔ h ≤ n := hkeys h
  rw [hrun, towerByHeight]
  split_ifs with hh
  · obtain ⟨ancestor, hancestor⟩ := Finmap.mem_iff.mp (hle.mpr hh)
    obtain ⟨a, ha, _, hheight⟩ := (hancestors h ancestor).mp hancestor
    obtain ⟨i, _, _, rfl⟩ := mem_towerEntries.mp
      ((hgrown.represents.known a ancestor).mp ((hknown a ancestor).mpr ha))
    obtain rfl : i = h := hheight
    exact getItem_eq_ok.mpr hancestor
  · rw [getItem, find, Finmap.lookup_eq_none.mpr fun hmem => hh (hle.mp hmem)]

-- The block mined on the tower, put together from what construction reads.
def towerSpend : Transaction :=
  let grant := (({ inputs := [], outputs := towerOutputs 0 } : Transaction).hash .residue).toOption.getD zero_hash
  { inputs := [⟨⟨grant, 0, first_index_le⟩, some (.SECP256k1Signature towerKey.public_key)⟩]
    outputs := [⟨900, towerKey⟩] }

def towerCoinbase (n : Nat) : Transaction :=
  (construct_coinbase_transaction (n + 1) [towerSpend] towerUnspent [] towerKey).toOption.getD genesis_transaction

def towerSummary (n : Nat) : BlockSummary where
  height := n + 1
  previous_block_hash := .ofNat 32 (n + 1)
  merkle_root_hash := (calc_merkle_root_hash .residue [towerCoinbase n, towerSpend]).toOption.getD zero_hash
  timestamp := n + 1
  target := INITIAL_TARGET
  nonce := 0

def towerEvidence (n : Nat) : Py PowEvidence := do
  let summary_hash ← construct_summary_hash .residue (towerSummary n) (n + 1)
  let chain_sample ← select_n_k_length_slices_from_chain .residue summary_hash (n + 1) (towerByHeight n)
    CHAIN_SAMPLE_COUNT CHAIN_SAMPLE_SIZE
  let serialized_transactions ← stream_serialize_list Transaction.serialize [towerCoinbase n, towerSpend]
  return {
    summary_hash
    chain_sample
    block_hash := Crypto.residue.blake2 (summary_hash.1 ++ chain_sample ++ serialized_transactions) }

def towerMined (n : Nat) : Block where
  header := {
    summary := towerSummary n
    pow_evidence := (towerEvidence n).toOption.getD genesis_header.pow_evidence }
  transactions := [towerCoinbase n, towerSpend]

theorem tower_pow_evidence {n : Nat} (hn : n + 1 < 256 ^ 32)
    (hevidence : towerEvidence n = .ok (towerMined n).header.pow_evidence) :
    construct_pow_evidence .residue (towerCoinstate n) (towerSummary n) (n + 1) [towerCoinbase n, towerSpend] =
      .ok (towerMined n).header.pow_evidence := by
  have hrun : construct_pow_evidence .residue (towerCoinstate n) (towerSummary n) (n + 1)
      [towerCoinbase n, towerSpend] = towerEvidence n := by
    simp only [construct_pow_evidence, construct_pow_evidence_after_scrypt, towerEvidence,
      if_neg (Nat.succ_ne_zero n), ← tower_by_height hn]
    rfl
  rw [hrun, hevidence]

-- What mining on the tower computes, once its parts are known to succeed.
theorem construct_on_tower {n : Nat} (hn : n + 1 < 256 ^ 32)
    (hretarget : (n + 1) % BLOCKS_BETWEEN_TARGET_READJUSTMENT ≠ 0)
    (hcoinbase : construct_coinbase_transaction (n + 1) [towerSpend] towerUnspent [] towerKey =
      .ok (towerCoinbase n))
    (hmerkle : calc_merkle_root_hash .residue [towerCoinbase n, towerSpend] =
      .ok (towerSummary n).merkle_root_hash)
    (hevidence : towerEvidence n = .ok (towerMined n).header.pow_evidence) :
    construct_block_for_mining .residue (towerCoinstate n) [towerSpend] towerKey (n + 1) [] 0 =
      .ok (towerMined n) := by
  have hrep := (tower_grown hn).represents
  have hcurrent := tower_current hn
  have hmem : ((.ofNat 32 (n + 1) : Hash), towerBlock n) ∈ towerEntries n :=
    mem_towerEntries.mpr ⟨n, Nat.le_refl _, rfl, rfl⟩
  have hhead : getItem (towerCoinstate n).block_by_hash (.ofNat 32 (n + 1)) = .ok (towerBlock n) :=
    getItem_eq_ok.mpr ((hrep.known _ _).mpr hmem)
  have hunspent : getItem (towerCoinstate n).unspent_transaction_outs_by_hash (.ofNat 32 (n + 1)) =
      .ok towerUnspent := getItem_eq_ok.mpr (tower_unspent hn)
  have htarget : calc_target .residue (towerCoinstate n) (n + 1) (n + 1) (towerBlock n) =
      .ok INITIAL_TARGET := by
    rw [calc_target, if_neg hretarget]
    rfl
  have hheight : (towerBlock n).height = n := rfl
  have hsummary : construct_minable_summary .residue (towerCoinstate n) [towerCoinbase n, towerSpend] (n + 1) 0 =
      .ok (towerSummary n) := by
    have hshape : towerSummary n =
        ⟨n + 1, .ofNat 32 (n + 1), (towerSummary n).merkle_root_hash, n + 1, INITIAL_TARGET, 0⟩ := by
      rw [towerSummary]
    rw [hshape]
    -- the root itself is of no matter
    generalize (towerSummary n).merkle_root_hash = root at hmerkle ⊢
    simp only [construct_minable_summary, CoinState.head, hcurrent, hhead]
    simp only [bind, Except.bind, hmerkle, hheight, htarget]
    rfl
  simp only [construct_block_for_mining, construct_block_pow_evidence_input, CoinState.head, hcurrent,
    hhead]
  simp only [bind, Except.bind, hunspent, hcoinbase, hsummary, hheight, pure, Except.pure,
    tower_pow_evidence hn hevidence]
  rfl

theorem tower_head {n : Nat} (hn : n + 1 < 256 ^ 32) :
    (towerCoinstate n).head = .ok (towerBlock n) := by
  rw [CoinState.head, tower_current hn]
  exact getItem_eq_ok.mpr (((tower_grown hn).represents.known _ _).mpr
    (mem_towerEntries.mpr ⟨n, Nat.le_refl _, rfl, rfl⟩))

theorem tower_minable {n : Nat} (hn : n + 1 < 256 ^ 32) : Minable .residue (towerCoinstate n) [towerSpend] := by
  have hspend : validate_non_coinbase_transaction_by_itself towerSpend = .ok () ∧
      collect (validate_spend .residue towerUnspent towerSpend) towerSpend.inputs = .ok [1000] ∧
      (output_values towerSpend).sum ≤ [1000].sum := by
    decide +kernel
  refine ⟨fun t ht => ?_, fun t ht current hcurrent => ?_, List.pairwise_singleton _ _⟩
  · rw [List.mem_singleton.mp ht]
    exact hspend.1
  · rw [Option.mem_def, tower_current hn] at hcurrent
    rw [List.mem_singleton.mp ht, ← Option.some.inj hcurrent]
    exact validate_non_coinbase_transaction_in_coinstate_eq_ok.mpr ⟨_, _, tower_unspent hn, hspend.2⟩

theorem construction_agrees_with_validation_tower : ∃ next,
    (towerCoinstate 163000).add_block .residue (towerMined 163000) 163001 = .ok next ∧
      next.head = .ok (towerMined 163000) := by
  obtain ⟨hcoinbase, hmerkle, hevidence, ⟨bytes, hbytes, hsize⟩, ⟨hash, hhash, hpow⟩⟩ :
      construct_coinbase_transaction (163000 + 1) [towerSpend] towerUnspent [] towerKey =
        .ok (towerCoinbase 163000) ∧
      calc_merkle_root_hash .residue [towerCoinbase 163000, towerSpend] =
        .ok (towerSummary 163000).merkle_root_hash ∧
      towerEvidence 163000 = .ok (towerMined 163000).header.pow_evidence ∧
      (∃ bytes ∈ (towerMined 163000).serialize.toOption, bytes.length ≤ MAX_BLOCK_SIZE) ∧
      ∃ hash ∈ ((towerMined 163000).hash .residue).toOption, hash.1 < (towerMined 163000).target.1 := by
    decide +kernel
  have hn : 163000 + 1 < 256 ^ 32 := by decide
  have hretarget : (163000 + 1) % BLOCKS_BETWEEN_TARGET_READJUSTMENT ≠ 0 := by decide
  have hmax : MAX_KNOWN_HASH_HEIGHT ≤ 163000 := max_known_hash_height_eq.le
  have hnow : 163000 + 1 ≤ 163001 + MAX_FUTURE_BLOCK_TIME := by decide
  -- from here on the height is any number
  generalize 163000 = n at *
  exact construction_agrees_with_validation (tower_indexed hn) (tower_minable hn)
    ⟨towerBlock n, tower_head hn, hmax, Nat.lt_succ_self n⟩ (Nat.zero_le _) hnow
    (construct_on_tower hn hretarget hcoinbase hmerkle hevidence)
    ⟨bytes, mem_toOption.mp hbytes, hsize⟩ ⟨hash, mem_toOption.mp hhash, hpow⟩

end Tower

end Skepticoin
