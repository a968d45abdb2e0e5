import Skepticoin.Balances.Theorems
import Skepticoin.Chain.DoubleSpend
import Skepticoin.Consensus.Construction
import Skepticoin.Datatypes.Size

namespace Skepticoin

open Guard FMap

variable {crypto : Crypto}

section Lookup

variable {m m' : UnspentTransactionOuts} {transactions : List Transaction}

theorem outputAt_eq_some {transaction : Transaction} {reference : OutputReference} {output : Output} :
    outputAt crypto transaction reference = some output ↔
      transaction.hash crypto = .ok reference.hash ∧ transaction.outputs[reference.index]? = some output := by
  unfold outputAt
  split_ifs with hhash <;> simp [hhash]

-- What is unspent after the transactions was created by one of them, or was
-- unspent before and is spent by none.
theorem uto_apply_transactions_lookup (reference : OutputReference) (output : Output)
    (h : uto_apply_transactions crypto m transactions = .ok m')
    (hdistinct : transactions.Pairwise fun a b => a.hash crypto ≠ b.hash crypto)
    (hseparate : ∀ t ∈ transactions, ∀ spent ∈ transactions.flatMap output_references,
      t.hash crypto ≠ .ok spent.hash) :
    m'.lookup reference = some output ↔
      (∃ t ∈ transactions, outputAt crypto t reference = some output) ∨
        m.lookup reference = some output ∧ reference ∉ transactions.flatMap output_references ∧
          ∀ t ∈ transactions, outputAt crypto t reference = none := by
  induction transactions generalizing m with
  | nil =>
      rw [← Except.ok.inj h]
      simp
  | cons transaction transactions ih =>
      simp only [uto_apply_transactions, bind_eq_ok] at h
      obtain ⟨middle, hfirst, hrest⟩ := h
      obtain ⟨hdiffer, hdistinct⟩ := List.pairwise_cons.mp hdistinct
      rw [List.flatMap_cons] at hseparate
      rw [ih hrest hdistinct fun t ht spent hspent =>
        hseparate t (List.mem_cons_of_mem _ ht) spent (List.mem_append_right _ hspent)]
      have hmiddle := uto_apply_transaction_lookup reference hfirst
      rw [List.flatMap_cons, List.mem_append, not_or]
      cases hcreated : outputAt crypto transaction reference with
      | none =>
          rw [hcreated, Option.none_or] at hmiddle
          by_cases hspent : reference ∈ output_references transaction
          · rw [if_pos ⟨rfl, hspent⟩] at hmiddle
            simp [hmiddle, hcreated, hspent]
          · rw [if_neg fun hr => hspent hr.2] at hmiddle
            simp [hmiddle, hcreated, hspent]
      | some created =>
          -- no later transaction has the hash, and none spends what has it
          have hhash := (outputAt_eq_some.mp hcreated).1
          rw [hcreated, Option.some_or] at hmiddle
          have hlater : ∀ t ∈ transactions, outputAt crypto t reference = none :=
            fun t ht => if_neg fun hsame => hdiffer t ht (hhash.trans hsame.symm)
          have hunspent : reference ∉ transactions.flatMap output_references := fun hspent =>
            hseparate transaction List.mem_cons_self reference (List.mem_append_right _ hspent) hhash
          have hnone : ¬∃ t ∈ transactions, outputAt crypto t reference = some output := by
            rintro ⟨t, ht, hsome⟩
            rw [hlater t ht] at hsome
            cases hsome
          constructor
          · rintro (hsome | ⟨hlookup, _⟩)
            · exact absurd hsome hnone
            · exact .inl ⟨transaction, List.mem_cons_self, by rw [hcreated, ← hmiddle, hlookup]⟩
          · rintro (⟨t, ht, hsome⟩ | ⟨_, _, hall⟩)
            · cases List.mem_cons.mp ht with
              | inl hself =>
                  rw [hself, hcreated] at hsome
                  exact .inr ⟨hmiddle.trans hsome, hunspent, hlater⟩
              | inr hin => exact absurd ⟨t, hin, hsome⟩ hnone
            · rw [hall transaction List.mem_cons_self] at hcreated
              cases hcreated

-- A block whose transactions are told apart, from each other and from what is
-- unspent before it, exchanges what it spends for what it creates.
theorem uto_apply_block_lookup {block : Block} (h : uto_apply_block crypto m block = .ok m')
    (hdistinct : block.transactions.Pairwise fun a b => a.hash crypto ≠ b.hash crypto)
    (hfresh : ∀ t ∈ block.transactions, ∀ reference ∈ m, t.hash crypto ≠ .ok reference.hash)
    (hspent : ∀ reference ∈ spentReferences block, reference ∈ m) (reference : OutputReference)
    (output : Output) :
    m'.lookup reference = some output ↔
      (∃ t ∈ block.transactions, t.hash crypto = .ok reference.hash ∧
        t.outputs[reference.index]? = some output) ∨
      m.lookup reference = some output ∧ reference ∉ spentReferences block := by
  unfold uto_apply_block at h
  cases hblock : block.transactions with
  | nil =>
      rw [hblock] at h
      cases h
  | cons coinbase transactions =>
      rw [hblock] at h hdistinct hfresh
      rw [spentReferences, hblock, List.tail_cons] at hspent ⊢
      obtain ⟨middle, hfirst, hrest⟩ := bind_eq_ok.mp h
      obtain ⟨hdiffer, hdistinct⟩ := List.pairwise_cons.mp hdistinct
      have hseparate : ∀ t ∈ transactions, ∀ spent ∈ transactions.flatMap output_references,
          t.hash crypto ≠ .ok spent.hash :=
        fun t ht spent href => hfresh t (List.mem_cons_of_mem _ ht) spent (hspent spent href)
      have hmiddle := uto_apply_transaction_lookup reference hfirst
      rw [if_neg fun hr => Bool.noConfusion hr.1] at hmiddle
      rw [uto_apply_transactions_lookup reference output hrest hdistinct hseparate]
      simp only [← outputAt_eq_some]
      -- a reference with the hash of a transaction is new
      have hnone : ∀ t ∈ coinbase :: transactions, ∀ old, m.lookup reference = some old →
          outputAt crypto t reference = none :=
        fun t ht old hold => if_neg (hfresh t ht reference (Finmap.mem_of_lookup_eq_some hold))
      constructor
      · rintro (⟨t, ht, hcreated⟩ | ⟨hlookup, hunspent, _⟩)
        · exact .inl ⟨t, List.mem_cons_of_mem _ ht, hcreated⟩
        · rw [hmiddle, Option.or_eq_some_iff] at hlookup
          obtain hcreated | ⟨_, hold⟩ := hlookup
          · exact .inl ⟨coinbase, List.mem_cons_self, hcreated⟩
          · exact .inr ⟨hold, hunspent⟩
      · rintro (⟨t, ht, hcreated⟩ | ⟨hold, hunspent⟩)
        · cases List.mem_cons.mp ht with
          | inr hlater => exact .inl ⟨t, hlater, hcreated⟩
          | inl hself =>
              subst hself
              have hhash := (outputAt_eq_some.mp hcreated).1
              refine .inr ⟨by rw [hmiddle, hcreated, Option.some_or], ?_, ?_⟩
              · intro href
                exact hfresh t List.mem_cons_self reference (hspent reference href) hhash
              · intro other hother
                exact if_neg fun hsame => hdiffer other hother (hhash.trans hsame.symm)
        · right
          refine ⟨?_, hunspent, fun t ht => hnone t (List.mem_cons_of_mem _ ht) output hold⟩
          rw [hmiddle, hnone coinbase List.mem_cons_self output hold, Option.none_or, hold]

end Lookup

-- A coinstate as its methods make it, where no hash has been taken twice: the
-- callers leave out a block whose hash is known.
inductive CoinState.BuiltOnce (crypto : Crypto) : CoinState → Prop
  | empty : BuiltOnce crypto .empty
  | add {coinstate next : CoinState} {block : Block} {hash : Hash} :
    BuiltOnce crypto coinstate → block.hash crypto = .ok hash → hash ∉ coinstate.block_by_hash →
    coinstate.add_block_no_validation crypto block = .ok next → BuiltOnce crypto next

-- The transactions of the blocks from a hash down to one without parent.
inductive OnChain (coinstate : CoinState) : Hash → Transaction → Prop
  | newest {h : Hash} {block : Block} {t : Transaction} : coinstate.block_by_hash.lookup h = some block →
    t ∈ block.transactions → OnChain coinstate h t
  | older {h : Hash} {block : Block} {t : Transaction} : coinstate.block_by_hash.lookup h = some block →
    block.previous_block_hash ≠ zero_hash → OnChain coinstate block.previous_block_hash t →
    OnChain coinstate h t

section Chain

variable {coinstate next : CoinState}

theorem OnChain.mono (h : ∀ hash block, coinstate.block_by_hash.lookup hash = some block →
      next.block_by_hash.lookup hash = some block) {hash : Hash} {t : Transaction}
    (hchain : OnChain coinstate hash t) : OnChain next hash t := by
  induction hchain with
  | newest hlookup hmem => exact .newest (h _ _ hlookup) hmem
  | older hlookup hne _ ih => exact .older (h _ _ hlookup) hne ih

theorem OnChain.cases {h : Hash} {t : Transaction} (hchain : OnChain coinstate h t) {block : Block}
    (hlookup : coinstate.block_by_hash.lookup h = some block) :
    t ∈ block.transactions ∨
      block.previous_block_hash ≠ zero_hash ∧ OnChain coinstate block.previous_block_hash t := by
  cases hchain with
  | newest hlookup' hmem => exact .inl (Option.some.inj (hlookup'.symm.trans hlookup) ▸ hmem)
  | older hlookup' hne hbelow =>
      rw [Option.some.inj (hlookup'.symm.trans hlookup)] at hne hbelow
      exact .inr ⟨hne, hbelow⟩

-- What is unspent at a hash was created on the chain that ends there.
theorem CoinState.BuiltOnce.created (hbuilt : CoinState.BuiltOnce crypto coinstate) {h : Hash}
    {m : UnspentTransactionOuts} (hlookup : coinstate.unspent_transaction_outs_by_hash.lookup h = some m) :
    ∀ reference ∈ m, ∃ t, OnChain coinstate h t ∧ t.hash crypto = .ok reference.hash := by
  induction hbuilt generalizing h m with
  | empty => cases hlookup
  | @add coinstate next block hash _ hhash hfresh hadd ih =>
      obtain ⟨before, after, hbefore, hafter, hblocks, hunspent⟩ := CoinState.maps_of_add hhash hadd
      have hkept : ∀ other block, coinstate.block_by_hash.lookup other = some block →
          next.block_by_hash.lookup other = some block := by
        intro other known hknown
        have hne : other ≠ hash := fun heq => hfresh (heq ▸ Finmap.mem_of_lookup_eq_some hknown)
        rw [hblocks, lookup_insert_eq_ite, if_neg hne, hknown]
      have hnew : next.block_by_hash.lookup hash = some block := by rw [hblocks, Finmap.lookup_insert]
      rw [hunspent, lookup_insert_eq_some] at hlookup
      intro reference href
      rcases hlookup with ⟨rfl, rfl⟩ | ⟨_, hold⟩
      · cases uto_apply_block_mem hafter href with
        | inl hcreated =>
            obtain ⟨t, ht, hcreates⟩ := hcreated
            exact ⟨t, .newest hnew ht, hcreates.1⟩
        | inr hbelow =>
            unfold CoinState.previous_unspent_transaction_outs at hbefore
            split_ifs at hbefore with hzero
            · rw [← Except.ok.inj hbefore] at hbelow
              exact absurd hbelow.1 Finmap.notMem_empty
            · obtain ⟨t, hchain, hcreates⟩ := ih (getItem_eq_ok.mp hbefore) reference hbelow.1
              exact ⟨t, .older hnew hzero (hchain.mono hkept), hcreates⟩
      · obtain ⟨t, hchain, hcreates⟩ := ih hold reference href
        exact ⟨t, hchain.mono hkept, hcreates⟩

end Chain

section Application

variable {coinstate : CoinState} {block : Block} {current_timestamp : Nat} {m : UnspentTransactionOuts}

theorem applicable_of_mem {bytes : Bytes} (hbytes : block.serialize = .ok bytes)
    (hsize : bytes.length ≤ MAX_BLOCK_SIZE) {transaction : Transaction} (hmem : transaction ∈ block.transactions) :
    Applicable crypto transaction := by
  obtain ⟨_, _, _, htransactions, _⟩ := block_serialize_eq_ok.mp hbytes
  obtain ⟨_, _, _, hall, _⟩ := serialize_list_eq_ok.mp htransactions
  obtain ⟨own, _, hown⟩ := forall₂_mem_left (collect_eq_ok.mp hall) hmem
  have houtputs := outputs_length_le_size transaction
  have hwithin := transaction_size_le hmem
  rw [block_serialize_length hbytes] at hsize
  have hmax : MAX_BLOCK_SIZE ≤ 2 ^ 32 := by decide
  exact ⟨hash_of_serialize hown, by omega⟩

-- Whatever order the transactions after the coinbase come in, they apply.
theorem uto_apply_block_permuted_ok
    (hself : validate_block_by_itself crypto block current_timestamp = .ok ())
    (hspent : ∀ reference ∈ spentReferences block, reference ∈ m) {coinbase : Transaction}
    {transactions permuted : List Transaction} (hblock : block.transactions = coinbase :: transactions)
    (hperm : permuted.Perm transactions) :
    ∃ m', uto_apply_block crypto m { block with transactions := coinbase :: permuted } = .ok m' := by
  obtain ⟨_, _, _, bytes, hblock', hbytes, hsize, _, _, hall, _, hnodup, _⟩ :=
    validate_block_by_itself_eq_ok.mp hself
  obtain ⟨rfl, rfl⟩ := List.cons.inj (hblock.symm.trans hblock')
  rw [spentReferences, hblock, List.tail_cons] at hspent
  have hsame := hperm.flatMap_right output_references
  have hcoinbase : Applicable crypto coinbase :=
    applicable_of_mem hbytes hsize (hblock ▸ List.mem_cons_self)
  refine uto_apply_block_ok rfl hcoinbase (fun t ht => ?_) (hsame.nodup_iff.mpr hnodup) fun reference href => ?_
  · exact applicable_of_validate (hall t (hperm.mem_iff.mp ht))
  · exact hspent reference (hsame.mem_iff.mp href)

-- Applying a block that has passed never raises, exchanges what it spends for
-- what it creates, and does not depend on the order of its transactions.
theorem apply_validated_block (hbuilt : CoinState.BuiltOnce crypto coinstate)
    (hself : validate_block_by_itself crypto block current_timestamp = .ok ())
    (hvalid : validate_block_past_checkpoints crypto block coinstate = .ok ())
    (hdistinct : block.transactions.Pairwise fun a b => a.hash crypto ≠ b.hash crypto)
    (hnew : ∀ t ∈ block.transactions, ∀ older, OnChain coinstate block.previous_block_hash older →
      t.hash crypto ≠ older.hash crypto) :
    ∃ m m', coinstate.unspent_transaction_outs_by_hash.lookup block.previous_block_hash = some m ∧
      uto_apply_block crypto m block = .ok m' ∧
      (∀ reference output, m'.lookup reference = some output ↔
        (∃ t ∈ block.transactions, t.hash crypto = .ok reference.hash ∧
          t.outputs[reference.index]? = some output) ∨
        m.lookup reference = some output ∧ reference ∉ spentReferences block) ∧
      (∀ t ∈ block.transactions, ∀ i < t.outputs.length, ∃ reference : OutputReference,
        t.hash crypto = .ok reference.hash ∧ reference.index = i) ∧
      ∀ coinbase transactions permuted, block.transactions = coinbase :: transactions →
        permuted.Perm transactions →
        uto_apply_block crypto m { block with transactions := coinbase :: permuted } = .ok m' := by
  obtain ⟨_, _, coinbase, transactions, hblock, hcoinbase, _⟩ := validate_block_past_checkpoints_eq_ok.mp hvalid
  obtain ⟨_, m, _, hm, _⟩ := validate_coinbase_transaction_in_coinstate_eq_ok.mp hcoinbase
  have hspent := spent_mem_of_validate hvalid hm
  have hfresh : ∀ t ∈ block.transactions, ∀ reference ∈ m, t.hash crypto ≠ .ok reference.hash := by
    intro t ht reference href heq
    obtain ⟨older, hchain, hcreated⟩ := hbuilt.created hm reference href
    exact hnew t ht older hchain (heq.trans hcreated.symm)
  obtain ⟨m', hm'⟩ := uto_apply_block_permuted_ok hself hspent hblock (List.Perm.refl transactions)
  rw [← hblock] at hm'
  have hlookup := uto_apply_block_lookup hm' hdistinct hfresh hspent
  refine ⟨m, m', hm, hm', hlookup, ?_, ?_⟩
  · intro t ht i hi
    obtain ⟨_, _, _, bytes, _, hbytes, hsize, _⟩ := validate_block_by_itself_eq_ok.mp hself
    obtain ⟨⟨hash, hhash⟩, hbound⟩ := applicable_of_mem hbytes hsize ht
    exact ⟨⟨hash, i, by omega⟩, hhash, rfl⟩
  · intro coinbase' transactions' permuted hblock' hperm
    obtain ⟨rfl, rfl⟩ := List.cons.inj (hblock.symm.trans hblock')
    obtain ⟨after, hafter⟩ := uto_apply_block_permuted_ok hself hspent hblock hperm
    rw [hafter, Except.ok.injEq]
    have hreferences : (spentReferences { block with transactions := coinbase :: permuted }).Perm
        (spentReferences block) := by
      rw [spentReferences, spentReferences, hblock]
      exact hperm.flatMap_right output_references
    have hall : (coinbase :: permuted).Perm block.transactions := hblock ▸ hperm.cons coinbase
    have hlookup' := uto_apply_block_lookup hafter (hall.symm.pairwise hdistinct fun h => h.symm)
      (fun t ht => hfresh t (hall.mem_iff.mp ht)) fun reference href =>
        hspent reference (hreferences.mem_iff.mp href)
    apply Finmap.ext_lookup
    intro reference
    apply Option.ext
    intro output
    rw [hlookup, hlookup', hreferences.mem_iff]
    simp only [hall.mem_iff]

theorem sample_built_once : CoinState.BuiltOnce .residue sample_coinstate_first := by
  obtain ⟨_, hadd, _, _, _, hadd', _⟩ := sample_runs
  have hhashes : (∃ h ∈ (sample_genesis.hash .residue).toOption, h ∉ CoinState.empty.block_by_hash) ∧
      ∃ h ∈ (sample_first.hash .residue).toOption, h ∉ sample_coinstate.block_by_hash := by
    decide +kernel
  obtain ⟨⟨h, hhash, hfresh⟩, h', hhash', hfresh'⟩ := hhashes
  rw [mem_toOption] at hhash hhash'
  have hgenesis : CoinState.BuiltOnce .residue sample_coinstate := .add .empty hhash hfresh hadd
  exact .add hgenesis hhash' hfresh' hadd'

theorem sample_on_chain {t : Transaction}
    (h : OnChain sample_coinstate_first sample_second.previous_block_hash t) :
    t ∈ sample_first.transactions ++ sample_genesis.transactions := by
  have hfirst : sample_coinstate_first.block_by_hash.lookup sample_second.previous_block_hash =
      some sample_first := by decide +kernel
  have hgenesis : sample_coinstate_first.block_by_hash.lookup sample_first.previous_block_hash =
      some sample_genesis := by decide +kernel
  have hzero : sample_genesis.previous_block_hash = zero_hash := sample_runs.1
  rw [List.mem_append]
  apply (h.cases hfirst).imp_right
  rintro ⟨_, hbelow⟩
  cases hbelow.cases hgenesis with
  | inl hmem => exact hmem
  | inr hchain => exact absurd hzero hchain.1

-- The block that spends the coinbase of the one before it.
theorem apply_validated_block_sample :
    ∃ m m', sample_coinstate_first.unspent_transaction_outs_by_hash.lookup sample_second.previous_block_hash =
        some m ∧
      uto_apply_block .residue m sample_second = .ok m' ∧
      (∀ reference output, m'.lookup reference = some output ↔
        (∃ t ∈ sample_second.transactions, t.hash .residue = .ok reference.hash ∧
          t.outputs[reference.index]? = some output) ∨
        m.lookup reference = some output ∧ reference ∉ spentReferences sample_second) ∧
      (∀ t ∈ sample_second.transactions, ∀ i < t.outputs.length, ∃ reference : OutputReference,
        t.hash .residue = .ok reference.hash ∧ reference.index = i) ∧
      ∀ coinbase transactions permuted, sample_second.transactions = coinbase :: transactions →
        permuted.Perm transactions →
        uto_apply_block .residue m { sample_second with transactions := coinbase :: permuted } = .ok m' := by
  obtain ⟨_, _, _, _, _, _, _, hself, hvalid, _⟩ := sample_runs
  have hdistinct : sample_second.transactions.Pairwise fun a b => a.hash .residue ≠ b.hash .residue := by
    decide +kernel
  have hnew : ∀ t ∈ sample_second.transactions,
      ∀ older ∈ sample_first.transactions ++ sample_genesis.transactions,
      t.hash .residue ≠ older.hash .residue := by
    decide +kernel
  exact apply_validated_block sample_built_once hself hvalid hdistinct fun t ht older hchain =>
    hnew t ht older (sample_on_chain hchain)

end Application

end Skepticoin
