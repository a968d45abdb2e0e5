import Skepticoin.Balances.Theorems
import Skepticoin.Chain.DoubleSpend
import Skepticoin.CoinState.Growth

namespace Skepticoin

open Guard FMap

variable {crypto : Crypto}

-- What an output pays to a key.
def paidTo (public_key : SECP256k1PublicKey) (output : Output) : Nat :=
  if output.public_key = public_key then output.value else 0

-- The value is that of the unspent outputs paid to the key, and just those are
-- listed, each once.
structure BalanceMatches (m : UnspentTransactionOuts) (public_key : SECP256k1PublicKey) (balance : PKBalance) :
    Prop where
  value : balance.value = total (paidTo public_key) m
  once : balance.output_references.Nodup
  listed : ∀ reference, reference ∈ balance.output_references ↔
    ∃ output, m.lookup reference = some output ∧ output.public_key = public_key

def Matches (m : UnspentTransactionOuts) (balances : Balances) : Prop :=
  ∀ public_key, BalanceMatches m public_key (balanceOf balances public_key)

section Steps

variable {m m' before : UnspentTransactionOuts} {balances : Balances}

theorem balanceOf_insert (balances : Balances) (key public_key : SECP256k1PublicKey) (balance : PKBalance) :
    balanceOf (balances.insert key balance) public_key =
      if public_key = key then balance else balanceOf balances public_key := by
  unfold balanceOf
  rw [lookup_insert_eq_ite]
  by_cases h : public_key = key
  · rw [if_pos h, if_pos h]
    rfl
  · rw [if_neg h, if_neg h]

theorem matches_empty : Matches ∅ ∅ := by
  intro public_key
  refine ⟨rfl, List.nodup_nil, ?_⟩
  intro reference
  simp [balanceOf]

-- An output is spent.
theorem Matches.erase (h : Matches m balances) {reference : OutputReference} {output : Output}
    (hlookup : m.lookup reference = some output) :
    ∃ balance, balances.lookup output.public_key = some balance ∧
      Matches (m.erase reference) (balances.insert output.public_key {
        value := balance.value - output.value
        output_references := balance.output_references.filter fun other => other ≠ reference }) := by
  have hlisted := ((h output.public_key).listed reference).mpr ⟨output, hlookup, rfl⟩
  obtain ⟨balance, hbalance⟩ : ∃ balance, balances.lookup output.public_key = some balance := by
    cases hnone : balances.lookup output.public_key with
    | none =>
        rw [balanceOf, hnone] at hlisted
        cases hlisted
    | some balance => exact ⟨balance, rfl⟩
  refine ⟨balance, hbalance, ?_⟩
  intro public_key
  have hold := h public_key
  have htotal := total_erase (paidTo public_key) hlookup
  rw [balanceOf_insert]
  by_cases hkey : public_key = output.public_key
  · have hsame : balanceOf balances public_key = balance := by rw [hkey, balanceOf, hbalance]; rfl
    rw [hsame] at hold
    rw [if_pos hkey]
    have hpaid : paidTo public_key output = output.value := if_pos hkey.symm
    refine ⟨?_, hold.once.filter _, ?_⟩
    · have hvalue := hold.value
      rw [hpaid] at htotal
      show balance.value - output.value = (total (paidTo public_key) (m.erase reference) : Int)
      omega
    · intro other
      rw [List.mem_filter, hold.listed, lookup_erase_eq_ite]
      by_cases hother : other = reference
      · simp [hother]
      · simp [hother]
  · rw [if_neg hkey]
    have hpaid : paidTo public_key output = 0 := if_neg fun heq => hkey heq.symm
    refine ⟨?_, hold.once, ?_⟩
    · have hvalue := hold.value
      omega
    · intro other
      rw [hold.listed, lookup_erase_eq_ite]
      by_cases hother : other = reference
      · rw [if_pos hother, hother, hlookup]
        constructor
        · intro hexists
          obtain ⟨output', hsome, hpk⟩ := hexists
          rw [← Option.some.inj hsome] at hpk
          exact absurd hpk.symm hkey
        · intro hexists
          obtain ⟨_, hnone, _⟩ := hexists
          cases hnone
      · rw [if_neg hother]

-- A new output appears.
theorem Matches.insert (h : Matches m balances) {reference : OutputReference} (hfresh : reference ∉ m)
    (output : Output) :
    Matches (m.insert reference output) (balances.insert output.public_key {
      value := (balanceOf balances output.public_key).value + output.value
      output_references := (balanceOf balances output.public_key).output_references ++ [reference] }) := by
  intro public_key
  have hold := h public_key
  have htotal := total_insert_of_notMem (paidTo public_key) output hfresh
  have hnone := Finmap.lookup_eq_none.mpr hfresh
  rw [balanceOf_insert]
  by_cases hkey : public_key = output.public_key
  · rw [if_pos hkey, ← hkey]
    have hpaid : paidTo public_key output = output.value := if_pos hkey.symm
    have hunlisted : reference ∉ (balanceOf balances public_key).output_references := by
      rw [hold.listed, hnone]
      simp
    refine ⟨?_, ?_, ?_⟩
    · have hvalue := hold.value
      rw [hpaid] at htotal
      show (balanceOf balances public_key).value + output.value = _
      omega
    · rw [List.nodup_append]
      refine ⟨hold.once, List.nodup_singleton _, ?_⟩
      intro other hother new hnew heq
      rw [heq, List.mem_singleton.mp hnew] at hother
      exact hunlisted hother
    · intro other
      rw [List.mem_append, List.mem_singleton, hold.listed, lookup_insert_eq_ite]
      by_cases hother : other = reference
      · simp [hother, hkey]
      · simp [hother]
  · rw [if_neg hkey]
    have hpaid : paidTo public_key output = 0 := if_neg fun heq => hkey heq.symm
    refine ⟨?_, hold.once, ?_⟩
    · have hvalue := hold.value
      omega
    · intro other
      rw [hold.listed, lookup_insert_eq_ite]
      by_cases hother : other = reference
      · rw [if_pos hother, hother, hnone]
        have hkey' : output.public_key ≠ public_key := fun heq => hkey heq.symm
        simp [hkey']
      · rw [if_neg hother]

theorem pkb_remove_inputs_matches {inputs : List Input} (h : uto_remove_inputs m inputs = .ok m')
    (hmatches : Matches m balances) (hnodup : (inputs.map Input.output_reference).Nodup)
    (hsame : ∀ reference ∈ inputs.map Input.output_reference, before.lookup reference = m.lookup reference) :
    ∃ balances', pkb_remove_inputs before balances inputs = .ok balances' ∧ Matches m' balances' := by
  induction inputs generalizing m balances with
  | nil => exact ⟨balances, rfl, Except.ok.inj h ▸ hmatches⟩
  | cons input inputs ih =>
      simp only [uto_remove_inputs, bind_eq_ok, delItem_eq_ok] at h
      obtain ⟨_, ⟨hmem, herase⟩, hrest⟩ := h
      rw [← herase] at hrest
      rw [List.map_cons, List.nodup_cons] at hnodup
      obtain ⟨output, houtput⟩ := Finmap.mem_iff.mp hmem
      obtain ⟨balance, hbalance, hnext⟩ := hmatches.erase houtput
      have hbefore := (hsame input.output_reference List.mem_cons_self).trans houtput
      have hkept : ∀ reference ∈ inputs.map Input.output_reference,
          before.lookup reference = (m.erase input.output_reference).lookup reference := by
        intro reference href
        have hne : reference ≠ input.output_reference := fun heq => hnodup.1 (heq ▸ href)
        rw [lookup_erase_eq_ite, if_neg hne]
        exact hsame reference (List.mem_cons_of_mem _ href)
      obtain ⟨balances', hrun, hlast⟩ := ih hrest hnext hnodup.2 hkept
      refine ⟨balances', ?_, hlast⟩
      simp only [pkb_remove_inputs, bind_eq_ok, getItem_eq_ok]
      exact ⟨output, hbefore, balance, hbalance, hrun⟩

theorem pkb_add_outputs_matches {transaction : Transaction} {i : Nat} {outputs : List Output}
    (h : uto_add_outputs crypto transaction m i outputs = .ok m') (hmatches : Matches m balances)
    (hfresh : ∀ reference ∈ m, transaction.hash crypto = .ok reference.hash → reference.index < i) :
    ∃ balances', pkb_add_outputs crypto transaction balances i outputs = .ok balances' ∧
      Matches m' balances' := by
  induction outputs generalizing m balances i with
  | nil => exact ⟨balances, rfl, Except.ok.inj h ▸ hmatches⟩
  | cons output outputs ih =>
      simp only [uto_add_outputs, bind_eq_ok] at h
      obtain ⟨hash, hhash, reference, hnew, hrest⟩ := h
      obtain ⟨hrefHash, hrefIndex⟩ := output_reference_new_eq_ok hnew
      have hout : reference ∉ m := by
        intro hmem
        have hlt := hfresh reference hmem (hhash.trans (congrArg Except.ok hrefHash.symm))
        omega
      have hfreshNext : ∀ other ∈ m.insert reference output,
          transaction.hash crypto = .ok other.hash → other.index < i + 1 := by
        intro other hmem hother
        cases Finmap.mem_insert.mp hmem with
        | inl heq =>
            rw [heq, hrefIndex]
            omega
        | inr hold =>
            have hlt := hfresh other hold hother
            omega
      obtain ⟨balances', hrun, hlast⟩ := ih hrest (hmatches.insert hout output) hfreshNext
      refine ⟨balances', ?_, hlast⟩
      simp only [pkb_add_outputs, bind_eq_ok]
      exact ⟨hash, hhash, reference, hnew, hrun⟩

theorem pkb_apply_transaction_matches (before : UnspentTransactionOuts) {transaction : Transaction} {is_coinbase : Bool}
    (h : uto_apply_transaction crypto m transaction is_coinbase = .ok m') (hmatches : Matches m balances)
    (hnodup : is_coinbase = false → (output_references transaction).Nodup)
    (hsame : is_coinbase = false → ∀ reference ∈ output_references transaction,
      before.lookup reference = m.lookup reference)
    (hfresh : ∀ reference ∈ m, transaction.hash crypto ≠ .ok reference.hash) :
    ∃ balances', pkb_apply_transaction crypto before balances transaction is_coinbase = .ok balances' ∧
      Matches m' balances' := by
  cases is_coinbase with
  | true =>
      have hadded : uto_add_outputs crypto transaction m 0 transaction.outputs = .ok m' := h
      exact pkb_add_outputs_matches hadded hmatches fun reference hmem heq => absurd heq (hfresh reference hmem)
  | false =>
      obtain ⟨middle, hremoved, hadded⟩ := bind_eq_ok.mp h
      obtain ⟨balances₁, hrun₁, hmiddle⟩ := pkb_remove_inputs_matches hremoved hmatches (hnodup rfl) (hsame rfl)
      obtain ⟨balances', hrun, hlast⟩ := pkb_add_outputs_matches hadded hmiddle fun reference hmem heq =>
        absurd heq (hfresh reference (uto_remove_inputs_mem hremoved hmem).1)
      exact ⟨balances', bind_eq_ok.mpr ⟨balances₁, hrun₁, hrun⟩, hlast⟩

-- What a transaction leaves of the map, away from its inputs and its hash.
theorem uto_apply_transaction_elsewhere {transaction : Transaction} {is_coinbase : Bool}
    (h : uto_apply_transaction crypto m transaction is_coinbase = .ok m') {reference : OutputReference}
    (hhash : transaction.hash crypto ≠ .ok reference.hash)
    (hinput : is_coinbase = false → reference ∉ output_references transaction) :
    m'.lookup reference = m.lookup reference := by
  have hnone : outputAt crypto transaction reference = none := if_neg hhash
  rw [uto_apply_transaction_lookup reference h, hnone, Option.none_or, if_neg]
  intro hspent
  exact hinput hspent.1 hspent.2

theorem uto_apply_transaction_fresh {transaction other : Transaction} {is_coinbase : Bool}
    (h : uto_apply_transaction crypto m transaction is_coinbase = .ok m')
    (hfresh : ∀ reference ∈ m, other.hash crypto ≠ .ok reference.hash)
    (hne : transaction.hash crypto ≠ other.hash crypto) :
    ∀ reference ∈ m', other.hash crypto ≠ .ok reference.hash := by
  intro reference hmem heq
  have hlookup := uto_apply_transaction_lookup reference h
  have hsome := Finmap.lookup_isSome.mpr hmem
  have hnone : outputAt crypto transaction reference = none := if_neg fun hself => hne (hself.trans heq.symm)
  rw [hlookup, hnone, Option.none_or] at hsome
  split_ifs at hsome
  · cases hsome
  · exact hfresh reference (Finmap.lookup_isSome.mp hsome) heq

-- The balances stay in step with the map that is threaded through the
-- transactions, although outputs are looked up in the one before the block.
theorem pkb_apply_transactions_matches {transactions : List Transaction}
    (h : uto_apply_transactions crypto m transactions = .ok m') (hmatches : Matches m balances)
    (hnodup : (transactions.flatMap output_references).Nodup)
    (hsame : ∀ reference ∈ transactions.flatMap output_references,
      before.lookup reference = m.lookup reference)
    (hold : ∀ t ∈ transactions, ∀ reference ∈ transactions.flatMap output_references,
      t.hash crypto ≠ .ok reference.hash)
    (hfresh : ∀ t ∈ transactions, ∀ reference ∈ m, t.hash crypto ≠ .ok reference.hash)
    (hdistinct : transactions.Pairwise fun a b => a.hash crypto ≠ b.hash crypto) :
    ∃ balances', pkb_apply_transactions crypto before balances transactions = .ok balances' ∧
      Matches m' balances' := by
  induction transactions generalizing m balances with
  | nil => exact ⟨balances, rfl, Except.ok.inj h ▸ hmatches⟩
  | cons transaction transactions ih =>
      simp only [uto_apply_transactions, bind_eq_ok] at h
      obtain ⟨middle, hfirst, hrest⟩ := h
      rw [List.flatMap_cons] at hnodup hsame hold
      obtain ⟨hself, hothers, hdisjoint⟩ := List.nodup_append.mp hnodup
      obtain ⟨hdiffer, hdistinct⟩ := List.pairwise_cons.mp hdistinct
      obtain ⟨balances₁, hrun₁, hmiddle⟩ := pkb_apply_transaction_matches before hfirst hmatches (fun _ => hself)
        (fun _ reference href => hsame reference (List.mem_append_left _ href))
        (hfresh transaction List.mem_cons_self)
      have hsameRest : ∀ reference ∈ transactions.flatMap output_references,
          before.lookup reference = middle.lookup reference := by
        intro reference href
        have hright := List.mem_append_right (output_references transaction) href
        rw [hsame reference hright, uto_apply_transaction_elsewhere hfirst
          (hold transaction List.mem_cons_self reference hright)
          fun _ hin => hdisjoint reference hin reference href rfl]
      have hfreshRest : ∀ t ∈ transactions, ∀ reference ∈ middle, t.hash crypto ≠ .ok reference.hash :=
        fun t ht => uto_apply_transaction_fresh hfirst (hfresh t (List.mem_cons_of_mem _ ht)) (hdiffer t ht)
      obtain ⟨balances', hrun, hlast⟩ := ih hrest hmiddle hothers hsameRest
        (fun t ht reference href => hold t (List.mem_cons_of_mem _ ht) reference (List.mem_append_right _ href))
        hfreshRest hdistinct
      exact ⟨balances', bind_eq_ok.mpr ⟨balances₁, hrun₁, hrun⟩, hlast⟩

theorem pkb_apply_block_matches {block : Block} (h : uto_apply_block crypto m block = .ok m')
    (hmatches : Matches m balances) (hspent : ∀ reference ∈ spentReferences block, reference ∈ m)
    (hnodup : (spentReferences block).Nodup)
    (hfresh : ∀ t ∈ block.transactions, ∀ reference ∈ m, t.hash crypto ≠ .ok reference.hash)
    (hdistinct : block.transactions.Pairwise fun a b => a.hash crypto ≠ b.hash crypto) :
    ∃ balances', pkb_apply_block crypto m balances block = .ok balances' ∧ Matches m' balances' := by
  unfold uto_apply_block at h
  unfold pkb_apply_block
  unfold spentReferences at hspent hnodup
  cases hblock : block.transactions with
  | nil =>
      rw [hblock] at h
      cases h
  | cons coinbase transactions =>
      rw [hblock] at h hspent hnodup hfresh hdistinct
      rw [List.tail_cons] at hspent hnodup
      obtain ⟨middle, hfirst, hrest⟩ := bind_eq_ok.mp h
      obtain ⟨hdiffer, hdistinct⟩ := List.pairwise_cons.mp hdistinct
      obtain ⟨balances₁, hrun₁, hmiddle⟩ := pkb_apply_transaction_matches m hfirst hmatches
        (fun hfalse => by cases hfalse) (fun hfalse => by cases hfalse) (hfresh coinbase List.mem_cons_self)
      have hsame : ∀ reference ∈ transactions.flatMap output_references,
          m.lookup reference = middle.lookup reference := by
        intro reference href
        have hhash := hfresh coinbase List.mem_cons_self reference (hspent reference href)
        rw [uto_apply_transaction_elsewhere hfirst hhash fun hfalse => by cases hfalse]
      have hold : ∀ t ∈ transactions, ∀ reference ∈ transactions.flatMap output_references,
          t.hash crypto ≠ .ok reference.hash :=
        fun t ht reference href => hfresh t (List.mem_cons_of_mem _ ht) reference (hspent reference href)
      have hfreshRest : ∀ t ∈ transactions, ∀ reference ∈ middle, t.hash crypto ≠ .ok reference.hash :=
        fun t ht => uto_apply_transaction_fresh hfirst (hfresh t (List.mem_cons_of_mem _ ht)) (hdiffer t ht)
      obtain ⟨balances', hrun, hlast⟩ :=
        pkb_apply_transactions_matches hrest hmiddle hnodup hsame hold hfreshRest hdistinct
      exact ⟨balances', bind_eq_ok.mpr ⟨balances₁, hrun₁, hrun⟩, hlast⟩

end Steps

section Chains

variable {coinstate : CoinState} {h : Hash} {branch : List Block}

-- What add_block_no_validation leaves for a block.
def Applied (crypto : Crypto) (coinstate : CoinState) (h : Hash) (block : Block) : Prop :=
  coinstate.block_by_hash.lookup h = some block ∧
    ∃ m m', coinstate.previous_unspent_transaction_outs block = .ok m ∧
      uto_apply_block crypto m block = .ok m' ∧ coinstate.unspent_transaction_outs_by_hash.lookup h = some m'

-- The known blocks from one without parent up to a hash, newest first.
inductive Branch (crypto : Crypto) (coinstate : CoinState) : Hash → List Block → Prop
  | genesis {h : Hash} {block : Block} : block.previous_block_hash = zero_hash →
    Applied crypto coinstate h block → Branch crypto coinstate h [block]
  | extend {h : Hash} {block : Block} {older : List Block} : block.previous_block_hash ≠ zero_hash →
    Branch crypto coinstate block.previous_block_hash older → Applied crypto coinstate h block →
    Branch crypto coinstate h (block :: older)

-- The inputs of a block's transactions name outputs that are unspent at its
-- parent, each at most once.
structure SpendsUnspent (coinstate : CoinState) (block : Block) : Prop where
  unspent : ∀ m, coinstate.previous_unspent_transaction_outs block = .ok m →
    ∀ reference ∈ spentReferences block, reference ∈ m
  once : (spentReferences block).Nodup

theorem spends_of_previous {block : Block} {m : UnspentTransactionOuts}
    (hprevious : coinstate.previous_unspent_transaction_outs block = .ok m)
    (hspent : ∀ reference ∈ spentReferences block, reference ∈ m) (honce : (spentReferences block).Nodup) :
    SpendsUnspent coinstate block := by
  refine ⟨?_, honce⟩
  intro m' hm'
  rw [hprevious] at hm'
  exact Except.ok.inj hm' ▸ hspent

theorem applied_of_known {blocks : List (Hash × Block)} (hrep : CoinState.Represents crypto blocks coinstate)
    {block : Block} (hmem : (h, block) ∈ blocks) : Applied crypto coinstate h block := by
  refine ⟨(hrep.known h block).mpr hmem, ?_⟩
  cases hparent : block.parent with
  | none =>
      obtain ⟨m, happly, hlookup⟩ := hrep.unspent.root h block hmem hparent
      refine ⟨∅, m, ?_, happly, hlookup⟩
      rw [CoinState.previous_unspent_transaction_outs, if_pos (Block.parent_eq_none.mp hparent)]
  | some p =>
      obtain ⟨before, m, hbefore, happly, hlookup⟩ := hrep.unspent.child h block p hmem hparent
      obtain ⟨hne, hprevious⟩ := Block.parent_eq_some.mp hparent
      refine ⟨before, m, ?_, happly, hlookup⟩
      rw [CoinState.previous_unspent_transaction_outs, if_neg hne, getItem_eq_ok, hprevious, hbefore]

section Valid

variable {hash : Hash} {block : Block} {next : CoinState}

-- A new block changes nothing for the blocks before it.
theorem previous_kept (hhash : block.hash crypto = .ok hash)
    (hfresh : hash ∉ coinstate.unspent_transaction_outs_by_hash)
    (hadd : coinstate.add_block_no_validation crypto block = .ok next) {older : Block} {m : UnspentTransactionOuts}
    (hbefore : coinstate.previous_unspent_transaction_outs older = .ok m) :
    next.previous_unspent_transaction_outs older = .ok m := by
  obtain ⟨_, _, _, _, _, hmap⟩ := CoinState.maps_of_add hhash hadd
  unfold CoinState.previous_unspent_transaction_outs at hbefore ⊢
  split_ifs at hbefore ⊢
  · exact hbefore
  · rw [getItem_eq_ok] at hbefore ⊢
    have hne : older.previous_block_hash ≠ hash := fun heq => hfresh (heq ▸ Finmap.mem_of_lookup_eq_some hbefore)
    rw [hmap, Finmap.lookup_insert_of_ne _ hne]
    exact hbefore

theorem Applied.kept {older : Block} (happlied : Applied crypto coinstate h older)
    (hhash : block.hash crypto = .ok hash)
    (hknown : hash ∉ coinstate.block_by_hash) (hfresh : hash ∉ coinstate.unspent_transaction_outs_by_hash)
    (hadd : coinstate.add_block_no_validation crypto block = .ok next) : Applied crypto next h older := by
  obtain ⟨hblock, m, m', hbefore, happly, hlookup⟩ := happlied
  obtain ⟨_, _, _, _, hblocks, hmap⟩ := CoinState.maps_of_add hhash hadd
  have hne : h ≠ hash := fun heq => hknown (heq ▸ Finmap.mem_of_lookup_eq_some hblock)
  refine ⟨?_, m, m', previous_kept hhash hfresh hadd hbefore, happly, ?_⟩
  · rw [hblocks, Finmap.lookup_insert_of_ne _ hne]
    exact hblock
  · rw [hmap, Finmap.lookup_insert_of_ne _ hne]
    exact hlookup

theorem Branch.kept (hbranch : Branch crypto coinstate h branch) (hhash : block.hash crypto = .ok hash)
    (hknown : hash ∉ coinstate.block_by_hash) (hfresh : hash ∉ coinstate.unspent_transaction_outs_by_hash)
    (hadd : coinstate.add_block_no_validation crypto block = .ok next) : Branch crypto next h branch := by
  induction hbranch with
  | genesis hzero happlied => exact .genesis hzero (happlied.kept hhash hknown hfresh hadd)
  | extend hne _ happlied ih => exact .extend hne ih (happlied.kept hhash hknown hfresh hadd)

theorem Branch.previous {older : Block} (hbranch : Branch crypto coinstate h branch) (hmem : older ∈ branch) :
    ∃ m, coinstate.previous_unspent_transaction_outs older = .ok m := by
  induction hbranch with
  | genesis _ happlied =>
      obtain ⟨_, m, _, hbefore, _⟩ := happlied
      exact ⟨m, List.mem_singleton.mp hmem ▸ hbefore⟩
  | extend _ _ happlied ih =>
      obtain ⟨_, m, _, hbefore, _⟩ := happlied
      cases List.mem_cons.mp hmem with
      | inl hnewest => exact ⟨m, hnewest ▸ hbefore⟩
      | inr holder => exact ih holder

theorem applied_added (hhash : block.hash crypto = .ok hash)
    (hfresh : hash ∉ coinstate.unspent_transaction_outs_by_hash)
    (hadd : coinstate.add_block_no_validation crypto block = .ok next) : Applied crypto next hash block := by
  obtain ⟨before, after, hbefore, happly, hblocks, hmap⟩ := CoinState.maps_of_add hhash hadd
  refine ⟨?_, before, after, previous_kept hhash hfresh hadd hbefore, happly, ?_⟩
  · rw [hblocks, Finmap.lookup_insert]
  · rw [hmap, Finmap.lookup_insert]

theorem chain_keys {Genesis : Block → Prop} {blocks : List Block} (hchain : Chain crypto Genesis blocks coinstate)
    {key : Hash} (hkey : key ∈ coinstate.block_by_hash ∨ key ∈ coinstate.unspent_transaction_outs_by_hash) :
    ∃ block ∈ blocks, block.hash crypto = .ok key := by
  induction hchain with
  | @genesis block coinstate _ _ hadd =>
      obtain ⟨hash, _, _, hhash, _⟩ := CoinState.lookup_added hadd
      obtain ⟨_, _, _, _, hblocks, hmap⟩ := CoinState.maps_of_add hhash hadd
      rw [hblocks, hmap, Finmap.mem_insert, Finmap.mem_insert] at hkey
      have hnew : key = hash := by
        rcases hkey with (hnew | hold) | hnew | hold
        · exact hnew
        · exact absurd hold Finmap.notMem_empty
        · exact hnew
        · exact absurd hold Finmap.notMem_empty
      exact ⟨block, List.mem_singleton_self _, hnew ▸ hhash⟩
  | @extend block parent blocks coinstate next _ _ _ _ _ hadd ih =>
      obtain ⟨hash, _, _, hhash, _⟩ := CoinState.lookup_added hadd
      obtain ⟨_, _, _, _, hblocks, hmap⟩ := CoinState.maps_of_add hhash hadd
      rw [hblocks, hmap, Finmap.mem_insert, Finmap.mem_insert] at hkey
      by_cases hnew : key = hash
      · exact ⟨block, List.mem_cons_self, hnew ▸ hhash⟩
      · obtain ⟨older, holder, hname⟩ := ih (hkey.imp (Or.resolve_left · hnew) (Or.resolve_left · hnew))
        exact ⟨older, List.mem_cons_of_mem _ holder, hname⟩

theorem chain_fresh {Genesis : Block → Prop} {blocks : List Block} (hchain : Chain crypto Genesis blocks coinstate)
    (hhash : block.hash crypto = .ok hash) (hdiffer : ∀ older ∈ blocks, block.hash crypto ≠ older.hash crypto) :
    hash ∉ coinstate.block_by_hash ∧ hash ∉ coinstate.unspent_transaction_outs_by_hash := by
  have hnew : ¬(hash ∈ coinstate.block_by_hash ∨ hash ∈ coinstate.unspent_transaction_outs_by_hash) := by
    intro hkey
    obtain ⟨older, holder, hname⟩ := chain_keys hchain hkey
    exact hdiffer older holder (hhash.trans hname.symm)
  exact not_or.mp hnew

-- What passes spends outputs that are unspent at its parent.
theorem spends_of_validate {current_timestamp : Nat}
    (hself : validate_block_by_itself crypto block current_timestamp = .ok ())
    (hvalid : validate_block_past_checkpoints crypto block coinstate = .ok ())
    (hne : block.previous_block_hash ≠ zero_hash) : SpendsUnspent coinstate block := by
  constructor
  · intro m hm
    rw [CoinState.previous_unspent_transaction_outs, if_neg hne, getItem_eq_ok] at hm
    exact spent_mem_of_validate hvalid hm
  · obtain ⟨_, _, hblock, _, _, honce⟩ := shaped_of_validate hself
    rw [spentReferences, hblock]
    exact honce

theorem SpendsUnspent.kept {older : Block} {m : UnspentTransactionOuts} (hspends : SpendsUnspent coinstate older)
    (hbefore : coinstate.previous_unspent_transaction_outs older = .ok m) (hhash : block.hash crypto = .ok hash)
    (hfresh : hash ∉ coinstate.unspent_transaction_outs_by_hash)
    (hadd : coinstate.add_block_no_validation crypto block = .ok next) : SpendsUnspent next older :=
  spends_of_previous (previous_kept hhash hfresh hadd hbefore) (hspends.unspent m hbefore) hspends.once

-- A chain of valid blocks, no two of one hash, is such a branch, and each of
-- its blocks spends what is unspent at its parent. The zero hash stands for no
-- block.
theorem chain_branch {blocks : List Block} (hchain : Chain crypto (PlainGenesis crypto) (block :: blocks) coinstate)
    (hdiffer : (block :: blocks).Pairwise fun a b => a.hash crypto ≠ b.hash crypto)
    (hnonzero : ∀ older ∈ blocks, older.hash crypto ≠ .ok zero_hash) :
    ∃ hash, block.hash crypto = .ok hash ∧ Branch crypto coinstate hash (block :: blocks) ∧
      ∀ older ∈ block :: blocks, SpendsUnspent coinstate older := by
  induction blocks generalizing block coinstate with
  | nil =>
      cases hchain with
      | genesis hzero hgenesis hadd =>
          obtain ⟨hash, _, _, hhash, _⟩ := CoinState.lookup_added hadd
          obtain ⟨coinbase, hblock⟩ := hgenesis.2.1
          have hspent : spentReferences block = [] := by rw [spentReferences, hblock]; rfl
          refine ⟨hash, hhash, .genesis hzero (applied_added hhash Finmap.notMem_empty hadd), ?_⟩
          intro older holder
          rw [List.mem_singleton.mp holder]
          refine ⟨fun m _ reference href => ?_, ?_⟩
          · rw [hspent] at href
            exact absurd href List.not_mem_nil
          · rw [hspent]
            exact List.nodup_nil
  | cons parent blocks ih =>
      cases hchain with
      | @extend _ _ _ earlier _ _ hchain hparent hself hvalid hadd =>
          obtain ⟨hfirst, hrest⟩ := List.pairwise_cons.mp hdiffer
          obtain ⟨parent_hash, hname, hbranch, hspends⟩ :=
            ih hchain hrest fun older holder => hnonzero older (List.mem_cons_of_mem _ holder)
          obtain rfl : parent_hash = block.previous_block_hash := Except.ok.inj (hname.symm.trans hparent)
          have hne : block.previous_block_hash ≠ zero_hash :=
            fun heq => hnonzero parent List.mem_cons_self (heq ▸ hparent)
          obtain ⟨hash, before, _, hhash, hbefore, _⟩ := CoinState.lookup_added hadd
          obtain ⟨hknown, hfresh⟩ := chain_fresh hchain hhash hfirst
          refine ⟨hash, hhash, .extend hne (hbranch.kept hhash hknown hfresh hadd)
            (applied_added hhash hfresh hadd), ?_⟩
          intro older holder
          cases List.mem_cons.mp holder with
          | inl hnewest =>
              rw [hnewest]
              exact (spends_of_validate hself hvalid hne).kept hbefore hhash hfresh hadd
          | inr hearlier =>
              obtain ⟨m, hm⟩ := hbranch.previous hearlier
              exact (hspends older hearlier).kept hm hhash hfresh hadd

end Valid

theorem reverse_chain_ok (hbranch : Branch crypto coinstate h branch) :
    ∃ block, coinstate.block_by_hash.lookup h = some block ∧ ∀ turns, branch.length ≤ turns →
      PublicKeyBalances.reverse_chain coinstate.block_by_hash turns block = .ok branch := by
  induction hbranch with
  | @genesis h block hzero happlied =>
      refine ⟨block, happlied.1, ?_⟩
      intro turns hturns
      obtain ⟨n, rfl⟩ : ∃ n, turns = n + 1 := ⟨turns - 1, by rw [List.length_singleton] at hturns; omega⟩
      rw [PublicKeyBalances.reverse_chain, if_pos hzero]
      rfl
  | @extend h block older hne _ happlied ih =>
      obtain ⟨previous, hprevious, hrun⟩ := ih
      refine ⟨block, happlied.1, ?_⟩
      intro turns hturns
      rw [List.length_cons] at hturns
      obtain ⟨n, rfl⟩ : ∃ n, turns = n + 1 := ⟨turns - 1, by omega⟩
      rw [PublicKeyBalances.reverse_chain, if_neg hne]
      simp only [bind_eq_ok, pure_eq_ok, getItem_eq_ok]
      exact ⟨previous, hprevious, older, hrun n (by omega), rfl⟩

-- The map that the same loop threads.
def unspentAfter (crypto : Crypto) (m : UnspentTransactionOuts) : List Block → Py UnspentTransactionOuts
  | [] => .ok m
  | block :: blocks => do
    let m ← uto_apply_block crypto m block
    unspentAfter crypto m blocks

-- One more block at the end of the loop, for each of the two maps.
theorem unspentAfter_snoc {start m m' : UnspentTransactionOuts} {blocks : List Block} {block : Block}
    (hm : unspentAfter crypto start blocks = .ok m) (huto : uto_apply_block crypto m block = .ok m') :
    unspentAfter crypto start (blocks ++ [block]) = .ok m' := by
  induction blocks generalizing start with
  | nil =>
      obtain rfl := Except.ok.inj hm
      exact bind_eq_ok.mpr ⟨m', huto, rfl⟩
  | cons next blocks ih =>
      obtain ⟨middle, hmiddle, hrest⟩ := bind_eq_ok.mp hm
      exact bind_eq_ok.mpr ⟨middle, hmiddle, ih hrest⟩

theorem apply_blocks_snoc {start m m' : UnspentTransactionOuts} {first balances balances' : Balances}
    {blocks : List Block} {block : Block} (hm : unspentAfter crypto start blocks = .ok m)
    (hbalances : PublicKeyBalances.apply_blocks crypto first start blocks = .ok balances)
    (hpkb : pkb_apply_block crypto m balances block = .ok balances')
    (huto : uto_apply_block crypto m block = .ok m') :
    PublicKeyBalances.apply_blocks crypto first start (blocks ++ [block]) = .ok balances' := by
  induction blocks generalizing start first with
  | nil =>
      rw [Except.ok.inj hm, Except.ok.inj hbalances]
      simp [PublicKeyBalances.apply_blocks, hpkb, huto]
  | cons next blocks ih =>
      simp only [unspentAfter, PublicKeyBalances.apply_blocks, bind_eq_ok] at hm hbalances
      obtain ⟨middle, hmiddle, hm⟩ := hm
      obtain ⟨second, hsecond, middle', hmiddle', hbalances⟩ := hbalances
      rw [hmiddle] at hmiddle'
      rw [← Except.ok.inj hmiddle'] at hbalances
      simp only [List.cons_append, PublicKeyBalances.apply_blocks, bind_eq_ok]
      exact ⟨second, hsecond, middle, hmiddle, ih hm hbalances⟩

-- What a block leaves was created on the chain.
theorem created_step {block : Block} {older : List Block} {m m' : UnspentTransactionOuts}
    (happly : uto_apply_block crypto m block = .ok m')
    (hcreated : ∀ reference ∈ m, Created crypto older reference) :
    ∀ reference ∈ m', Created crypto (block :: older) reference := by
  intro reference hmem
  cases uto_apply_block_mem happly hmem with
  | inl hnew =>
      obtain ⟨transaction, hin, hcreates⟩ := hnew
      exact ⟨transaction, List.mem_append_left _ hin, hcreates⟩
  | inr hold => exact (hcreated reference hold.1).append [block]

-- The two folds over a chain stay in step. The induction is on the chain.
theorem branch_matches (hbranch : Branch crypto coinstate h branch)
    (hspends : ∀ block ∈ branch, SpendsUnspent coinstate block)
    (hdistinct : (chainTransactions branch).Pairwise fun a b => a.hash crypto ≠ b.hash crypto) :
    ∃ m balances, coinstate.unspent_transaction_outs_by_hash.lookup h = some m ∧
      unspentAfter crypto ∅ branch.reverse = .ok m ∧
      PublicKeyBalances.apply_blocks crypto ∅ ∅ branch.reverse = .ok balances ∧
      Matches m balances ∧ ∀ reference ∈ m, Created crypto branch reference := by
  induction hbranch with
  | @genesis h block hzero happlied =>
      obtain ⟨_, m, m', hprevious, happly, hlookup⟩ := happlied
      have hspend := hspends block List.mem_cons_self
      have hm := hprevious
      rw [CoinState.previous_unspent_transaction_outs, if_pos hzero] at hm
      have hempty : ∅ = m := Except.ok.inj hm
      rw [← hempty] at happly hprevious
      have hnothing : ∀ reference ∈ (∅ : UnspentTransactionOuts), False := fun _ hmem => Finmap.notMem_empty hmem
      rw [chainTransactions, List.flatMap_singleton] at hdistinct
      obtain ⟨balances, hpkb, hmatches⟩ := pkb_apply_block_matches happly matches_empty
        (hspend.unspent _ hprevious) hspend.once (fun _ _ reference hmem => (hnothing reference hmem).elim) hdistinct
      have hstart : unspentAfter crypto ∅ [] = .ok ∅ := rfl
      have hstart' : PublicKeyBalances.apply_blocks crypto ∅ ∅ [] = .ok ∅ := rfl
      exact ⟨m', balances, hlookup, unspentAfter_snoc hstart happly, apply_blocks_snoc hstart hstart' hpkb happly,
        hmatches, created_step happly fun reference hmem => (hnothing reference hmem).elim⟩
  | @extend h block older hne _ happlied ih =>
      obtain ⟨_, m, m', hprevious, happly, hlookup⟩ := happlied
      have hspend := hspends block List.mem_cons_self
      rw [chainTransactions, List.flatMap_cons, List.pairwise_append] at hdistinct
      obtain ⟨hown, hrest, hacross⟩ := hdistinct
      obtain ⟨m₁, balances₁, hlookup₁, hafter₁, hbalances₁, hmatches₁, hcreated₁⟩ :=
        ih (fun b hb => hspends b (List.mem_cons_of_mem _ hb)) hrest
      have hsame : m₁ = m := by
        rw [CoinState.previous_unspent_transaction_outs, if_neg hne, getItem_eq_ok] at hprevious
        exact Option.some.inj (hlookup₁.symm.trans hprevious)
      rw [hsame] at hafter₁ hmatches₁ hcreated₁
      have hfresh : ∀ t ∈ block.transactions, ∀ reference ∈ m, t.hash crypto ≠ .ok reference.hash := by
        intro t ht reference hmem heq
        obtain ⟨creator, hcreator, hcreates⟩ := hcreated₁ reference hmem
        exact hacross t ht creator hcreator (heq.trans hcreates.1.symm)
      obtain ⟨balances, hpkb, hmatches⟩ := pkb_apply_block_matches happly hmatches₁
        (hspend.unspent m hprevious) hspend.once hfresh hown
      rw [List.reverse_cons]
      exact ⟨m', balances, hlookup, unspentAfter_snoc hafter₁ happly, apply_blocks_snoc hafter₁ hbalances₁ hpkb happly,
        hmatches, created_step happly hcreated₁⟩

theorem chain_at_hash_ok (hbranch : Branch crypto coinstate h branch) {turns : Nat} (hturns : branch.length ≤ turns) :
    PublicKeyBalances.chain_at_hash coinstate.block_by_hash turns h = .ok branch.reverse := by
  obtain ⟨block, hblock, hrun⟩ := reverse_chain_ok hbranch
  simp only [PublicKeyBalances.chain_at_hash, bind_eq_ok, pure_eq_ok, getItem_eq_ok]
  exact ⟨block, hblock, branch, hrun turns hturns, rfl⟩

-- What is computed for the end of a branch matches what is unspent there.
theorem public_key_balances_at_branch (hbranch : Branch crypto coinstate h branch)
    (hspends : ∀ block ∈ branch, SpendsUnspent coinstate block)
    (hdistinct : (chainTransactions branch).Pairwise fun a b => a.hash crypto ≠ b.hash crypto) :
    ∃ m balances, coinstate.unspent_transaction_outs_by_hash.lookup h = some m ∧
      (∀ turns, branch.length ≤ turns →
        PublicKeyBalances.public_key_balances_by_hash crypto coinstate.block_by_hash turns (some h) = .ok balances) ∧
      Matches m balances := by
  obtain ⟨m, balances, hlookup, _, hbalances, hmatches, _⟩ := branch_matches hbranch hspends hdistinct
  refine ⟨m, balances, hlookup, ?_, hmatches⟩
  intro turns hturns
  exact bind_eq_ok.mpr ⟨branch.reverse, chain_at_hash_ok hbranch hturns, hbalances⟩

-- Only the number of turns of the loop is open, not what it collects.
theorem reverse_chain_unique {block_by_hash : Map Hash Block} {turns turns' : Nat} {block : Block}
    {blocks blocks' : List Block} (h : PublicKeyBalances.reverse_chain block_by_hash turns block = .ok blocks)
    (h' : PublicKeyBalances.reverse_chain block_by_hash turns' block = .ok blocks') : blocks = blocks' := by
  induction turns generalizing turns' block blocks blocks' with
  | zero => cases h
  | succ turns ih =>
      cases turns' with
      | zero => cases h'
      | succ turns' =>
          rw [PublicKeyBalances.reverse_chain] at h h'
          by_cases hzero : block.previous_block_hash = zero_hash
          · rw [if_pos hzero] at h h'
            exact Except.ok.inj (h.symm.trans h')
          · rw [if_neg hzero] at h h'
            simp only [bind_eq_ok, pure_eq_ok] at h h'
            obtain ⟨previous, hprevious, older, hrun, hblocks⟩ := h
            obtain ⟨previous', hprevious', older', hrun', hblocks'⟩ := h'
            rw [Except.ok.inj (hprevious.symm.trans hprevious')] at hrun
            rw [← hblocks, ← hblocks', ih hrun hrun']

theorem public_key_balances_unique {block_by_hash : Map Hash Block} {turns turns' : Nat} {balances balances' : Balances}
    (hrun : PublicKeyBalances.public_key_balances_by_hash crypto block_by_hash turns (some h) = .ok balances)
    (hrun' : PublicKeyBalances.public_key_balances_by_hash crypto block_by_hash turns' (some h) = .ok balances') :
    balances = balances' := by
  simp only [PublicKeyBalances.public_key_balances_by_hash, PublicKeyBalances.chain_at_hash, bind_eq_ok,
    pure_eq_ok] at hrun hrun'
  obtain ⟨_, ⟨block, hblock, blocks, hblocks, rfl⟩, hrun⟩ := hrun
  obtain ⟨_, ⟨block', hblock', blocks', hblocks', rfl⟩, hrun'⟩ := hrun'
  rw [← Except.ok.inj (hblock.symm.trans hblock')] at hblocks'
  rw [← reverse_chain_unique hblocks hblocks'] at hrun'
  exact Except.ok.inj (hrun.symm.trans hrun')

-- What the cache holds has been computed.
def Computed (crypto : Crypto) (block_by_hash : Map Hash Block) (cache : Map Hash Balances) : Prop :=
  ∀ key balances, cache.lookup key = some balances →
    ∃ turns, PublicKeyBalances.public_key_balances_by_hash crypto block_by_hash turns (some key) = .ok balances

theorem computed_empty (block_by_hash : Map Hash Block) : Computed crypto block_by_hash ∅ := by
  intro key balances hlookup
  cases hlookup

theorem getitem_of_run {block_by_hash : Map Hash Block} {turns : Nat} {cache : Map Hash Balances} {balances : Balances}
    (hcache : Computed crypto block_by_hash cache)
    (hrun : PublicKeyBalances.public_key_balances_by_hash crypto block_by_hash turns (some h) = .ok balances) :
    ∃ cache', PublicKeyBalances.getitem crypto block_by_hash turns cache h = .ok (balances, cache') ∧
      Computed crypto block_by_hash cache' := by
  unfold PublicKeyBalances.getitem
  cases hlookup : cache.lookup h with
  | some cached =>
      obtain ⟨turns', hrun'⟩ := hcache h cached hlookup
      rw [public_key_balances_unique hrun' hrun]
      exact ⟨cache, rfl, hcache⟩
  | none =>
      refine ⟨cache.insert h balances, bind_eq_ok.mpr ⟨balances, hrun, rfl⟩, ?_⟩
      intro key balances' hkey
      cases lookup_insert_eq_some.mp hkey with
      | inl hnew =>
          obtain ⟨rfl, rfl⟩ := hnew
          exact ⟨turns, hrun⟩
      | inr hold => exact hcache key balances' hold.2

-- The balances at a hash are looked up without error, and are those of the
-- outputs that are unspent there.
theorem balances_match_unspent {cache : Map Hash Balances} (hbranch : Branch crypto coinstate h branch)
    (hspends : ∀ block ∈ branch, SpendsUnspent coinstate block)
    (hdistinct : (chainTransactions branch).Pairwise fun a b => a.hash crypto ≠ b.hash crypto)
    (hcache : Computed crypto coinstate.block_by_hash cache) :
    ∃ m balances, coinstate.unspent_transaction_outs_by_hash.lookup h = some m ∧
      (∀ turns, branch.length ≤ turns → ∃ cache',
        PublicKeyBalances.getitem crypto coinstate.block_by_hash turns cache h = .ok (balances, cache') ∧
          Computed crypto coinstate.block_by_hash cache') ∧
      ∀ public_key, BalanceMatches m public_key (balanceOf balances public_key) := by
  obtain ⟨m, balances, hlookup, hrun, hmatches⟩ := public_key_balances_at_branch hbranch hspends hdistinct
  exact ⟨m, balances, hlookup, fun turns hturns => getitem_of_run hcache (hrun turns hturns), hmatches⟩

def sample_hash (block : Block) : Hash := (block.hash .residue).toOption.getD zero_hash

theorem sample_branch :
    Branch .residue sample_coinstate_second (sample_hash sample_second)
        [sample_second, sample_first, sample_genesis] ∧
      (∀ block ∈ [sample_second, sample_first, sample_genesis], SpendsUnspent sample_coinstate_second block) ∧
      (chainTransactions [sample_second, sample_first, sample_genesis]).Pairwise
        fun a b => a.hash .residue ≠ b.hash .residue := by
  have hdiffer : [sample_second, sample_first, sample_genesis].Pairwise
      fun a b => a.hash .residue ≠ b.hash .residue := by
    decide +kernel
  have hnonzero : ∀ block ∈ [sample_first, sample_genesis], block.hash .residue ≠ .ok zero_hash := by
    decide +kernel
  have hdistinct : (chainTransactions [sample_second, sample_first, sample_genesis]).Pairwise
      fun a b => a.hash .residue ≠ b.hash .residue := by
    decide +kernel
  obtain ⟨hash, hhash, hbranch, hspends⟩ := chain_branch (sample_chain sample_plain) hdiffer hnonzero
  have hname : sample_hash sample_second = hash := by
    rw [sample_hash, hhash]
    rfl
  exact ⟨hname ▸ hbranch, hspends, hdistinct⟩

-- The head of the sample chain spends an output, and pays the same key twice.
theorem balances_match_unspent_sample :
    ∃ m balances, sample_coinstate_second.unspent_transaction_outs_by_hash.lookup (sample_hash sample_second) =
        some m ∧
      (∀ turns, [sample_second, sample_first, sample_genesis].length ≤ turns → ∃ cache',
        PublicKeyBalances.getitem .residue sample_coinstate_second.block_by_hash turns ∅
            (sample_hash sample_second) = .ok (balances, cache') ∧
          Computed .residue sample_coinstate_second.block_by_hash cache') ∧
      ∀ public_key, BalanceMatches m public_key (balanceOf balances public_key) := by
  obtain ⟨hbranch, hspends, hdistinct⟩ := sample_branch
  exact balances_match_unspent hbranch hspends hdistinct (computed_empty _)

end Chains

end Skepticoin
