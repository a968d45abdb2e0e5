import Skepticoin.Balances.PublicKeys
import Skepticoin.CoinState.ActiveChain
import Skepticoin.Explorer
import Skepticoin.Lib.Simulation

namespace Skepticoin

open Guard FMap

variable {crypto : Crypto}

-- What the node keeps of a balance of the explorer.
def PKBalance2.balance (balance : PKBalance2) : PKBalance := ⟨balance.value, balance.unspent_output_references⟩

-- The explorer's balances of the same keys, with the same outputs unspent, and
-- these among all outputs of the key.
structure Mirrors (balances2 : Balances2) (balances : Balances) : Prop where
  same : ∀ public_key, balances.lookup public_key = (balances2.lookup public_key).map PKBalance2.balance
  among : ∀ public_key balance, balances2.lookup public_key = some balance →
    balance.unspent_output_references.Sublist balance.all_output_references

section Steps

variable {balances2 : Balances2} {balances : Balances}

theorem mirrors_empty : Mirrors ∅ ∅ where
  same := fun _ => rfl
  among := fun _ _ hlookup => nomatch hlookup

theorem Mirrors.insert (h : Mirrors balances2 balances) (public_key : SECP256k1PublicKey) {balance : PKBalance2}
    (hsub : balance.unspent_output_references.Sublist balance.all_output_references) :
    Mirrors (balances2.insert public_key balance) (balances.insert public_key balance.balance) := by
  constructor
  · intro key
    rw [lookup_insert_eq_ite, lookup_insert_eq_ite]
    by_cases hkey : key = public_key
    · rw [if_pos hkey, if_pos hkey]
      rfl
    · rw [if_neg hkey, if_neg hkey]
      exact h.same key
  · intro key other hlookup
    cases lookup_insert_eq_some.mp hlookup with
    | inl hnew => exact hnew.2 ▸ hsub
    | inr hold => exact h.among key other hold.2

theorem Mirrors.getItem (h : Mirrors balances2 balances) (public_key : SECP256k1PublicKey) :
    Follows (fun balance balance2 => PKBalance2.balance balance2 = balance ∧
        balance2.unspent_output_references.Sublist balance2.all_output_references)
      (getItem balances public_key) (getItem balances2 public_key) := by
  intro balance hbalance
  rw [getItem_eq_ok, h.same, Option.map_eq_some_iff] at hbalance
  obtain ⟨balance2, hlookup, hsame⟩ := hbalance
  exact ⟨balance2, getItem_eq_ok.mpr hlookup, hsame, h.among public_key balance2 hlookup⟩

theorem Mirrors.balanceOf (h : Mirrors balances2 balances) (public_key : SECP256k1PublicKey) :
    balanceOf balances public_key = (balance2Of balances2 public_key).balance ∧
      (balance2Of balances2 public_key).unspent_output_references.Sublist
        (balance2Of balances2 public_key).all_output_references := by
  unfold Skepticoin.balanceOf balance2Of
  rw [h.same]
  cases hlookup : balances2.lookup public_key with
  | none => exact ⟨rfl, List.Sublist.refl _⟩
  | some balance => exact ⟨rfl, h.among public_key balance hlookup⟩

variable (m : UnspentTransactionOuts)

theorem pkb2_remove_inputs_follows (transaction : Transaction) (inputs : List Input)
    (h : Mirrors balances2 balances) :
    Follows (fun balances balances2 => Mirrors balances2 balances) (pkb_remove_inputs m balances inputs)
      (pkb2_remove_inputs m transaction balances2 inputs) := by
  induction inputs generalizing balances2 balances with
  | nil => exact .ok h
  | cons input inputs ih =>
      refine .common fun output _ => (h.getItem output.public_key).bind ?_
      rintro balance balance2 ⟨rfl, hsub⟩
      exact ih (h.insert output.public_key (List.filter_sublist.trans hsub))

theorem pkb2_add_outputs_follows (transaction : Transaction) (i : Nat) (outputs : List Output)
    (h : Mirrors balances2 balances) :
    Follows (fun balances balances2 => Mirrors balances2 balances)
      (pkb_add_outputs crypto transaction balances i outputs)
      (pkb2_add_outputs crypto transaction balances2 i outputs) := by
  induction outputs generalizing balances2 balances i with
  | nil => exact .ok h
  | cons output outputs ih =>
      refine .common fun hash _ => .common fun reference _ => ?_
      obtain ⟨hsame, hsub⟩ := h.balanceOf output.public_key
      rw [hsame]
      exact ih (i + 1) (h.insert output.public_key (hsub.append (List.Sublist.refl [reference])))

theorem pkb2_apply_transaction_follows (transaction : Transaction) (is_coinbase : Bool)
    (h : Mirrors balances2 balances) :
    Follows (fun balances balances2 => Mirrors balances2 balances)
      (pkb_apply_transaction crypto m balances transaction is_coinbase)
      (pkb2_apply_transaction crypto m balances2 transaction is_coinbase) := by
  cases is_coinbase with
  | true => exact pkb2_add_outputs_follows transaction 0 transaction.outputs h
  | false =>
      exact (pkb2_remove_inputs_follows m transaction transaction.inputs h).bind fun _ _ hmiddle =>
        pkb2_add_outputs_follows transaction 0 transaction.outputs hmiddle

theorem pkb2_apply_transactions_follows (transactions : List Transaction) (h : Mirrors balances2 balances) :
    Follows (fun balances balances2 => Mirrors balances2 balances)
      (pkb_apply_transactions crypto m balances transactions)
      (pkb2_apply_transactions crypto m balances2 transactions) := by
  induction transactions generalizing balances2 balances with
  | nil => exact .ok h
  | cons transaction transactions ih =>
      exact (pkb2_apply_transaction_follows m transaction false h).bind fun _ _ hmiddle => ih hmiddle

theorem pkb2_apply_block_follows (block : Block) (h : Mirrors balances2 balances) :
    Follows (fun balances balances2 => Mirrors balances2 balances) (pkb_apply_block crypto m balances block)
      (pkb2_apply_block crypto m balances2 block) := by
  unfold pkb_apply_block pkb2_apply_block
  cases block.transactions with
  | nil => exact .error _ _
  | cons coinbase transactions =>
      exact (pkb2_apply_transaction_follows m coinbase true h).bind fun _ _ hmiddle =>
        pkb2_apply_transactions_follows m transactions hmiddle

end Steps

section Chains

variable {coinstate : CoinState} {h : Hash} {branch : List Block} {block top : Block} {index : Map Nat Block}

-- The maps that the coinstate has stored are the ones that a loop over the
-- blocks would thread.
def Stored (crypto : Crypto) (coinstate : CoinState) (m : UnspentTransactionOuts) : List Block → Prop
  | [] => True
  | block :: blocks => get_unspent_transaction_outs_before_block coinstate block = .ok m ∧
      ∀ next, uto_apply_block crypto m block = .ok next → Stored crypto coinstate next blocks

theorem stored_snoc {m next : UnspentTransactionOuts} {blocks : List Block} (h : Stored crypto coinstate m blocks)
    (hafter : unspentAfter crypto m blocks = .ok next)
    (hblock : get_unspent_transaction_outs_before_block coinstate block = .ok next) :
    Stored crypto coinstate m (blocks ++ [block]) := by
  induction blocks generalizing m with
  | nil =>
      obtain rfl := Except.ok.inj hafter
      exact ⟨hblock, fun _ _ => trivial⟩
  | cons first blocks ih =>
      obtain ⟨middle, hmiddle, hrest⟩ := bind_eq_ok.mp hafter
      refine ⟨h.1, fun other hother => ?_⟩
      obtain rfl := Except.ok.inj (hmiddle.symm.trans hother)
      exact ih (h.2 middle hmiddle) hrest

theorem branch_stored (hbranch : Branch crypto coinstate h branch) :
    ∃ m, coinstate.unspent_transaction_outs_by_hash.lookup h = some m ∧
      unspentAfter crypto ∅ branch.reverse = .ok m ∧ Stored crypto coinstate ∅ branch.reverse := by
  induction hbranch with
  | @genesis h block hzero happlied =>
      obtain ⟨_, m, m', hprevious, happly, hlookup⟩ := happlied
      have hnothing : get_unspent_transaction_outs_before_block coinstate block = .ok ∅ := if_pos hzero
      obtain rfl : ∅ = m := Except.ok.inj (hnothing.symm.trans hprevious)
      exact ⟨m', hlookup, bind_eq_ok.mpr ⟨m', happly, rfl⟩, hnothing, fun _ _ => trivial⟩
  | @extend h block older hne _ happlied ih =>
      obtain ⟨_, m, m', hprevious, happly, hlookup⟩ := happlied
      obtain ⟨m₁, hlookup₁, hafter₁, hstored₁⟩ := ih
      have hbefore : get_unspent_transaction_outs_before_block coinstate block = .ok m₁ := by
        rw [get_unspent_transaction_outs_before_block, if_neg hne]
        exact getItem_eq_ok.mpr hlookup₁
      obtain rfl : m₁ = m := Except.ok.inj (hbefore.symm.trans hprevious)
      rw [List.reverse_cons]
      exact ⟨m', hlookup, unspentAfter_snoc hafter₁ happly, stored_snoc hstored₁ hafter₁ hbefore⟩

theorem branch_root (hbranch : Branch crypto coinstate h branch) :
    ∃ root, branch.reverse[0]? = some root ∧ root.previous_block_hash = zero_hash := by
  induction hbranch with
  | @genesis h block hzero _ => exact ⟨block, rfl, hzero⟩
  | @extend h block older _ _ _ ih =>
      obtain ⟨root, hroot, hzero⟩ := ih
      refine ⟨root, ?_, hzero⟩
      rw [List.reverse_cons, List.getElem?_append_left (List.getElem?_eq_some_iff.mp hroot).1, hroot]

-- The index of a block holds its branch, the oldest block at height 0. The
-- induction is on the branch; the index is that of the block it started from.
theorem branch_at_heights (hconsistent : Consistent crypto coinstate) (hchain : ChainOf crypto coinstate top index)
    (hbranch : Branch crypto coinstate h branch) (hblock : coinstate.block_by_hash.lookup h = some block)
    (hon : index.lookup block.height = some block) :
    branch.length = block.height + 1 ∧ ∀ i ≤ block.height, index.lookup i = branch.reverse[i]? := by
  have hbelow : ∀ {b : Block} {k : Nat}, index.lookup (k + 1) = some b → ∃ q, index.lookup k = some q ∧
      coinstate.block_by_hash.lookup b.previous_block_hash = some q := by
    intro b k hb
    have hle := (hchain.heights (k + 1)).mp (Finmap.mem_of_lookup_eq_some hb)
    obtain ⟨q, hq⟩ := Finmap.mem_iff.mp ((hchain.heights k).mpr (by omega))
    obtain ⟨_, name, hname, hknown⟩ := hchain.known k q hq
    have hlinked := hchain.linked k q b hq hb
    rw [Except.ok.inj (hname.symm.trans hlinked)] at hknown
    exact ⟨q, hq, hknown⟩
  induction hbranch generalizing block with
  | @genesis h first hzero happlied =>
      obtain rfl := Option.some.inj (happlied.1.symm.trans hblock)
      cases hheight : first.height with
      | zero =>
          rw [hheight] at hon
          refine ⟨rfl, fun i hi => ?_⟩
          rw [Nat.le_zero.mp hi, hon]
          rfl
      | succ k =>
          rw [hheight] at hon
          obtain ⟨q, _, hq⟩ := hbelow hon
          rw [hzero] at hq
          exact absurd (Finmap.mem_of_lookup_eq_some hq) hconsistent.indexed.1
  | @extend h first older hne holder happlied ih =>
      obtain rfl := Option.some.inj (happlied.1.symm.trans hblock)
      obtain ⟨previous, hprevious⟩ : ∃ previous,
          coinstate.block_by_hash.lookup first.previous_block_hash = some previous := by
        cases holder with
        | genesis _ happlied' => exact ⟨_, happlied'.1⟩
        | extend _ _ happlied' => exact ⟨_, happlied'.1⟩
      obtain ⟨hlength, hheights⟩ := ih hprevious (hchain.closed first.height first previous hon hprevious)
      cases hheight : first.height with
      | zero =>
          -- the block at height 0 would be the oldest one
          obtain ⟨root, hroot, hzero⟩ := branch_root holder
          rw [hheight, hheights 0 (Nat.zero_le _), hroot] at hon
          exact absurd (Option.some.inj hon ▸ hzero) hne
      | succ k =>
          rw [hheight] at hon
          obtain ⟨q, hq, hknown⟩ := hbelow hon
          obtain rfl := Option.some.inj (hprevious.symm.trans hknown)
          have hk : previous.height = k := (hchain.known k previous hq).1
          rw [hk] at hlength hheights
          refine ⟨by rw [List.length_cons, hlength], fun i hi => ?_⟩
          rw [List.reverse_cons]
          by_cases hlast : i = k + 1
          · rw [hlast, hon, List.getElem?_append_right (by rw [List.length_reverse, hlength]), List.length_reverse,
              hlength, Nat.sub_self]
            rfl
          · rw [List.getElem?_append_left (by rw [List.length_reverse, hlength]; omega)]
            exact hheights i (by omega)

-- The two loops over a chain, by heights and by blocks, stay in step.
theorem build_pkb2_from_follows {heights : List Nat} {blocks : List Block} {m : UnspentTransactionOuts}
    {balances2 : Balances2} {balances : Balances} (hindex : coinstate.by_height_at_head = .ok index)
    (hblocks : List.Forall₂ (fun height block => index.lookup height = some block) heights blocks)
    (hstored : Stored crypto coinstate m blocks) (hmirrors : Mirrors balances2 balances) :
    Follows (fun balances balances2 => Mirrors balances2 balances)
      (PublicKeyBalances.apply_blocks crypto balances m blocks)
      (build_pkb2_from crypto coinstate balances2 heights) := by
  induction hblocks generalizing m balances2 balances with
  | nil => exact .ok hmirrors
  | @cons height block heights blocks hblock _ ih =>
      intro balances' hrun
      obtain ⟨middle, hmiddle, next, hnext, hrest⟩ : ∃ middle, pkb_apply_block crypto m balances block = .ok middle ∧
          ∃ next, uto_apply_block crypto m block = .ok next ∧
            PublicKeyBalances.apply_blocks crypto middle next blocks = .ok balances' := by
        simpa only [PublicKeyBalances.apply_blocks, bind_eq_ok] using hrun
      obtain ⟨middle2, hmiddle2, hmirrors'⟩ := pkb2_apply_block_follows m block hmirrors middle hmiddle
      obtain ⟨balances2', hrest2, hlast⟩ := ih (hstored.2 next hnext) hmirrors' balances' hrest
      refine ⟨balances2', ?_, hlast⟩
      have hbuilt : build_pkb2_block crypto coinstate block balances2 = .ok middle2 :=
        bind_eq_ok.mpr ⟨m, hstored.1, hmiddle2⟩
      simp only [build_pkb2_from, bind_eq_ok]
      exact ⟨index, hindex, block, getItem_eq_ok.mpr hblock, middle2, hbuilt, hrest2⟩

theorem build_pkb2_mirrors (hconsistent : Consistent crypto coinstate)
    (hcurrent : coinstate.current_chain_hash = some h) (hbranch : Branch crypto coinstate h branch)
    {balances : Balances} (hbalances : PublicKeyBalances.apply_blocks crypto ∅ ∅ branch.reverse = .ok balances) :
    ∃ balances2, build_pkb2 crypto coinstate = .ok balances2 ∧ Mirrors balances2 balances := by
  obtain ⟨head, hhead, _⟩ := reverse_chain_ok hbranch
  obtain ⟨index, hindex, hchain⟩ := hconsistent.chain hhead
  obtain ⟨hlength, hheights⟩ := branch_at_heights hconsistent hchain hbranch hhead hchain.top
  obtain ⟨m, _, _, hstored⟩ := branch_stored hbranch
  have hat_head : coinstate.by_height_at_head = .ok index := by
    rw [CoinState.by_height_at_head, hcurrent]
    exact getItem_eq_ok.mpr hindex
  have hblocks : List.Forall₂ (fun height block => index.lookup height = some block) (List.range (head.height + 1))
      branch.reverse := by
    rw [List.forall₂_iff_get]
    refine ⟨by rw [List.length_range, List.length_reverse, hlength], fun i hi hi' => ?_⟩
    rw [List.length_range] at hi
    rw [List.get_eq_getElem, List.get_eq_getElem, List.getElem_range, hheights i (by omega)]
    exact List.getElem?_eq_getElem hi'
  obtain ⟨balances2, hrun, hmirrors⟩ :=
    build_pkb2_from_follows hat_head hblocks hstored mirrors_empty balances hbalances
  refine ⟨balances2, bind_eq_ok.mpr ⟨head, ?_, hrun⟩, hmirrors⟩
  rw [CoinState.head, hcurrent]
  exact getItem_eq_ok.mpr hhead

-- The explorer's balances have the node's keys, and for each of them the node's
-- value and unspent outputs, in the same order.
theorem explorer_balances_agree (hconsistent : Consistent crypto coinstate)
    (hcurrent : coinstate.current_chain_hash = some h) (hbranch : Branch crypto coinstate h branch)
    (hspends : ∀ block ∈ branch, SpendsUnspent coinstate block)
    (hdistinct : (chainTransactions branch).Pairwise fun a b => a.hash crypto ≠ b.hash crypto) :
    ∃ balances balances2,
      (∀ turns, branch.length ≤ turns → coinstate.public_key_balances_at_head crypto turns = .ok balances) ∧
      build_pkb2 crypto coinstate = .ok balances2 ∧
      (∀ public_key, public_key ∈ balances2 ↔ public_key ∈ balances) ∧
      ∀ public_key balance2, balances2.lookup public_key = some balance2 →
        ∃ balance, balances.lookup public_key = some balance ∧ balance2.value = balance.value ∧
          balance2.unspent_output_references = balance.output_references ∧
          balance2.unspent_output_references.Sublist balance2.all_output_references := by
  obtain ⟨_, balances, _, _, hbalances, _, _⟩ := branch_matches hbranch hspends hdistinct
  obtain ⟨balances2, hbuilt, hmirrors⟩ := build_pkb2_mirrors hconsistent hcurrent hbranch hbalances
  refine ⟨balances, balances2, ?_, hbuilt, ?_, ?_⟩
  · intro turns hturns
    simp only [CoinState.public_key_balances_at_head, CoinState.public_key_balances, hcurrent,
      PublicKeyBalances.public_key_balances_by_hash, bind_eq_ok]
    exact ⟨branch.reverse, chain_at_hash_ok hbranch hturns, hbalances⟩
  · intro public_key
    rw [← Finmap.lookup_isSome, ← Finmap.lookup_isSome, hmirrors.same, Option.isSome_map]
  · intro public_key balance2 hlookup
    refine ⟨balance2.balance, ?_, rfl, rfl, hmirrors.among public_key balance2 hlookup⟩
    rw [hmirrors.same, hlookup]
    rfl

theorem sample_parents :
    sample_genesis.parent = none ∧ sample_genesis.hash .residue = .ok (sample_hash sample_genesis) ∧
    sample_first.hash .residue = .ok (sample_hash sample_first) ∧
    sample_hash sample_first ∉ [(sample_hash sample_genesis, sample_genesis)].map Prod.fst ∧
    sample_first.parent = some (sample_hash sample_genesis) ∧ sample_first.height = sample_genesis.height + 1 ∧
    sample_second.hash .residue = .ok (sample_hash sample_second) ∧
    sample_hash sample_second ∉
      [(sample_hash sample_first, sample_first), (sample_hash sample_genesis, sample_genesis)].map Prod.fst ∧
    sample_second.parent = some (sample_hash sample_first) ∧ sample_second.height = sample_first.height + 1 ∧
    sample_genesis.height = 0 ∧
    zero_hash ∉ [(sample_hash sample_second, sample_second), (sample_hash sample_first, sample_first),
      (sample_hash sample_genesis, sample_genesis)].map Prod.fst := by
  decide +kernel

theorem sample_consistent : Consistent .residue sample_coinstate_second := by
  obtain ⟨_, hadd, _, _, _, hadd', _, _, _, hadd''⟩ := sample_runs
  obtain ⟨hroot, hhash, hhash', hfresh', hparent', hheight', hhash'', hfresh'', hparent'', hheight'', hzero,
    hnonzero⟩ := sample_parents
  have hgenesis : CoinState.Grown .residue [(sample_hash sample_genesis, sample_genesis)] sample_coinstate :=
    .root hroot hhash hadd
  have hfirst : CoinState.Grown .residue [(sample_hash sample_first, sample_first),
      (sample_hash sample_genesis, sample_genesis)] sample_coinstate_first :=
    .add hgenesis hhash' hfresh' hparent' List.mem_cons_self hheight' hadd'
  have hsecond : CoinState.Grown .residue [(sample_hash sample_second, sample_second),
      (sample_hash sample_first, sample_first), (sample_hash sample_genesis, sample_genesis)] sample_coinstate_second :=
    .add hfirst hhash'' hfresh'' hparent'' List.mem_cons_self hheight'' hadd''
  refine hsecond.consistent (fun h block hmem hnone => ?_) hnonzero
  simp only [List.mem_cons, Prod.mk.injEq, List.not_mem_nil, or_false] at hmem
  rcases hmem with ⟨_, hblock⟩ | ⟨_, hblock⟩ | ⟨_, hblock⟩
  · rw [hblock, hparent''] at hnone
    cases hnone
  · rw [hblock, hparent'] at hnone
    cases hnone
  · rw [hblock, hzero]

theorem explorer_balances_agree_sample :
    ∃ balances balances2,
      (∀ turns, [sample_second, sample_first, sample_genesis].length ≤ turns →
        sample_coinstate_second.public_key_balances_at_head .residue turns = .ok balances) ∧
      build_pkb2 .residue sample_coinstate_second = .ok balances2 ∧
      (∀ public_key, public_key ∈ balances2 ↔ public_key ∈ balances) ∧
      ∀ public_key balance2, balances2.lookup public_key = some balance2 →
        ∃ balance, balances.lookup public_key = some balance ∧ balance2.value = balance.value ∧
          balance2.unspent_output_references = balance.output_references ∧
          balance2.unspent_output_references.Sublist balance2.all_output_references := by
  obtain ⟨hbranch, hspends, hdistinct⟩ := sample_branch
  exact explorer_balances_agree sample_consistent (by decide +kernel) hbranch hspends hdistinct

end Chains

end Skepticoin
