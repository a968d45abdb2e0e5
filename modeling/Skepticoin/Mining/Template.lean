import Skepticoin.Consensus.Construction
import Skepticoin.Datatypes.Size
import Skepticoin.Mining
import Skepticoin.Networking.Pool.Admission

namespace Skepticoin

open Guard FMap Effect

variable {crypto : Crypto}

-- What the construction of a block for mining starts from.
section Input

variable {coinstate : CoinState} {transactions : List Transaction} {key : SECP256k1PublicKey}
  {timestamp nonce height : Nat} {random_data : Bytes} {head : Block} {m : UnspentTransactionOuts} {h : Hash}

theorem construct_block_pow_evidence_input_eq_ok {summary : BlockSummary} {all : List Transaction}
    (hinput : construct_block_pow_evidence_input crypto coinstate transactions key timestamp random_data nonce =
      .ok (summary, height, all)) :
    ∃ current head m coinbase,
      coinstate.current_chain_hash = some current ∧
      coinstate.block_by_hash.lookup current = some head ∧
      construct_coinbase_transaction (head.height + 1) transactions m random_data key = .ok coinbase ∧
      all = coinbase :: transactions ∧ height = head.height + 1 ∧ summary.height = head.height + 1 ∧
      summary.previous_block_hash = current ∧ summary.timestamp = timestamp ∧ summary.nonce = nonce := by
  simp only [construct_block_pow_evidence_input, construct_minable_summary, CoinState.head, bind_eq_ok] at hinput
  cases hcurrent : coinstate.current_chain_hash with
  | none => simp [hcurrent] at hinput
  | some current =>
      simp only [hcurrent, getItem_eq_ok, bind_eq_ok, pure_eq_ok, Prod.mk.injEq] at hinput
      obtain ⟨head, hhead, m, _, coinbase, hcoinbase, _, ⟨head', hhead', _, _, _, _, rfl⟩, rfl, rfl, rfl⟩ := hinput
      obtain rfl := Option.some.inj (hhead.symm.trans hhead')
      exact ⟨current, head, m, coinbase, rfl, hhead, hcoinbase, rfl, rfl, rfl, rfl, rfl, rfl⟩

-- Where the pooled transactions pay a fee, and can be serialized, there is a
-- template.
theorem construct_block_pow_evidence_input_ok {fees : Int} (hcurrent : coinstate.current_chain_hash = some h)
    (hhead : coinstate.block_by_hash.lookup h = some head)
    (hm : coinstate.unspent_transaction_outs_by_hash.lookup h = some m)
    (hfees : get_block_fees transactions m = .ok fees) (hpositive : 0 ≤ fees)
    (hfit : get_block_subsidy (head.height + 1) + fees < 2 ^ 64) (hheight : head.height + 1 ≤ 0xffffffff)
    (hpool : ∀ t ∈ transactions, ∃ bytes, t.serialize = .ok bytes)
    (htarget : ∃ target, calc_target crypto coinstate (head.height + 1) timestamp head = .ok target) :
    ∃ summary height all, construct_block_pow_evidence_input crypto coinstate transactions key timestamp [] nonce =
        .ok (summary, height, all) ∧ ∀ t ∈ all, ∃ bytes, t.serialize = .ok bytes := by
  obtain ⟨target, htarget⟩ := htarget
  obtain ⟨data, hdata⟩ : ∃ data, CoinbaseData.new (head.height + 1) [] = .ok data :=
    ⟨_, coinbase_data_new ⟨head.height + 1, [], hheight, Nat.zero_le _⟩⟩
  have hsignature := (coinbase_data_new_eq_ok hdata).2
  have hvalue : 0 ≤ get_block_subsidy (head.height + 1) + fees := by omega
  obtain ⟨coinbase, hcoinbase, hfits⟩ : ∃ coinbase,
      construct_coinbase_transaction (head.height + 1) transactions m [] key = .ok coinbase ∧ coinbase.Fits := by
    refine ⟨{
      inputs := [⟨construct_reference_to_thin_air, some (.CoinbaseData data)⟩]
      outputs := [⟨(get_block_subsidy (head.height + 1) + fees).toNat, key⟩] }, ?_, ?_, ?_⟩
    · simp [construct_coinbase_transaction, hfees, hdata, hvalue]
    · simp [Input.Fits, Signature.Fits, hsignature]
    · simp only [List.mem_singleton, forall_eq, Output.Fits]
      omega
  obtain ⟨bytes, hbytes⟩ := transaction_serialize_ok hfits
  have hall : ∀ t ∈ coinbase :: transactions, ∃ bytes, t.serialize = .ok bytes := by
    intro t ht
    cases List.mem_cons.mp ht with
    | inl hself => exact hself ▸ ⟨bytes, hbytes⟩
    | inr hin => exact hpool t hin
  have hhashes : ∀ t ∈ coinbase :: transactions, ∃ hash, t.hash crypto = .ok hash := by
    intro t ht
    obtain ⟨_, hown⟩ := hall t ht
    exact hash_of_serialize hown
  obtain ⟨hashes, hcollect⟩ := collect_ok (Transaction.hash crypto) (coinbase :: transactions) hhashes
  have hne : hashes ≠ [] := by
    intro hnil
    have hlength := (collect_eq_ok.mp hcollect).length_eq
    rw [hnil, List.length_cons] at hlength
    cases hlength
  obtain ⟨root, hroot⟩ := get_merkle_root_ok crypto hashes hne
  have hmerkle : calc_merkle_root_hash crypto (coinbase :: transactions) = .ok root :=
    bind_eq_ok.mpr ⟨hashes, hcollect, hroot⟩
  refine ⟨⟨head.height + 1, h, root, timestamp, target, nonce⟩, head.height + 1, coinbase :: transactions, ?_, hall⟩
  simp [construct_block_pow_evidence_input, construct_minable_summary, CoinState.head, hcurrent, hhead, hm,
    hcoinbase, hmerkle, htarget, -Subtype.exists]

-- The coinbase of a template has one output, and no random data.
theorem constructed_coinbase_size {coinbase : Transaction}
    (hcoinbase : construct_coinbase_transaction height transactions m [] key = .ok coinbase) :
    coinbase.size = 118 := by
  obtain ⟨_, data, _, _, hsignature, _, rfl⟩ := construct_coinbase_transaction_eq_ok hcoinbase
  have hone : vlq_size 1 = 1 := by decide
  simp [Transaction.size, Input.size, Signature.size, OUTPUT_SIZE, hsignature, hone]

end Input

-- What surrounds the pooled transactions: the header, the number of
-- transactions and the coinbase.
def template_overhead (height transactions : Nat) : Nat :=
  319 + vlq_size height + vlq_size (transactions + 1)

theorem header_size_of_fits {header : BlockHeader} (h : header.pow_evidence.Fits) :
    header.size = 201 + vlq_size header.summary.height := by
  have hsample : header.pow_evidence.chain_sample.length = CHAIN_SAMPLE_COUNT * CHAIN_SAMPLE_SIZE := h
  unfold BlockHeader.size CHAIN_SAMPLE_COUNT CHAIN_SAMPLE_SIZE at *
  omega

-- The chain sample is as long as the format has it.
theorem pow_evidence_fits {summary_hash : Hash} {coinstate : CoinState} {summary : BlockSummary} {height : Nat}
    {transactions : List Transaction} {evidence : PowEvidence}
    (h : construct_pow_evidence_after_scrypt crypto summary_hash coinstate summary height transactions =
      .ok evidence) : evidence.Fits := by
  unfold construct_pow_evidence_after_scrypt at h
  by_cases hzero : height = 0
  · rw [if_pos hzero] at h
    simp only [bind_eq_ok, pure_eq_ok] at h
    obtain ⟨chain_sample, hsample, _, _, rfl⟩ := h
    show chain_sample.length = CHAIN_SAMPLE_TOTAL_SIZE
    rw [← Except.ok.inj hsample, to_bytes_length]
  · rw [if_neg hzero] at h
    simp only [bind_eq_ok, pure_eq_ok] at h
    obtain ⟨chain_sample, hsample, _, _, rfl⟩ := h
    exact select_n_k_length_slices_length crypto hsample

-- The chain manager that some calls lead to, where nothing was pooled.
def pool_after (crypto : Crypto) (coinstate : CoinState) (steps : List PoolCall) : ChainManager :=
  calls (steps.map (PoolCall.run crypto)) ⟨coinstate, [], none⟩

namespace MinerWatcher

variable {watcher after : MinerWatcher} {current_timestamp miner_id nonce : Nat} {block head : Block}
  {bytes : Bytes}

-- The block that an output for the miner's template completes.
def Completed (crypto : Crypto) (watcher : MinerWatcher) (miner_id : Nat) (block : Block) : Prop :=
  ∃ current_height summary_hash,
    watcher.mining_args.lookup miner_id = some (block.header.summary, current_height, block.transactions) ∧
    construct_pow_evidence_after_scrypt crypto summary_hash watcher.coinstate block.header.summary current_height
      block.transactions = .ok block.header.pow_evidence

-- What a request leaves. The coinstate has been assigned even where it raises.
theorem request_cases (crypto : Crypto) (watcher : MinerWatcher) (current_timestamp miner_id nonce : Nat) :
    (∃ e, handle_request_scrypt_input_message crypto current_timestamp miner_id nonce watcher =
      (.error e, { watcher with coinstate := watcher.node.chain_manager.coinstate })) ∨
    ∃ head summary current_height transactions sent, watcher.node.chain_manager.coinstate.head = .ok head ∧
      construct_block_pow_evidence_input crypto watcher.node.chain_manager.coinstate
        watcher.node.chain_manager.transaction_pool watcher.public_key
        (max current_timestamp (head.timestamp + 1)) [] nonce = .ok (summary, current_height, transactions) ∧
      handle_request_scrypt_input_message crypto current_timestamp miner_id nonce watcher =
        (.ok (), { watcher with
          coinstate := watcher.node.chain_manager.coinstate
          mining_args := watcher.mining_args.insert miner_id (summary, current_height, transactions)
          sent }) := by
  unfold handle_request_scrypt_input_message ChainManager.get_state
  rw [bind_run_ok (read_run watcher)]
  simp only [bind_run_ok (change_run _ _)]
  cases hhead : watcher.node.chain_manager.coinstate.head with
  | error e => exact .inl ⟨e, bind_run_error (raw_run _ _)⟩
  | ok head =>
      rw [bind_run_ok (raw_run _ _)]
      cases htemplate : construct_block_pow_evidence_input crypto watcher.node.chain_manager.coinstate
          watcher.node.chain_manager.transaction_pool watcher.public_key
          (max current_timestamp (head.timestamp + 1)) [] nonce with
      | error e => exact .inl ⟨e, bind_run_error (raw_run _ _)⟩
      | ok template =>
          obtain ⟨summary, current_height, transactions⟩ := template
          exact .inr ⟨head, summary, current_height, transactions, _, rfl, htemplate, rfl⟩

theorem request_scrypt_input_run
    (hrequest : handle_request_scrypt_input_message crypto current_timestamp miner_id nonce watcher =
      (.ok (), after)) :
    ∃ head template, watcher.node.chain_manager.coinstate.head = .ok head ∧
      construct_block_pow_evidence_input crypto watcher.node.chain_manager.coinstate
        watcher.node.chain_manager.transaction_pool watcher.public_key
        (max current_timestamp (head.timestamp + 1)) [] nonce = .ok template ∧
      after.mining_args.lookup miner_id = some template ∧
      after.coinstate = watcher.node.chain_manager.coinstate := by
  cases request_cases crypto watcher current_timestamp miner_id nonce with
  | inl herror =>
      obtain ⟨_, herror⟩ := herror
      rw [herror] at hrequest
      cases (Prod.mk.inj hrequest).1
  | inr hok =>
      obtain ⟨head, summary, current_height, transactions, _, hhead, htemplate, hok⟩ := hok
      rw [hok] at hrequest
      obtain ⟨_, rfl⟩ := Prod.mk.inj hrequest
      exact ⟨head, _, hhead, htemplate, Finmap.lookup_insert _, rfl⟩

theorem completed_size {coinstate : CoinState} {pool : List Transaction} {last_known_valid : Option CoinState}
    (hmanager : watcher.node.chain_manager = ⟨coinstate, pool, last_known_valid⟩)
    (hrequest : handle_request_scrypt_input_message crypto current_timestamp miner_id nonce watcher =
      (.ok (), after)) (hblock : Completed crypto after miner_id block)
    (hhead : coinstate.head = .ok head) :
    block.size = template_overhead (head.height + 1) pool.length + (pool.map Transaction.size).sum := by
  obtain ⟨_, _, _, htemplate, hstored, _⟩ := request_scrypt_input_run hrequest
  obtain ⟨current_height, summary_hash, hlookup, hevidence⟩ := hblock
  simp only [Option.some.inj (hstored.symm.trans hlookup), hmanager] at htemplate
  obtain ⟨current, head', _, coinbase, hcurrent, hhead', hcoinbase, hall, _, hheight, _⟩ :=
    construct_block_pow_evidence_input_eq_ok htemplate
  simp only [CoinState.head, hcurrent, getItem_eq_ok] at hhead
  obtain rfl := Option.some.inj (hhead.symm.trans hhead')
  have hheader := header_size_of_fits (pow_evidence_fits hevidence)
  have hsize := constructed_coinbase_size hcoinbase
  rw [hheight] at hheader
  rw [Block.size, hheader, hall, List.length_cons, List.map_cons, List.sum_cons, hsize, template_overhead]
  omega

theorem completed_serialize_length_le_iff
    (hrequest : handle_request_scrypt_input_message crypto current_timestamp miner_id nonce watcher =
      (.ok (), after)) (hblock : Completed crypto after miner_id block)
    (hhead : watcher.node.chain_manager.coinstate.head = .ok head) (hbytes : block.serialize = .ok bytes) :
    bytes.length ≤ MAX_BLOCK_SIZE ↔
      template_overhead (head.height + 1) watcher.node.chain_manager.transaction_pool.length +
        (watcher.node.chain_manager.transaction_pool.map Transaction.size).sum ≤ MAX_BLOCK_SIZE := by
  rw [block_serialize_length hbytes, completed_size rfl hrequest hblock hhead]

-- Otherwise the work is in vain.
theorem oversized_never_validates (hbytes : block.serialize = .ok bytes) (hsize : MAX_BLOCK_SIZE < bytes.length)
    (current_timestamp : Nat) : validate_block_by_itself crypto block current_timestamp ≠ .ok () := by
  intro hself
  obtain ⟨_, _, _, bytes', _, hbytes', hsize', _⟩ := validate_block_by_itself_eq_ok.mp hself
  rw [Except.ok.inj (hbytes.symm.trans hbytes')] at hsize
  omega

theorem request_scrypt_input_ok {template : BlockSummary × Nat × List Transaction}
    (hhead : watcher.node.chain_manager.coinstate.head = .ok head)
    (htemplate : construct_block_pow_evidence_input crypto watcher.node.chain_manager.coinstate
      watcher.node.chain_manager.transaction_pool watcher.public_key
      (max current_timestamp (head.timestamp + 1)) [] nonce = .ok template) :
    ∃ after, handle_request_scrypt_input_message crypto current_timestamp miner_id nonce watcher =
      (.ok (), after) := by
  unfold handle_request_scrypt_input_message ChainManager.get_state
  rw [bind_run_ok (read_run watcher)]
  simp only []
  rw [bind_run_ok (change_run _ _), hhead, bind_run_ok (raw_run _ _), htemplate, bind_run_ok (raw_run _ _),
    bind_run_ok (change_run _ _)]
  exact ⟨_, rfl⟩

-- Some output completes the template, where the time and the nonce have the
-- widths of the format and the chain can be sampled.
theorem completed_exists {coinstate : CoinState} {pool : List Transaction} {h summary_hash : Hash}
    {m : UnspentTransactionOuts} {fees : Int} {sample : Bytes}
    (hmanager : watcher.node.chain_manager = ⟨coinstate, pool, none⟩) (hcurrent : coinstate.current_chain_hash = some h)
    (hhead : coinstate.block_by_hash.lookup h = some head)
    (hm : coinstate.unspent_transaction_outs_by_hash.lookup h = some m)
    (hfees : get_block_fees pool m = .ok fees) (hpositive : 0 ≤ fees)
    (hfit : get_block_subsidy (head.height + 1) + fees < 2 ^ 64) (hheight : head.height + 1 ≤ 0xffffffff)
    (hpool : ∀ t ∈ pool, ∃ bytes, t.serialize = .ok bytes)
    (htarget : (head.height + 1) % BLOCKS_BETWEEN_TARGET_READJUSTMENT ≠ 0)
    (htime : max current_timestamp (head.timestamp + 1) < 2 ^ 32) (hnonce : nonce < 2 ^ 32)
    (hsample : select_n_k_length_slices_from_chain crypto summary_hash (head.height + 1)
      (get_block_by_height coinstate h) CHAIN_SAMPLE_COUNT CHAIN_SAMPLE_SIZE = .ok sample) :
    ∃ after block bytes, handle_request_scrypt_input_message crypto current_timestamp miner_id nonce watcher =
        (.ok (), after) ∧ Completed crypto after miner_id block ∧ block.serialize = .ok bytes := by
  have hcalc : ∃ target, calc_target crypto coinstate (head.height + 1)
      (max current_timestamp (head.timestamp + 1)) head = .ok target := by
    rw [calc_target, if_neg htarget]
    exact ⟨_, rfl⟩
  obtain ⟨summary, height, all, htemplate, hall⟩ : ∃ summary height all,
      construct_block_pow_evidence_input crypto coinstate
        pool watcher.public_key
        (max current_timestamp (head.timestamp + 1)) [] nonce = .ok (summary, height, all) ∧
      ∀ t ∈ all, ∃ bytes, t.serialize = .ok bytes :=
    construct_block_pow_evidence_input_ok hcurrent hhead hm hfees hpositive hfit hheight hpool hcalc
  obtain ⟨current, head', _, _, hcurrent', hhead', _, _, hheightEq, _, hprevious, htimestamp, hnonceEq⟩ :=
    construct_block_pow_evidence_input_eq_ok htemplate
  obtain rfl := Option.some.inj (hcurrent.symm.trans hcurrent')
  obtain rfl := Option.some.inj (hhead.symm.trans hhead')
  have hheadOk : coinstate.head = .ok head := by
    simp only [CoinState.head, hcurrent, getItem_eq_ok]
    exact hhead
  obtain ⟨after, hrequest⟩ : ∃ after, handle_request_scrypt_input_message crypto current_timestamp miner_id nonce
      watcher = (.ok (), after) :=
    request_scrypt_input_ok (by rw [hmanager]; exact hheadOk) (by rw [hmanager]; exact htemplate)
  obtain ⟨head'', template, hhead'', htemplate', hstored, hafter⟩ := request_scrypt_input_run hrequest
  rw [hmanager] at hhead'' htemplate' hafter
  obtain rfl := Except.ok.inj (hheadOk.symm.trans hhead'')
  obtain rfl := Except.ok.inj (htemplate.symm.trans htemplate')
  obtain ⟨serialized, hserialized⟩ := serialize_list_ok hall
  have hevidence : construct_pow_evidence_after_scrypt crypto summary_hash after.coinstate summary height all =
      .ok ⟨summary_hash, sample, crypto.blake2 (summary_hash.1 ++ sample ++ serialized)⟩ := by
    have hne : height ≠ 0 := by omega
    rw [hafter, construct_pow_evidence_after_scrypt, if_neg hne, hheightEq, hprevious, hsample]
    simp [hserialized]
  generalize (⟨summary_hash, sample, crypto.blake2 (summary_hash.1 ++ sample ++ serialized)⟩ : PowEvidence) = evidence
    at hevidence
  have hfits : BlockHeader.Fits ⟨summary, evidence⟩ :=
    ⟨htimestamp ▸ htime, hnonceEq ▸ hnonce, pow_evidence_fits hevidence⟩
  obtain ⟨header, hheader⟩ := header_serialize_ok hfits
  refine ⟨after, ⟨⟨summary, evidence⟩, all, none⟩, header ++ serialized, hrequest,
    ⟨height, summary_hash, hstored, hevidence⟩, ?_⟩
  exact block_serialize_eq_ok.mpr ⟨header, serialized, hheader, hserialized, rfl⟩

def with_manager (watcher : MinerWatcher) (chain_manager : ChainManager) : MinerWatcher :=
  { watcher with node := { watcher.node with chain_manager } }

@[simp] theorem with_manager_chain_manager (watcher : MinerWatcher) (chain_manager : ChainManager) :
    (watcher.with_manager chain_manager).node.chain_manager = chain_manager := rfl

-- After every run of the pool, a template is small enough just when all that
-- has been pooled fits around its coinbase.
theorem template_fits_iff (coinstate : CoinState) (steps : List PoolCall)
    (hrequest : handle_request_scrypt_input_message crypto current_timestamp miner_id nonce
      (watcher.with_manager (pool_after crypto coinstate steps)) = (.ok (), after))
    (hblock : Completed crypto after miner_id block)
    (hhead : (pool_after crypto coinstate steps).coinstate.head = .ok head) (hbytes : block.serialize = .ok bytes) :
    bytes.length ≤ MAX_BLOCK_SIZE ↔
      template_overhead (head.height + 1) (pool_after crypto coinstate steps).transaction_pool.length +
        ((pool_after crypto coinstate steps).transaction_pool.map Transaction.size).sum ≤ MAX_BLOCK_SIZE :=
  completed_serialize_length_le_iff hrequest hblock hhead hbytes

end MinerWatcher

-- A transaction that is admissible is the first of an empty pool.
theorem pooled_alone {coinstate : CoinState} {h hash : Hash} {transaction : Transaction} {bytes : Bytes}
    (hhash : transaction.hash crypto = .ok hash) (hbytes : transaction.serialize = .ok bytes)
    (hcurrent : coinstate.current_chain_hash = some h)
    (hadmissible : Admissible crypto ⟨coinstate, [], none⟩ h transaction) :
    pool_after crypto coinstate [.add_transaction_to_pool transaction] = ⟨coinstate, [transaction], none⟩ := by
  have hvalid : (⟨coinstate, [], none⟩ : ChainManager).validate_for_pool crypto transaction = .ok () ↔
      Admissible crypto ⟨coinstate, [], none⟩ h transaction :=
    validate_for_pool_eq_ok hcurrent List.nodup_nil
  have hrun := add_transaction_to_pool_run hhash hbytes (succeeds_eq_ok_true.mpr (hvalid.mpr hadmissible))
  rw [if_pos rfl] at hrun
  show (PoolCall.run crypto (.add_transaction_to_pool transaction) ⟨coinstate, [], none⟩).2 = _
  rw [PoolCall.run, bind_run_ok hrun]
  rfl

theorem head_of_manager {chain_manager : ChainManager} {coinstate : CoinState} {pool : List Transaction} {head : Block}
    (hmanager : chain_manager = ⟨coinstate, pool, none⟩) (hhead : coinstate.head = .ok head) :
    chain_manager.coinstate.head = .ok head := by
  rw [hmanager]
  exact hhead

-- A transaction that is small enough to be pooled, and too large for a block.
section Crowded

-- The spend of the head's coinbase, split up into pieces of one.
def crowdedSpend (n : Nat) : Transaction where
  inputs := sample_spend.inputs
  outputs := List.replicate n ⟨1, sample_key⟩

def sample_head : Hash := sample_second.previous_block_hash

def sample_unspent : UnspentTransactionOuts :=
  (sample_coinstate_first.unspent_transaction_outs_by_hash.lookup sample_head).getD ∅

theorem sample_state :
    sample_coinstate_first.current_chain_hash = some sample_head ∧
    sample_coinstate_first.block_by_hash.lookup sample_head = some sample_first ∧
    sample_coinstate_first.unspent_transaction_outs_by_hash.lookup sample_head = some sample_unspent ∧
    sample_unspent.lookup ⟨sample_coinbase_hash, 0, first_index_le⟩ = some ⟨1000000000, sample_key⟩ ∧
    sample_first.height = 1 ∧ sample_first.timestamp = 2000 := by
  decide +kernel

theorem crowded_serialize (n : Nat) : ∃ bytes, (crowdedSpend n).serialize = .ok bytes := by
  apply transaction_serialize_ok
  constructor
  · simp [crowdedSpend, sample_spend, Input.Fits, Signature.Fits]
  · intro output houtput
    rw [(List.mem_replicate.mp houtput).2]
    show 1 < 2 ^ 64
    omega

theorem crowded_size (n : Nat) : (crowdedSpend n).size = 103 + vlq_size n + 73 * n := by
  have hone : vlq_size 1 = 1 := by decide
  simp only [Transaction.size, crowdedSpend, sample_spend, List.length_singleton, List.map_singleton,
    List.sum_singleton, Input.size, Option.elim_some, Signature.size, OUTPUT_SIZE, List.length_replicate, hone]
  omega

theorem crowded_values (n : Nat) : output_values (crowdedSpend n) = List.replicate n 1 := List.map_replicate

-- Each piece is in range, and all of them are worth no more than the coinbase.
theorem crowded_admissible {n : Nat} (hpos : 0 < n) (hsize : 103 + vlq_size n + 73 * n ≤ MAX_BLOCK_SIZE)
    (hworth : n ≤ 1000000000) :
    Admissible .residue ⟨sample_coinstate_first, [], none⟩ sample_head (crowdedSpend n) := by
  obtain ⟨_, _, hunspent, hcoinbase, _⟩ := sample_state
  obtain ⟨bytes, hbytes⟩ := crowded_serialize n
  have hlength := transaction_serialize_length hbytes
  rw [crowded_size] at hlength
  have hsum : (output_values (crowdedSpend n)).sum = n := by rw [crowded_values]; simp
  have hmax : 1000000000 ≤ MAX_SASHIMI := by decide
  constructor
  · refine validate_non_coinbase_transaction_by_itself_eq_ok.mpr
      ⟨List.cons_ne_nil _ _, ?_, ⟨bytes, hbytes, by omega⟩, ?_, by omega, ?_, ?_⟩
    · intro hnil
      have hzero := congrArg List.length hnil
      rw [crowdedSpend, List.length_replicate, List.length_nil] at hzero
      omega
    · intro value hvalue
      rw [crowded_values] at hvalue
      rw [(List.mem_replicate.mp hvalue).2]
      omega
    · exact List.nodup_singleton _
    · have hinputs : ∀ input ∈ sample_spend.inputs, validate_non_coinbase_input input = .ok () := by
        decide +kernel
      exact hinputs
  · obtain ⟨message, hmessage⟩ := signable_serialize_ok hbytes
    refine validate_non_coinbase_transaction_in_coinstate_eq_ok.mpr ⟨sample_unspent, [1000000000], hunspent, ?_, ?_⟩
    · refine collect_eq_ok.mpr (.cons (validate_spend_eq_ok.mpr ⟨⟨1000000000, sample_key⟩, hcoinbase, ?_, rfl⟩) .nil)
      simp [validate_signature_for_spend, hmessage, Signature.validate, Crypto.residue]
    · rw [hsum, List.sum_singleton]
      exact hworth
  · exact fun _ _ => List.not_mem_nil

theorem crowded_pooled {n : Nat} (hpos : 0 < n) (hsize : 103 + vlq_size n + 73 * n ≤ MAX_BLOCK_SIZE)
    (hworth : n ≤ 1000000000) :
    pool_after .residue sample_coinstate_first [.add_transaction_to_pool (crowdedSpend n)] =
      ⟨sample_coinstate_first, [crowdedSpend n], none⟩ := by
  obtain ⟨_, hbytes⟩ := crowded_serialize n
  obtain ⟨_, hhash⟩ : ∃ hash, (crowdedSpend n).hash .residue = .ok hash := hash_of_serialize hbytes
  exact pooled_alone hhash hbytes sample_state.1 (crowded_admissible hpos hsize hworth)

theorem crowded_fees (n : Nat) :
    get_block_fees [crowdedSpend n] sample_unspent = .ok (1000000000 - (n : Int)) := by
  obtain ⟨_, _, _, hcoinbase, _⟩ := sample_state
  have hsum : (output_values (crowdedSpend n)).sum = n := by rw [crowded_values]; simp
  have hvalues : input_values sample_unspent (crowdedSpend n) = .ok [1000000000] := by
    refine collect_eq_ok.mpr (.cons ?_ .nil)
    simp [hcoinbase]
  simp [get_block_fees, collect, get_transaction_fee, hvalues, hsum]

def crowdedWatcher : MinerWatcher where
  node := {
    chain_manager := ⟨sample_coinstate_first, [], none⟩
    block_store := { committed := ⟨[], [], [], []⟩, pending := none, write_buffer := [] }
    broadcast := [] }
  coinstate := sample_coinstate_first
  mining_args := ∅
  public_key := sample_key
  sent := []

theorem crowded_sample : ∃ sample, select_n_k_length_slices_from_chain .residue zero_hash (sample_first.height + 1)
    (get_block_by_height sample_coinstate_first sample_head) CHAIN_SAMPLE_COUNT CHAIN_SAMPLE_SIZE = .ok sample := by
  have hsample : (select_n_k_length_slices_from_chain .residue zero_hash (sample_first.height + 1)
    (get_block_by_height sample_coinstate_first sample_head) CHAIN_SAMPLE_COUNT CHAIN_SAMPLE_SIZE).toOption.isSome := by
    decide +kernel
  obtain ⟨sample, hsome⟩ := Option.isSome_iff_exists.mp hsample
  exact ⟨sample, mem_toOption.mp hsome⟩

theorem crowded_completed {n : Nat} (hpos : 0 < n) (hsize : 103 + vlq_size n + 73 * n ≤ MAX_BLOCK_SIZE)
    (hworth : n ≤ 1000000000) :
    ∃ after block bytes, MinerWatcher.handle_request_scrypt_input_message .residue 3000 0 0
        (crowdedWatcher.with_manager
          (pool_after .residue sample_coinstate_first [.add_transaction_to_pool (crowdedSpend n)])) =
        (.ok (), after) ∧
      MinerWatcher.Completed .residue after 0 block ∧ block.serialize = .ok bytes := by
  obtain ⟨hcurrent, hhead, hunspent, _, hheight, htimestamp⟩ := sample_state
  obtain ⟨sample, hsample⟩ := crowded_sample
  have hsubsidy : get_block_subsidy 2 = 1000000000 := by decide
  rw [crowded_pooled hpos hsize hworth]
  refine MinerWatcher.completed_exists (MinerWatcher.with_manager_chain_manager _ _) hcurrent hhead hunspent
    (crowded_fees n) (by omega) ?_ ?_ ?_ ?_ ?_ (by omega) hsample
  · rw [hheight, hsubsidy]
    omega
  · omega
  · intro t ht
    rw [List.mem_singleton.mp ht]
    exact crowded_serialize n
  · rw [hheight]
    decide
  · rw [htimestamp]
    decide

theorem sample_head_ok : sample_coinstate_first.head = .ok sample_first := by
  obtain ⟨hcurrent, hhead, _⟩ := sample_state
  rw [CoinState.head, hcurrent]
  exact getItem_eq_ok.mpr hhead

theorem crowded_head {n : Nat} (hpos : 0 < n) (hsize : 103 + vlq_size n + 73 * n ≤ MAX_BLOCK_SIZE)
    (hworth : n ≤ 1000000000) :
    (pool_after .residue sample_coinstate_first [.add_transaction_to_pool (crowdedSpend n)]).coinstate.head =
      .ok sample_first := by
  exact head_of_manager (crowded_pooled hpos hsize hworth) sample_head_ok

theorem template_fits_iff_single :
    ∃ after block bytes, MinerWatcher.Completed .residue after 0 block ∧ block.serialize = .ok bytes ∧
      (bytes.length ≤ MAX_BLOCK_SIZE ↔
        template_overhead (sample_first.height + 1)
            (pool_after .residue sample_coinstate_first [.add_transaction_to_pool (crowdedSpend 1)]
              ).transaction_pool.length +
          ((pool_after .residue sample_coinstate_first [.add_transaction_to_pool (crowdedSpend 1)]
              ).transaction_pool.map Transaction.size).sum ≤ MAX_BLOCK_SIZE) := by
  have hsize : 103 + vlq_size 1 + 73 * 1 ≤ MAX_BLOCK_SIZE := by decide
  obtain ⟨after, block, bytes, hrequest, hcompleted, hbytes⟩ :=
    crowded_completed Nat.one_pos hsize (by decide)
  exact ⟨after, block, bytes, hcompleted, hbytes, MinerWatcher.template_fits_iff _ _ hrequest hcompleted
    (crowded_head Nat.one_pos hsize (by decide)) hbytes⟩

-- All that is left for the rest of the block is 167 bytes.
theorem crowded_template_too_large :
    ∃ after block bytes,
      MinerWatcher.handle_request_scrypt_input_message .residue 3000 0 0
        (crowdedWatcher.with_manager
          (pool_after .residue sample_coinstate_first [.add_transaction_to_pool (crowdedSpend 2736)])) =
        (.ok (), after) ∧
      MinerWatcher.Completed .residue after 0 block ∧ block.serialize = .ok bytes ∧
      MAX_BLOCK_SIZE < bytes.length := by
  have hvlq : vlq_size 2736 = 2 := by decide
  have hpos : 0 < 2736 := by decide
  have hworth : 2736 ≤ 1000000000 := by decide
  have hsize : 103 + vlq_size 2736 + 73 * 2736 ≤ MAX_BLOCK_SIZE := by rw [hvlq]; decide
  obtain ⟨after, block, bytes, hrequest, hcompleted, hbytes⟩ := crowded_completed hpos hsize hworth
  have hmanager := (MinerWatcher.with_manager_chain_manager crowdedWatcher _).trans (crowded_pooled hpos hsize hworth)
  have hlength : block.size = template_overhead (sample_first.height + 1) [crowdedSpend 2736].length +
      ([crowdedSpend 2736].map Transaction.size).sum :=
    MinerWatcher.completed_size hmanager hrequest hcompleted sample_head_ok
  have hsizeOfSpend := crowded_size 2736
  have hone : vlq_size 2 = 1 := by decide
  have hmax : MAX_BLOCK_SIZE = 200000 := rfl
  obtain ⟨_, _, _, _, hheight, _⟩ := sample_state
  refine ⟨after, block, bytes, hrequest, hcompleted, hbytes, ?_⟩
  rw [block_serialize_length hbytes, hlength, hheight, List.map_singleton, List.sum_singleton, List.length_singleton,
    template_overhead]
  omega

end Crowded

end Skepticoin
