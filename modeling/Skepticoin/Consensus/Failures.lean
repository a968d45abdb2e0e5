import Skepticoin.Consensus.Sampling
import Skepticoin.Consensus.Target
import Skepticoin.Networking.Pool

namespace Skepticoin

open Guard FMap

variable {crypto : Crypto} {coinstate : CoinState}

-- An exception that is neither ValidationError nor a subclass.
def PyError.is_foreign (e : PyError) : Bool := !e.is_validation_error

theorem not_validation_of_foreign (e : PyError) (h : e.is_foreign = true) : e.is_validation_error = false := by
  simpa [PyError.is_foreign] using h

-- Serializing fails by no ValidationError.
section Serialize

theorem getItem_raises {κ ν : Type} [DecidableEq κ] {m : Map κ ν} {key : κ} :
    RaisesOnly PyError.is_foreign (getItem m key) := by
  unfold getItem find
  cases m.lookup key with
  | none => exact RaisesOnly.error rfl
  | some value => exact RaisesOnly.ok rfl

theorem pack_raises (width n : Nat) : RaisesOnly PyError.is_foreign (pack width n) := by
  unfold pack
  split_ifs
  · exact RaisesOnly.ok rfl
  · exact RaisesOnly.error rfl

theorem serialize_list_raises {α : Type} {stream_serialize : α → Py Bytes} {lst : List α}
    (h : ∀ a ∈ lst, RaisesOnly PyError.is_foreign (stream_serialize a)) :
    RaisesOnly PyError.is_foreign (stream_serialize_list stream_serialize lst) := by
  unfold stream_serialize_list
  exact (RaisesOnly.ok (stream_serialize_vlq_eq _)).bind fun _ _ =>
    (RaisesOnly.collect h).bind fun _ _ => RaisesOnly.ok rfl

theorem input_serialize_raises (input : Input) : RaisesOnly PyError.is_foreign input.stream_serialize := by
  unfold Input.stream_serialize OutputReference.stream_serialize
  refine ((pack_raises _ _).bind fun _ _ => RaisesOnly.ok rfl).bind fun _ _ => ?_
  cases input.signature with
  | none => exact RaisesOnly.error rfl
  | some signature =>
      refine RaisesOnly.bind ?_ fun _ _ => RaisesOnly.ok rfl
      cases signature with
      | SignableEquivalent => exact RaisesOnly.ok rfl
      | SECP256k1Signature signature => exact RaisesOnly.ok rfl
      | CoinbaseData data =>
          exact (pack_raises _ _).bind fun _ _ => (pack_raises _ _).bind fun _ _ => RaisesOnly.ok rfl

theorem transaction_serialize_raises (transaction : Transaction) :
    RaisesOnly PyError.is_foreign transaction.serialize := by
  unfold Transaction.serialize
  refine (serialize_list_raises fun input _ => input_serialize_raises input).bind fun _ _ => ?_
  refine (serialize_list_raises fun output _ => ?_).bind fun _ _ => RaisesOnly.ok rfl
  unfold Output.stream_serialize
  exact (pack_raises _ _).bind fun _ _ => RaisesOnly.ok rfl

theorem block_serialize_raises (block : Block) : RaisesOnly PyError.is_foreign block.serialize := by
  unfold Block.serialize BlockHeader.serialize BlockSummary.serialize
  refine RaisesOnly.bind (RaisesOnly.bind ?_ fun _ _ => RaisesOnly.ok rfl) fun _ _ => ?_
  · exact (RaisesOnly.ok (stream_serialize_vlq_eq _)).bind fun _ _ => (pack_raises _ _).bind fun _ _ =>
      (pack_raises _ _).bind fun _ _ => RaisesOnly.ok rfl
  · exact (serialize_list_raises fun transaction _ => transaction_serialize_raises transaction).bind fun _ _ =>
      RaisesOnly.ok rfl

end Serialize

section Sample

-- The blocks that the chain sample asks for exist: no height that is picked
-- lies above the parent, and what stands there can be written.
def SamplesKnown (crypto : Crypto) (coinstate : CoinState) (parent : Block) (height : Nat) : Nat → Hash → Prop
  | 0, _ => True
  | n + 1, hash => height_base hash % height ≤ parent.height ∧ ∃ block serialized_block,
    coinstate.ancestor (parent.height - height_base hash % height) parent = some block ∧
    block.serialize = .ok serialized_block ∧
    SamplesKnown crypto coinstate parent height n (crypto.sha256d (hash.1 ++
      Cyclic.window serialized_block (slice_base hash % serialized_block.length) CHAIN_SAMPLE_SIZE))

variable {at_hash : Hash} {parent : Block} {height : Nat}

theorem get_block_by_height_iff (h : Consistent crypto coinstate)
    (hparent : coinstate.block_by_hash.lookup at_hash = some parent) {i : Nat} {block : Block} :
    get_block_by_height coinstate at_hash i = .ok block ↔
      i ≤ parent.height ∧ coinstate.ancestor (parent.height - i) parent = some block := by
  obtain ⟨index, hindex, hchain⟩ := h.chain hparent
  have hget : get_block_by_height coinstate at_hash i = getItem index i := by
    rw [get_block_by_height, getItem_eq_ok.mpr hindex]
    rfl
  rw [hget, getItem_eq_ok]
  constructor
  · intro hlookup
    exact ⟨(hchain.heights i).mp (Finmap.mem_of_lookup_eq_some hlookup), hchain.ancestor hlookup⟩
  · intro hat
    obtain ⟨hi, hancestor⟩ := hat
    obtain ⟨other, hother⟩ := hchain.exists_at hi
    rw [hother, ← hchain.ancestor hother, hancestor]

theorem select_slice_raises (hash : Hash) (hpos : 0 < height) (k : Nat) :
    RaisesOnly PyError.is_foreign
      (select_slice_from_chain hash height (get_block_by_height coinstate at_hash) k) := by
  refine (RaisesOnly.ok (select_block_height_eq hash hpos)).bind fun _ _ => ?_
  refine RaisesOnly.bind ?_ fun block _ => (block_serialize_raises block).bind fun serialized_block hserialized => ?_
  · exact getItem_raises.bind fun _ _ => getItem_raises
  · exact RaisesOnly.ok (select_block_slice_eq hash k (block_serialize_ne_nil hserialized))

theorem select_slice_eq_ok (h : Consistent crypto coinstate)
    (hparent : coinstate.block_by_hash.lookup at_hash = some parent) (hpos : 0 < height) {hash : Hash} {k : Nat}
    {slice : Bytes} :
    select_slice_from_chain hash height (get_block_by_height coinstate at_hash) k = .ok slice ↔
      height_base hash % height ≤ parent.height ∧ ∃ block serialized_block,
        coinstate.ancestor (parent.height - height_base hash % height) parent = some block ∧
        block.serialize = .ok serialized_block ∧
        slice = Cyclic.window serialized_block (slice_base hash % serialized_block.length) k := by
  simp only [select_slice_from_chain, bind_eq_ok, select_block_height_eq hash hpos, Except.ok.injEq, exists_eq_left',
    get_block_by_height_iff h hparent]
  constructor
  · intro hrun
    obtain ⟨block, ⟨hle, hancestor⟩, bytes, hbytes, hslice⟩ := hrun
    rw [select_block_slice_eq hash k (block_serialize_ne_nil hbytes)] at hslice
    exact ⟨hle, block, bytes, hancestor, hbytes, (Except.ok.inj hslice).symm⟩
  · intro hrun
    obtain ⟨hle, block, bytes, hancestor, hbytes, rfl⟩ := hrun
    exact ⟨block, ⟨hle, hancestor⟩, bytes, hbytes, select_block_slice_eq hash k (block_serialize_ne_nil hbytes)⟩

theorem select_slices_raises (hpos : 0 < height) (n k : Nat) (hash : Hash) :
    RaisesOnly PyError.is_foreign (select_n_k_length_slices_from_chain crypto hash height
      (get_block_by_height coinstate at_hash) n k) := by
  induction n generalizing hash with
  | zero => exact RaisesOnly.ok rfl
  | succ n ih =>
      exact (select_slice_raises hash hpos k).bind fun _ _ => (ih _).bind fun _ _ => RaisesOnly.ok rfl

theorem select_slices_ok_iff (h : Consistent crypto coinstate)
    (hparent : coinstate.block_by_hash.lookup at_hash = some parent) (hpos : 0 < height) (n : Nat) (hash : Hash) :
    (∃ slices, select_n_k_length_slices_from_chain crypto hash height (get_block_by_height coinstate at_hash) n
      CHAIN_SAMPLE_SIZE = .ok slices) ↔ SamplesKnown crypto coinstate parent height n hash := by
  induction n generalizing hash with
  | zero => simp [select_n_k_length_slices_from_chain, SamplesKnown]
  | succ n ih =>
      simp only [select_n_k_length_slices_from_chain, SamplesKnown, bind_eq_ok, pure_eq_ok,
        select_slice_eq_ok h hparent hpos]
      constructor
      · intro hrun
        obtain ⟨slices, slice, ⟨hle, block, bytes, hancestor, hbytes, rfl⟩, rest, hrest, _⟩ := hrun
        exact ⟨hle, block, bytes, hancestor, hbytes, (ih _).mp ⟨rest, hrest⟩⟩
      · intro hknown
        obtain ⟨hle, block, bytes, hancestor, hbytes, hrest⟩ := hknown
        obtain ⟨rest, hrest⟩ := (ih _).mpr hrest
        exact ⟨_, _, ⟨hle, block, bytes, hancestor, hbytes, rfl⟩, rest, hrest, rfl⟩

end Sample

section Fees

variable {m : UnspentTransactionOuts}

theorem get_block_fees_raises (transactions : List Transaction) (m : UnspentTransactionOuts) :
    RaisesOnly PyError.is_foreign (get_block_fees transactions m) := by
  refine RaisesOnly.bind (RaisesOnly.collect fun transaction _ => ?_) fun _ _ => RaisesOnly.ok rfl
  refine RaisesOnly.bind (RaisesOnly.collect fun input _ => ?_) fun _ _ => RaisesOnly.ok rfl
  exact getItem_raises.bind fun _ _ => RaisesOnly.ok rfl

-- The fees can be computed when every output that is spent is unspent.
theorem get_block_fees_ok_iff {transactions : List Transaction} :
    (∃ fees, get_block_fees transactions m = .ok fees) ↔
      ∀ reference ∈ transactions.flatMap output_references, reference ∈ m := by
  constructor
  · intro hrun
    obtain ⟨fees, hfees⟩ := hrun
    simp only [get_block_fees, bind_eq_ok] at hfees
    obtain ⟨each, heach, _⟩ := hfees
    intro reference hreference
    obtain ⟨transaction, ht, hin⟩ := List.mem_flatMap.mp hreference
    obtain ⟨input, hinput, rfl⟩ := List.mem_map.mp hin
    obtain ⟨fee, _, hfee⟩ := forall₂_mem_left (collect_eq_ok.mp heach) ht
    simp only [get_transaction_fee, bind_eq_ok] at hfee
    obtain ⟨values, hvalues, _⟩ := hfee
    obtain ⟨value, _, hvalue⟩ := forall₂_mem_left (collect_eq_ok.mp hvalues) hinput
    simp only [bind_eq_ok, getItem_eq_ok] at hvalue
    obtain ⟨output, houtput, _⟩ := hvalue
    exact Finmap.mem_of_lookup_eq_some houtput
  · intro hall
    have hfee : ∀ transaction ∈ transactions, ∃ fee, get_transaction_fee transaction m = .ok fee := by
      intro transaction ht
      have hvalue : ∀ input ∈ transaction.inputs, ∃ value, (do
          let output ← getItem m input.output_reference
          return output.value : Py Nat) = .ok value := by
        intro input hinput
        have hin := hall _ (List.mem_flatMap.mpr ⟨transaction, ht, List.mem_map_of_mem hinput⟩)
        obtain ⟨output, houtput⟩ := Finmap.mem_iff.mp hin
        exact ⟨output.value, by simp [houtput]⟩
      obtain ⟨values, hvalues⟩ := collect_ok _ _ hvalue
      have hinputs : input_values m transaction = .ok values := hvalues
      refine ⟨(values.sum : Int) - (output_values transaction).sum, ?_⟩
      rw [get_transaction_fee, hinputs]
      rfl
    obtain ⟨fees, hfees⟩ := collect_ok _ _ hfee
    refine ⟨fees.sum, ?_⟩
    rw [get_block_fees, hfees]
    rfl

end Fees

section Validation

variable {block parent : Block}

-- What a block that is in order by itself can be relied on for.
structure Readable (block : Block) : Prop where
  summary : ∃ password, block.header.summary.serialize = .ok password
  height : block.height < 256 ^ 8
  transactions : ∃ written, stream_serialize_list Transaction.serialize block.transactions = .ok written
  by_itself : ∃ coinbase transactions, block.transactions = coinbase :: transactions ∧
    ∀ transaction ∈ transactions, validate_non_coinbase_transaction_by_itself transaction = .ok ()

theorem readable_of_validate {now : Nat} (h : validate_block_by_itself crypto block now = .ok ()) :
    Readable block := by
  obtain ⟨_, coinbase, transactions, bytes, hblock, hbytes, _, _, ⟨data, _, hheight⟩, hvalid, _⟩ :=
    validate_block_by_itself_eq_ok.mp h
  obtain ⟨header, written, hheader, hwritten, _⟩ := block_serialize_eq_ok.mp hbytes
  obtain ⟨summary, hsummary, _⟩ := header_serialize_eq_ok.mp hheader
  have hle := data.height_le
  exact ⟨⟨summary, hsummary⟩, by omega, ⟨written, hwritten⟩, coinbase, transactions, hblock, hvalid⟩

-- What the lookups rest on, each at the point of the sequence that it is made:
-- if the summary is in order, the blocks of the chain sample exist, and if the
-- evidence and the height are right too, what the transactions spend is
-- unspent at the parent.
structure LookupsCovered (crypto : Crypto) (coinstate : CoinState) (parent block : Block) : Prop where
  samples : parent.timestamp < block.timestamp →
    calc_target crypto coinstate (parent.height + 1) block.timestamp parent = .ok block.target →
    ∀ summary_hash, construct_summary_hash crypto block.header.summary block.height = .ok summary_hash →
      SamplesKnown crypto coinstate parent block.height CHAIN_SAMPLE_COUNT summary_hash
  references : parent.timestamp < block.timestamp →
    calc_target crypto coinstate (parent.height + 1) block.timestamp parent = .ok block.target →
    construct_pow_evidence crypto coinstate block.header.summary block.height block.transactions =
      .ok block.header.pow_evidence →
    block.height = parent.height + 1 →
    ∃ unspent_transaction_outs,
      coinstate.unspent_transaction_outs_by_hash.lookup block.previous_block_hash = some unspent_transaction_outs ∧
      ∀ reference ∈ block.transactions.tail.flatMap output_references, reference ∈ unspent_transaction_outs

theorem summary_raises (h : Consistent crypto coinstate) (htime : TimestampsIncrease coinstate)
    (hparent : coinstate.block_by_hash.lookup block.previous_block_hash = some parent) :
    RaisesOnly PyError.is_validation_error
      (validate_block_summary_in_coinstate crypto block.header.summary coinstate) := by
  unfold validate_block_summary_in_coinstate
  simp only [hparent]
  refine (RaisesOnly.raiseIf rfl).bind fun _ hlater => ?_
  rw [raiseIf_eq_ok, not_le] at hlater
  obtain ⟨target, htarget⟩ := calc_target_ok h htime hparent hlater
  exact (RaisesOnly.ok htarget).bind fun _ _ => RaisesOnly.raiseIf rfl

theorem evidence_raises_iff (h : Consistent crypto coinstate)
    (hparent : coinstate.block_by_hash.lookup block.previous_block_hash = some parent) (hread : Readable block)
    (hpos : 0 < block.height) :
    RaisesOnly PyError.is_validation_error
        (construct_pow_evidence crypto coinstate block.header.summary block.height block.transactions) ↔
      ∀ summary_hash, construct_summary_hash crypto block.header.summary block.height = .ok summary_hash →
        SamplesKnown crypto coinstate parent block.height CHAIN_SAMPLE_COUNT summary_hash := by
  obtain ⟨password, hpassword⟩ := hread.summary
  obtain ⟨written, hwritten⟩ := hread.transactions
  have hhash : construct_summary_hash crypto block.header.summary block.height =
      .ok (crypto.scrypt password (to_bytes 8 block.height)) := by
    have hsalt : height_to_bytes block.height = .ok (to_bytes 8 block.height) := if_pos hread.height
    rw [construct_summary_hash, hpassword, hsalt]
    rfl
  generalize crypto.scrypt password (to_bytes 8 block.height) = summary_hash at hhash
  simp only [construct_pow_evidence, hhash, construct_pow_evidence_after_scrypt, if_neg hpos.ne', hwritten]
  rw [raisesOnly_bind_iff]
  simp only [Except.ok.injEq, forall_eq', raisesOnly_bind_iff]
  rw [(select_slices_raises hpos _ _ summary_hash).iff_ok not_validation_of_foreign,
    select_slices_ok_iff h hparent hpos]
  constructor
  · intro hrun
    exact hrun.2.1
  · intro hknown
    exact ⟨RaisesOnly.ok rfl, hknown, fun _ _ => ⟨RaisesOnly.ok rfl, RaisesOnly.ok rfl⟩⟩

-- The coinbase check reads the fees of transactions whose inputs have not been
-- looked at yet.
theorem coinbase_raises_iff (transaction : Transaction)
    (hparent : coinstate.block_by_hash.lookup block.previous_block_hash = some parent) :
    RaisesOnly PyError.is_validation_error (validate_coinbase_transaction_in_coinstate transaction block coinstate) ↔
      (block.height = parent.height + 1 → ∃ unspent_transaction_outs,
        coinstate.unspent_transaction_outs_by_hash.lookup block.previous_block_hash = some unspent_transaction_outs ∧
        ∀ reference ∈ block.transactions.tail.flatMap output_references, reference ∈ unspent_transaction_outs) := by
  unfold validate_coinbase_transaction_in_coinstate
  rw [getItem_eq_ok.mpr hparent, raisesOnly_bind_iff]
  simp only [Except.ok.injEq, forall_eq', raisesOnly_bind_iff, raiseIf_eq_ok, not_not]
  constructor
  · intro hrun hheight
    obtain ⟨_, _, hrest⟩ := hrun
    obtain ⟨hunspent, hfees⟩ := hrest () hheight
    obtain ⟨m, hm⟩ := (getItem_raises.iff_ok not_validation_of_foreign).mp hunspent
    obtain ⟨hraises, _⟩ := hfees m hm
    have hok := ((get_block_fees_raises _ m).iff_ok not_validation_of_foreign).mp hraises
    exact ⟨m, getItem_eq_ok.mp hm, get_block_fees_ok_iff.mp hok⟩
  · intro hcovered
    refine ⟨RaisesOnly.ok rfl, RaisesOnly.raiseIf rfl, fun _ hheight => ?_⟩
    obtain ⟨m, hm, hreferences⟩ := hcovered hheight
    refine ⟨RaisesOnly.ok (getItem_eq_ok.mpr hm), fun m' hm' => ?_⟩
    obtain rfl := Option.some.inj (hm.symm.trans (getItem_eq_ok.mp hm'))
    obtain ⟨fees, hfees⟩ := get_block_fees_ok_iff.mpr hreferences
    exact ⟨RaisesOnly.ok hfees, fun _ _ => RaisesOnly.raiseIf rfl⟩

end Validation

-- A block that is in order by itself and has a known parent is refused by a
-- ValidationError, or accepted, exactly where the lookups are covered.
theorem validation_raises_only_iff (h : Consistent crypto coinstate) (htime : TimestampsIncrease coinstate)
    (hverify : VerifyAnswers crypto) {block parent : Block} {now : Nat}
    (hself : validate_block_by_itself crypto block now = .ok ())
    (hparent : coinstate.block_by_hash.lookup block.previous_block_hash = some parent)
    (hheight : MAX_KNOWN_HASH_HEIGHT < block.height) :
    RaisesOnly PyError.is_validation_error (validate_block_in_coinstate crypto block coinstate) ↔
      LookupsCovered crypto coinstate parent block := by
  have hread := readable_of_validate hself
  obtain ⟨coinbase, transactions, hblock, hvalid⟩ := hread.by_itself
  have hevidence := evidence_raises_iff h hparent hread (by omega)
  have hcoinbase := coinbase_raises_iff coinbase hparent
  have hsummary : validate_block_summary_in_coinstate crypto block.header.summary coinstate = .ok () ↔
      parent.timestamp < block.timestamp ∧
        calc_target crypto coinstate (parent.height + 1) block.timestamp parent = .ok block.target := by
    rw [validate_block_summary_in_coinstate_eq_ok, hparent]
    simp
  rw [validate_block_in_coinstate_of_lt hheight]
  unfold validate_block_past_checkpoints
  constructor
  · intro hrun
    have hpast := fun hlater htarget => (raisesOnly_bind_iff.mp hrun).2 () (hsummary.mpr ⟨hlater, htarget⟩)
    refine ⟨fun hlater htarget => hevidence.mp (raisesOnly_bind_iff.mp (hpast hlater htarget)).1, ?_⟩
    intro hlater htarget hright
    have hchecked := (raisesOnly_bind_iff.mp (hpast hlater htarget)).2 _ hright
    have hrest := (raisesOnly_bind_iff.mp hchecked).2 () (raiseIf_eq_ok.mpr (not_not.mpr rfl))
    rw [hblock] at hrest ⊢
    rw [hblock] at hcoinbase
    exact hcoinbase.mp (raisesOnly_bind_iff.mp hrest).1
  · intro hcovered
    refine (summary_raises h htime hparent).bind fun _ hsummaryOk => ?_
    obtain ⟨hlater, htarget⟩ := hsummary.mp hsummaryOk
    refine (hevidence.mpr (hcovered.samples hlater htarget)).bind fun evidence hright => ?_
    refine (RaisesOnly.raiseIf rfl).bind fun _ hsame => ?_
    rw [raiseIf_eq_ok, not_not] at hsame
    have hreferences := hcovered.references hlater htarget (hsame ▸ hright)
    have hfirst := hcoinbase.mpr hreferences
    rw [hblock]
    refine hfirst.bind fun _ hcoinbaseOk => RaisesOnly.checkAll fun transaction ht => ?_
    obtain ⟨_, m, _, hm, _, _⟩ := validate_coinbase_transaction_in_coinstate_eq_ok.mp hcoinbaseOk
    have hraises := validate_at_head_raises hverify (hvalid transaction ht) (Finmap.mem_of_lookup_eq_some hm)
    refine hraises.mono ?_
    intro e he
    cases e <;> first | rfl | cases he

-- A block that claims to stand far above its parent, which is the root. The
-- first height that its hash picks for the chain sample is not there.
section Overshoot

-- Residues as before, but for scrypt ones that do not leave the first bytes 0.
def scattered : Crypto :=
  { Crypto.residue with
    scrypt := fun password salt => .ofNat 32 (2 ^ 64 * (from_bytes (2 :: password ++ salt) % (2 ^ 192 - 237))) }

def overshootCoinbase : Transaction :=
  (construct_coinbase_transaction 200000 [] ∅ [] ⟨.ofNat 64 7⟩).toOption.getD genesis_transaction

def overshootBlock : Block where
  header := {
    summary := {
      height := 200000
      previous_block_hash := .ofNat 32 1
      merkle_root_hash := (calc_merkle_root_hash scattered [overshootCoinbase]).toOption.getD zero_hash
      timestamp := 1
      target := INITIAL_TARGET
      nonce := 0 }
    pow_evidence := genesis_header.pow_evidence }
  transactions := [overshootCoinbase]

theorem overshoot_by_itself : validate_block_by_itself scattered overshootBlock 1 = .ok () := by
  decide +kernel

theorem overshoot_raises :
    validate_block_past_checkpoints scattered overshootBlock (towerCoinstate 0) = .error .KeyError := by
  decide +kernel

theorem overshoot_above : MAX_KNOWN_HASH_HEIGHT < overshootBlock.height := by
  rw [max_known_hash_height_eq]
  show 163000 < 200000
  decide

theorem scattered_answers : VerifyAnswers scattered := fun _ _ _ => ⟨_, rfl⟩

theorem scattered_consistent : Consistent scattered (towerCoinstate 0) where
  indexed := tower_indexed (by decide)
  hashed h block hlookup := by
    obtain ⟨i, _, rfl, rfl⟩ := (tower_lookup (n := 0) (by decide)).mp hlookup
    rfl
  current := (tower_consistent (n := 0) (by decide)).current

theorem overshoot_parent :
    (towerCoinstate 0).block_by_hash.lookup overshootBlock.previous_block_hash = some (towerBlock 0) :=
  (tower_lookup (n := 0) (by decide)).mpr ⟨0, Nat.le_refl _, rfl, rfl⟩

theorem validation_raises_a_key_error :
    ¬∀ (crypto : Crypto) (coinstate : CoinState) (block parent : Block) (now : Nat), Consistent crypto coinstate →
      TimestampsIncrease coinstate → VerifyAnswers crypto → validate_block_by_itself crypto block now = .ok () →
      coinstate.block_by_hash.lookup block.previous_block_hash = some parent →
      MAX_KNOWN_HASH_HEIGHT < block.height →
      RaisesOnly PyError.is_validation_error (validate_block_in_coinstate crypto block coinstate) := by
  intro hclaim
  have honly := hclaim scattered (towerCoinstate 0) overshootBlock (towerBlock 0) 1 scattered_consistent
    (tower_increases (by decide)) scattered_answers overshoot_by_itself overshoot_parent overshoot_above
  have hraise : validate_block_in_coinstate scattered overshootBlock (towerCoinstate 0) = .error .KeyError := by
    rw [validate_block_in_coinstate_of_lt overshoot_above, overshoot_raises]
  cases honly _ hraise

theorem validation_raises_only_iff_overshoot :
    RaisesOnly PyError.is_validation_error (validate_block_in_coinstate scattered overshootBlock (towerCoinstate 0)) ↔
      LookupsCovered scattered (towerCoinstate 0) (towerBlock 0) overshootBlock :=
  validation_raises_only_iff scattered_consistent (tower_increases (by decide)) scattered_answers overshoot_by_itself
    overshoot_parent overshoot_above

end Overshoot

end Skepticoin
