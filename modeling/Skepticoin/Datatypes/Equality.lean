import Skepticoin.Datatypes.RoundTrip

namespace Skepticoin

open Guard Codec

section Heights

-- The two fields that an __eq__ leaves out: the height in CoinbaseData and the
-- height in BlockSummary.
def Signature.coinbase_height : Signature → Option Nat
  | .CoinbaseData data => some data.height
  | _ => none

def Signature.forget_height : Signature → Signature
  | .CoinbaseData data => .CoinbaseData ⟨0, data.signature, first_index_le, data.signature_le⟩
  | signature => signature

def Input.coinbase_height (input : Input) : Option Nat := input.signature.bind Signature.coinbase_height

def Input.forget_height (input : Input) : Input :=
  ⟨input.output_reference, input.signature.map Signature.forget_height⟩

def Transaction.coinbase_heights (transaction : Transaction) : List (Option Nat) :=
  transaction.inputs.map Input.coinbase_height

def Transaction.forget_heights (transaction : Transaction) : Transaction where
  inputs := transaction.inputs.map Input.forget_height
  outputs := transaction.outputs

def Block.heights (block : Block) : Nat × List (List (Option Nat)) :=
  (block.height, block.transactions.map Transaction.coinbase_heights)

def Block.forget_heights (block : Block) : Block where
  header := { block.header with summary := { block.header.summary with height := 0 } }
  transactions := block.transactions.map Transaction.forget_heights

-- The same in everything but the heights, and not in those.
def Transaction.HeightsAlone (a b : Transaction) : Prop :=
  a.forget_heights = b.forget_heights ∧ a.coinbase_heights ≠ b.coinbase_heights

def Block.HeightsAlone (a b : Block) : Prop :=
  a.forget_heights = b.forget_heights ∧ a.heights ≠ b.heights

-- The fields of a transaction, without the cached hash.
def Transaction.content (transaction : Transaction) : List Input × List Output :=
  (transaction.inputs, transaction.outputs)

end Heights

section Lists

variable {α β γ δ : Type}

-- The == of two lists compares their elements in turn.
theorem isEqv_iff_map {equal : α → α → Bool} {f : α → β} (h : ∀ x y, equal x y = true ↔ f x = f y)
    (xs ys : List α) : xs.isEqv ys equal = true ↔ xs.map f = ys.map f := by
  induction xs generalizing ys with
  | nil => cases ys <;> simp
  | cons x xs ih =>
      cases ys with
      | nil => simp
      | cons y ys =>
          rw [List.isEqv_cons_cons, Bool.and_eq_true, h, ih, List.map_cons, List.map_cons, List.cons.injEq]

theorem map_eq_and_map_eq {f : α → β} {g : α → γ} {k : α → δ}
    (h : ∀ x y, f x = f y ∧ g x = g y ↔ k x = k y) (xs ys : List α) :
    xs.map f = ys.map f ∧ xs.map g = ys.map g ↔ xs.map k = ys.map k := by
  induction xs generalizing ys with
  | nil => cases ys <;> simp
  | cons x xs ih =>
      cases ys with
      | nil => simp
      | cons y ys =>
          simp only [List.map_cons, List.cons.injEq, ← h, ← ih]
          tauto

end Lists

section Equality

theorem signature_eq_iff {a b : Signature} : a.eq b = true ↔ a.forget_height = b.forget_height := by
  cases a <;> cases b <;> simp [Signature.eq, Signature.forget_height]

theorem signature_same_iff {a b : Signature} :
    a.forget_height = b.forget_height ∧ a.coinbase_height = b.coinbase_height ↔ a = b := by
  cases a with
  | SignableEquivalent => cases b <;> simp [Signature.forget_height, Signature.coinbase_height]
  | SECP256k1Signature signature => cases b <;> simp [Signature.forget_height, Signature.coinbase_height]
  | CoinbaseData data =>
      cases b with
      | SignableEquivalent => simp [Signature.forget_height]
      | SECP256k1Signature signature => simp [Signature.forget_height]
      | CoinbaseData data' =>
          obtain ⟨height, signature, _, _⟩ := data
          obtain ⟨height', signature', _, _⟩ := data'
          simp [Signature.forget_height, Signature.coinbase_height, and_comm]

theorem input_eq_iff (a b : Input) : a.eq b = true ↔ a.forget_height = b.forget_height := by
  obtain ⟨reference, signature⟩ := a
  obtain ⟨reference', signature'⟩ := b
  cases signature with
  | none => cases signature' <;> simp [Input.eq, Input.forget_height]
  | some signature => cases signature' <;> simp [Input.eq, Input.forget_height, signature_eq_iff]

theorem input_same_iff (a b : Input) :
    a.forget_height = b.forget_height ∧ a.coinbase_height = b.coinbase_height ↔ a = b := by
  obtain ⟨reference, signature⟩ := a
  obtain ⟨reference', signature'⟩ := b
  cases signature with
  | none => cases signature' <;> simp [Input.forget_height, Input.coinbase_height]
  | some signature =>
      cases signature' with
      | none => simp [Input.forget_height]
      | some signature' =>
          have hsame := signature_same_iff (a := signature) (b := signature')
          simp [Input.forget_height, Input.coinbase_height, ← hsame, and_assoc]

theorem transaction_eq_iff (a b : Transaction) : a.eq b = true ↔ a.forget_heights = b.forget_heights := by
  have hinputs := isEqv_iff_map input_eq_iff a.inputs b.inputs
  simp [Transaction.eq, Transaction.forget_heights, hinputs]

theorem transaction_same_iff (a b : Transaction) :
    a.forget_heights = b.forget_heights ∧ a.coinbase_heights = b.coinbase_heights ↔ a.content = b.content := by
  have hinputs := map_eq_and_map_eq (k := id) input_same_iff a.inputs b.inputs
  simp only [List.map_id] at hinputs
  simp only [Transaction.forget_heights, Transaction.coinbase_heights, Transaction.content, Prod.mk.injEq,
    ← hinputs, Transaction.mk.injEq, and_true]
  tauto

theorem block_eq_iff {a b : Block} : a.eq b = true ↔ a.forget_heights = b.forget_heights := by
  obtain ⟨⟨summary, evidence⟩, transactions, _⟩ := a
  obtain ⟨⟨summary', evidence'⟩, transactions', _⟩ := b
  have hlist := isEqv_iff_map transaction_eq_iff transactions transactions'
  simp [Block.eq, BlockHeader.eq, BlockSummary.eq, Block.forget_heights, hlist, and_assoc]

theorem block_same_iff {a b : Block} :
    a.forget_heights = b.forget_heights ∧ a.heights = b.heights ↔
      a.header = b.header ∧ a.transactions.map Transaction.content = b.transactions.map Transaction.content := by
  obtain ⟨⟨⟨height, _, _, _, _, _⟩, evidence⟩, transactions, _⟩ := a
  obtain ⟨⟨⟨height', _, _, _, _, _⟩, evidence'⟩, transactions', _⟩ := b
  have hlist := map_eq_and_map_eq transaction_same_iff transactions transactions'
  rw [← hlist]
  simp only [Block.forget_heights, Block.heights, Block.mk.injEq, BlockHeader.mk.injEq, BlockSummary.mk.injEq,
    Prod.mk.injEq, true_and, and_true]
  tauto

end Equality

section Serialized

variable {crypto : Crypto}

theorem serialize_of_content {a b : Transaction} (h : a.content = b.content) : a.serialize = b.serialize := by
  obtain ⟨hinputs, houtputs⟩ := Prod.mk.inj h
  rw [Transaction.serialize, Transaction.serialize, hinputs, houtputs]

theorem transaction_serialize_iff {a b : Transaction} (ha : a.Fits) :
    a.serialize = b.serialize ↔ a.content = b.content := by
  constructor
  · intro h
    obtain ⟨bytes, hbytes⟩ := transaction_serialize_ok ha
    obtain ⟨hinputs, houtputs⟩ := transaction_serialize_inj hbytes (h ▸ hbytes)
    exact Prod.ext hinputs houtputs
  · exact serialize_of_content

-- What the decoder returns for a list of transactions tells what they were.
theorem content_of_recached {transactions decoded : List Transaction}
    (h : List.Forall₂ (Recached crypto) transactions decoded) :
    transactions.map Transaction.content = decoded.map Transaction.content := by
  induction h with
  | nil => rfl
  | cons hfirst _ ih =>
      obtain ⟨_, _, rfl⟩ := hfirst
      rw [List.map_cons, List.map_cons, ih]
      rfl

theorem block_serialize_iff {a b : Block} (ha : a.Fits) (hb : b.Fits) :
    a.serialize = b.serialize ↔
      a.header = b.header ∧ a.transactions.map Transaction.content = b.transactions.map Transaction.content := by
  constructor
  · intro h
    obtain ⟨bytes, hbytes⟩ := block_serialize_ok ha
    obtain ⟨_, decoded, _, hdecoded, hreads⟩ := strict_reads_block .residue ha.header.evidence hbytes
    obtain ⟨_, decoded', _, hdecoded', hreads'⟩ := strict_reads_block .residue hb.header.evidence (h ▸ hbytes)
    have hsame := (hreads.inj hreads' (rfl : bytes ++ [] = bytes ++ [])).1
    obtain ⟨hheader, hlist, _⟩ := Block.mk.inj hsame
    refine ⟨hheader, ?_⟩
    rw [content_of_recached hdecoded, hlist, ← content_of_recached hdecoded']
  · intro h
    have hlist : List.Forall₂ (fun x y => Transaction.serialize y = Transaction.serialize x)
        b.transactions a.transactions := by
      have hmap : List.Forall₂ (fun content content' => content = content')
          (a.transactions.map Transaction.content) (b.transactions.map Transaction.content) := by
        rw [h.2]
        exact List.forall₂_same.mpr fun _ _ => rfl
      have hcontent := List.forall₂_map_right_iff.mp (List.forall₂_map_left_iff.mp hmap)
      exact hcontent.flip.imp fun _ _ heq => serialize_of_content heq
    have hlength : a.transactions.length = b.transactions.length := by
      simpa using congrArg List.length h.2
    rw [Block.serialize, Block.serialize, h.1, stream_serialize_list, stream_serialize_list, hlength,
      collect_congr hlist]

end Serialized

section ByContent

-- For one pair: == says that the serializations are the same, and the Python
-- hashes then are too, where none was cached.
def Transaction.EqualByContent (crypto : Crypto) (a b : Transaction) : Prop :=
  (a.eq b = true ↔ a.serialize = b.serialize) ∧
    (a.eq b = true → a.cached_hash = none → b.cached_hash = none → a.hash crypto = b.hash crypto)

def Block.EqualByContent (a b : Block) : Prop := a.eq b = true ↔ a.serialize = b.serialize

variable {crypto : Crypto}

variable (crypto) in
theorem transaction_equal_by_content_iff {a b : Transaction} (ha : a.Fits) :
    Transaction.EqualByContent crypto a b ↔ ¬a.HeightsAlone b := by
  have hsame := transaction_same_iff a b
  unfold Transaction.EqualByContent Transaction.HeightsAlone
  rw [transaction_eq_iff, transaction_serialize_iff ha, ← hsame]
  constructor
  · rintro ⟨hiff, _⟩ ⟨hforget, hne⟩
    exact hne (hiff.mp hforget).2
  · intro halone
    have hheights : a.forget_heights = b.forget_heights → a.coinbase_heights = b.coinbase_heights := by
      intro hforget
      by_contra hne
      exact halone ⟨hforget, hne⟩
    refine ⟨⟨fun hforget => ⟨hforget, hheights hforget⟩, And.left⟩, ?_⟩
    intro hforget hcached hcached'
    have hcontent := hsame.mp ⟨hforget, hheights hforget⟩
    rw [Transaction.hash, Transaction.hash, hcached, hcached', serialize_of_content hcontent]

theorem block_equal_by_content_iff {a b : Block} (ha : a.Fits) (hb : b.Fits) :
    a.EqualByContent b ↔ ¬a.HeightsAlone b := by
  unfold Block.EqualByContent Block.HeightsAlone
  rw [block_eq_iff, block_serialize_iff ha hb, ← block_same_iff]
  tauto

-- Two coinbase transactions that only differ in the height of their data, and
-- two blocks that only differ in their height.
def sample_coinbase (height : Nat) (height_le : height ≤ 0xFFFFFFFF) : Transaction where
  inputs := [⟨⟨zero_hash, 0, first_index_le⟩, some (.CoinbaseData ⟨height, [], height_le, no_signature_le⟩)⟩]
  outputs := []

def sample_block (height : Nat) : Block where
  header := {
    summary := {
      height
      previous_block_hash := zero_hash
      merkle_root_hash := zero_hash
      timestamp := 0
      target := zero_hash
      nonce := 0 }
    pow_evidence := ⟨zero_hash, to_bytes CHAIN_SAMPLE_TOTAL_SIZE 0, zero_hash⟩ }
  transactions := []

theorem sample_coinbase_fits {height : Nat} (hle : height ≤ 0xFFFFFFFF) : (sample_coinbase height hle).Fits := by
  refine ⟨?_, ?_⟩
  · intro input hinput
    rw [List.mem_singleton.mp hinput]
    exact ⟨_, rfl, Nat.zero_le _⟩
  · intro output houtput
    cases houtput

theorem sample_block_fits (height : Nat) : (sample_block height).Fits := by
  have hzero : 0 < 2 ^ 32 := by decide
  refine ⟨⟨hzero, hzero, to_bytes_length _ _⟩, ?_⟩
  intro transaction ht
  cases ht

-- == takes transactions and blocks for the same that serialize differently.
theorem equality_ignores_heights :
    (¬∀ a b : Transaction, a.Fits → b.Fits → (a.eq b = true ↔ a.serialize = b.serialize)) ∧
      ¬∀ a b : Block, a.Fits → b.Fits → (a.eq b = true ↔ a.serialize = b.serialize) := by
  constructor
  · intro hclaim
    have hsame := hclaim (sample_coinbase 1 (by decide)) (sample_coinbase 2 (by decide))
      (sample_coinbase_fits _) (sample_coinbase_fits _)
    revert hsame
    decide +kernel
  · intro hclaim
    have hsame := hclaim (sample_block 1) (sample_block 2) (sample_block_fits 1) (sample_block_fits 2)
    revert hsame
    decide +kernel

-- == is about the content for exactly those pairs that do not differ in their
-- heights alone, and so are the membership tests: `transaction in pool`, and the
-- test on a set, which looks at the hash first.
theorem equality_by_content_iff (crypto : Crypto) :
    (∀ a b : Transaction, a.Fits → b.Fits → (Transaction.EqualByContent crypto a b ↔ ¬a.HeightsAlone b)) ∧
      (∀ a b : Block, a.Fits → b.Fits → (a.EqualByContent b ↔ ¬a.HeightsAlone b)) ∧
      (∀ (pool : List Transaction) (t : Transaction), (∀ other ∈ pool, other.Fits) → t.Fits →
        (∀ other ∈ pool, ¬other.HeightsAlone t) →
        (pool.any (fun other => other.eq t) = true ↔ ∃ other ∈ pool, other.serialize = t.serialize)) ∧
      ∀ (seen : List (Hash × Transaction)) (hash : Hash) (t : Transaction), (∀ other ∈ seen, other.2.Fits) →
        t.Fits → (∀ other ∈ seen, ¬other.2.HeightsAlone t) →
        seen.any (fun other => other.1 = hash && other.2.eq t) = true →
        ∃ other ∈ seen, other.2.serialize = t.serialize := by
  refine ⟨fun a b ha _ => transaction_equal_by_content_iff crypto ha, fun a b ha hb => block_equal_by_content_iff ha hb,
    ?_, ?_⟩
  · intro pool t hpool ht halone
    have hpair : ∀ other ∈ pool, (other.eq t = true ↔ other.serialize = t.serialize) := fun other hother =>
      ((transaction_equal_by_content_iff crypto (hpool other hother)).mpr (halone other hother)).1
    rw [List.any_eq_true]
    constructor
    · rintro ⟨other, hother, heq⟩
      exact ⟨other, hother, (hpair other hother).mp heq⟩
    · rintro ⟨other, hother, heq⟩
      exact ⟨other, hother, (hpair other hother).mpr heq⟩
  · intro seen hash t hseen ht halone hany
    obtain ⟨other, hother, hhit⟩ := List.any_eq_true.mp hany
    rw [Bool.and_eq_true] at hhit
    have hpair := (transaction_equal_by_content_iff crypto (hseen other hother)).mpr (halone other hother)
    exact ⟨other, hother, hpair.1.mp hhit.2⟩

theorem equality_by_content_iff_coinbase :
    Transaction.EqualByContent .residue (sample_coinbase 1 (by decide)) (sample_coinbase 1 (by decide)) ∧
      ¬(sample_block 1).EqualByContent (sample_block 2) := by
  obtain ⟨htransactions, hblocks, _, _⟩ := equality_by_content_iff .residue
  constructor
  · refine (htransactions _ _ (sample_coinbase_fits _) (sample_coinbase_fits _)).mpr ?_
    exact fun halone => halone.2 rfl
  · intro hcontent
    refine (hblocks _ _ (sample_block_fits 1) (sample_block_fits 2)).mp hcontent ?_
    exact ⟨rfl, by decide⟩

end ByContent

end Skepticoin
