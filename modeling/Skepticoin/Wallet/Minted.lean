import Skepticoin.Consensus.Construction
import Skepticoin.Datatypes.RoundTrip
import Skepticoin.Wallet.Balance

namespace Skepticoin

open Guard FMap

variable {crypto : Crypto} {m m' : UnspentTransactionOuts} {transaction : Transaction} {outputs : List Output}

section Totals

-- Adding the outputs of a new transaction adds what they measure.
theorem uto_add_outputs_total (measure : Output → Nat) {i : Nat}
    (h : uto_add_outputs crypto transaction m i outputs = .ok m')
    (hnew : ∀ reference ∈ m, transaction.hash crypto = .ok reference.hash → reference.index < i) :
    total measure m' = total measure m + (outputs.map measure).sum := by
  induction outputs generalizing m i with
  | nil =>
      rw [← Except.ok.inj h]
      rfl
  | cons output outputs ih =>
      simp only [uto_add_outputs, bind_eq_ok] at h
      obtain ⟨hash, hhash, added, hadded, hrest⟩ := h
      obtain ⟨haddedHash, haddedIndex⟩ := output_reference_new_eq_ok hadded
      have hfresh : added ∉ m := by
        intro hmem
        have hlower := hnew added hmem (by rw [haddedHash]; exact hhash)
        omega
      rw [ih hrest, total_insert_of_notMem measure output hfresh, List.map_cons, List.sum_cons]
      · omega
      · intro reference hmem hown
        cases Finmap.mem_insert.mp hmem with
        | inl hself =>
            rw [hself, haddedIndex]
            omega
        | inr hold =>
            have hlower := hnew reference hold hown
            omega

-- What there is then comes from the outputs.
theorem uto_add_outputs_from_empty (h : uto_add_outputs crypto transaction ∅ 0 outputs = .ok m) :
    (∀ measure, total measure m = (outputs.map measure).sum) ∧
      ∀ reference output, m.lookup reference = some output → output ∈ outputs := by
  have hnothing : ∀ reference ∈ (∅ : UnspentTransactionOuts), False := fun _ hmem => Finmap.notMem_empty hmem
  constructor
  · intro measure
    rw [uto_add_outputs_total measure h fun reference hmem => (hnothing reference hmem).elim, total_empty, Nat.zero_add]
  · intro reference output hlookup
    rw [uto_add_outputs_lookup h] at hlookup
    split at hlookup
    · exact List.mem_of_getElem? hlookup
    · cases hlookup

end Totals

section Minting

-- A chain of one block, and in it one transaction, which makes what it likes.
def minting (outputs : List Output) (cached_hash : Option Hash) : Transaction where
  inputs := [⟨construct_reference_to_thin_air, some (.CoinbaseData ⟨0, [], first_index_le, no_signature_le⟩)⟩]
  outputs := outputs
  cached_hash := cached_hash

def minted_block (transaction : Transaction) : Block where
  header := genesis_header
  transactions := [transaction]

def minted_coinstate (crypto : Crypto) (transaction : Transaction) : CoinState :=
  (CoinState.empty.add_block_no_validation crypto (minted_block transaction)).toOption.getD .empty

theorem minted_block_hash (crypto : Crypto) (transaction : Transaction) :
    (minted_block transaction).hash crypto = .ok (crypto.sha256d genesis_header_data) := by
  have hserialize := genesis_header_serialize
  simp [minted_block, Block.hash, BlockHeader.hash, hserialize]

theorem minting_hash (hfits : ∀ output ∈ outputs, output.Fits) :
    ∃ hash, (minting outputs none).hash crypto = .ok hash := by
  have hinputs : ∀ input ∈ (minting outputs none).inputs, input.Fits := by
    intro input hinput
    rw [List.mem_singleton.mp hinput]
    exact ⟨_, rfl, Nat.zero_le 255⟩
  obtain ⟨bytes, hbytes⟩ := transaction_serialize_ok ⟨hinputs, hfits⟩
  exact ⟨crypto.sha256d bytes, bind_eq_ok.mpr ⟨bytes, hbytes, rfl⟩⟩

-- At its head, the balances match what the transaction made.
theorem minted_matches {hash : Hash} (hhash : transaction.hash crypto = .ok hash)
    (hcount : transaction.outputs.length ≤ 2 ^ 32) :
    ∃ m balances, Wallet.BalancesMatch crypto (minted_coinstate crypto transaction) 1 m balances ∧
      uto_add_outputs crypto transaction ∅ 0 transaction.outputs = .ok m := by
  obtain ⟨m, hadded, _⟩ := uto_add_outputs_ok (m := ∅) hhash 0 transaction.outputs (by omega)
  have hblock := minted_block_hash crypto transaction
  have hroot : (minted_block transaction).previous_block_hash = zero_hash := rfl
  have hparent := Block.parent_eq_none.mpr hroot
  have happly : uto_apply_block crypto ∅ (minted_block transaction) = .ok m := by
    simp [uto_apply_block, minted_block, uto_apply_transaction, uto_apply_transactions, hadded]
  have hbefore : CoinState.empty.previous_unspent_transaction_outs (minted_block transaction) = .ok ∅ := if_pos hroot
  obtain ⟨coinstate, hadd⟩ : ∃ coinstate,
      CoinState.empty.add_block_no_validation crypto (minted_block transaction) = .ok coinstate :=
    ⟨_, CoinState.add_block_no_validation_eq_ok.mpr ⟨∅, m, _, _, _, hbefore, happly, hblock, if_pos hroot, rfl, rfl⟩⟩
  have hminted : minted_coinstate crypto transaction = coinstate := by
    rw [minted_coinstate, hadd]
    rfl
  have hrep := CoinState.represents_root hparent hblock hadd
  have hspends : ∀ block ∈ [minted_block transaction], SpendsUnspent coinstate block := by
    intro block hmem
    rw [List.mem_singleton.mp hmem]
    exact ⟨fun _ _ _ hnone => absurd hnone List.not_mem_nil, List.nodup_nil⟩
  obtain ⟨hcurrent, hleft⟩ : coinstate.current_chain_hash = some (crypto.sha256d genesis_header_data) ∧
      coinstate.unspent_transaction_outs_by_hash.lookup (crypto.sha256d genesis_header_data) = some m := by
    obtain ⟨before, after, hash', _, _, hbefore', happly', hhash', _, hcurrent, rfl⟩ :=
      CoinState.add_block_no_validation_eq_ok.mp hadd
    rw [← Except.ok.inj (hbefore.symm.trans hbefore')] at happly'
    rw [← Except.ok.inj hcurrent, Except.ok.inj (happly.symm.trans happly'),
      Except.ok.inj (hblock.symm.trans hhash')]
    exact ⟨rfl, Finmap.lookup_insert _⟩
  obtain ⟨m', balances, hunspent, hmatch⟩ := Wallet.balances_match_at_head hcurrent
    (.genesis hroot (applied_of_known hrep List.mem_cons_self)) hspends (List.pairwise_singleton _ _)
  rw [hleft] at hunspent
  rw [hminted]
  exact ⟨m', balances, hmatch 1 (Nat.le_refl _), Option.some.inj hunspent ▸ hadded⟩

-- All that is minted for the sample key is the sample wallet's to spend.
theorem sample_total (h : uto_add_outputs crypto transaction ∅ 0 outputs = .ok m)
    (hkey : ∀ output ∈ outputs, output.public_key = sample_key) :
    totalOutside (Wallet.paidToAny Wallet.sample_wallet.public_keys) Wallet.sample_wallet.spent_transaction_outputs m =
      (outputs.map Output.value).sum := by
  have hnone : Wallet.sample_wallet.spent_transaction_outputs = ∅ := rfl
  have hpublic : Wallet.sample_wallet.public_keys = [sample_key.public_key.1] := rfl
  rw [hnone, totalOutside_nil, (uto_add_outputs_from_empty h).1]
  congr 1
  apply List.map_congr_left
  intro output houtput
  rw [Wallet.paidToAny, hpublic, hkey output houtput, if_pos (List.mem_singleton_self _)]

-- One output for the sample wallet.
def small_coinstate : CoinState := minted_coinstate .residue (minting [⟨600, sample_key⟩] none)

theorem small_matches : ∃ m balances, Wallet.BalancesMatch .residue small_coinstate 1 m balances ∧
    (∀ reference output, m.lookup reference = some output → output.value < 2 ^ 64) ∧
    totalOutside (Wallet.paidToAny Wallet.sample_wallet.public_keys)
      Wallet.sample_wallet.spent_transaction_outputs m = 600 ∧
    total Output.value m = 600 := by
  obtain ⟨hash, hhash⟩ : ∃ hash, (minting [⟨600, sample_key⟩] none).hash .residue = .ok hash :=
    minting_hash (by simp [Output.Fits])
  obtain ⟨m, balances, hmatch, hadded⟩ := minted_matches hhash (by simp [minting])
  have hadded' : uto_add_outputs _ _ ∅ 0 [⟨600, sample_key⟩] = .ok m := hadded
  obtain ⟨htotal, honly⟩ := uto_add_outputs_from_empty hadded'
  refine ⟨m, balances, hmatch, ?_, sample_total hadded' (by simp), htotal _⟩
  intro reference output hlookup
  rw [List.mem_singleton.mp (honly reference output hlookup)]
  decide

end Minting

end Skepticoin
