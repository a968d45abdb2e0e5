import Skepticoin.CoinState.Theorems

namespace Skepticoin

-- A chain with its newest block first, and the coinstate that holds it. Every
-- block but the first names the one before it, and passes all checks but the
-- shortcut for known heights.
inductive Chain (crypto : Crypto) (Genesis : Block → Prop) : List Block → CoinState → Prop
  | genesis {block : Block} {coinstate : CoinState} :
    block.previous_block_hash = zero_hash → Genesis block →
    CoinState.empty.add_block_no_validation crypto block = .ok coinstate →
    Chain crypto Genesis [block] coinstate
  | extend {block parent : Block} {blocks : List Block} {coinstate next : CoinState}
      (current_timestamp : Nat) :
    Chain crypto Genesis (parent :: blocks) coinstate →
    parent.hash crypto = .ok block.previous_block_hash →
    validate_block_by_itself crypto block current_timestamp = .ok () →
    validate_block_past_checkpoints crypto block coinstate = .ok () →
    coinstate.add_block_no_validation crypto block = .ok next →
    Chain crypto Genesis (block :: parent :: blocks) next

variable {crypto : Crypto} {Genesis : Block → Prop}

-- The coinstate holds the newest block under its hash.
theorem Chain.holds_newest {block : Block} {blocks : List Block} {coinstate : CoinState}
    (h : Chain crypto Genesis (block :: blocks) coinstate) :
    ∃ hash, block.hash crypto = .ok hash ∧ coinstate.block_by_hash.lookup hash = some block := by
  cases h with
  | genesis _ _ hadd =>
      obtain ⟨hash, _, _, hhash, _, _, hblock, _⟩ := CoinState.lookup_added hadd
      exact ⟨hash, hhash, hblock⟩
  | extend _ _ _ _ _ hadd =>
      obtain ⟨hash, _, _, hhash, _, _, hblock, _⟩ := CoinState.lookup_added hadd
      exact ⟨hash, hhash, hblock⟩

theorem height_eq_of_validate {block parent : Block} {blocks : List Block} {coinstate : CoinState}
    (hchain : Chain crypto Genesis (parent :: blocks) coinstate)
    (hparent : parent.hash crypto = .ok block.previous_block_hash)
    (hvalid : validate_block_past_checkpoints crypto block coinstate = .ok ()) :
    block.height = parent.height + 1 := by
  obtain ⟨_, _, _, _, _, hcoinbase, _⟩ := validate_block_past_checkpoints_eq_ok.mp hvalid
  obtain ⟨⟨previous, hprevious, hheight⟩, _⟩ :=
    validate_coinbase_transaction_in_coinstate_eq_ok.mp hcoinbase
  obtain ⟨hash, hhash, hstored⟩ := hchain.holds_newest
  obtain rfl : hash = block.previous_block_hash := Except.ok.inj (hhash.symm.trans hparent)
  obtain rfl : parent = previous := Option.some.inj (hstored.symm.trans hprevious)
  exact hheight

-- The heights along a chain grow by one from wherever they start.
theorem Chain.length_le_height {block : Block} {blocks : List Block} {coinstate : CoinState}
    (h : Chain crypto Genesis (block :: blocks) coinstate) : blocks.length ≤ block.height := by
  induction blocks generalizing block coinstate with
  | nil => exact Nat.zero_le _
  | cons parent blocks ih =>
      cases h with
      | extend _ hchain hparent _ hvalid _ =>
          have hlower := ih hchain
          have hheight := height_eq_of_validate hchain hparent hvalid
          rw [List.length_cons]
          omega

theorem Chain.heights {block : Block} {blocks : List Block} {coinstate : CoinState}
    (h : Chain crypto Genesis (block :: blocks) coinstate) :
    ∀ older ∈ blocks, older.height < block.height := by
  induction blocks generalizing block coinstate with
  | nil => simp
  | cons parent blocks ih =>
      cases h with
      | extend _ hchain hparent _ hvalid _ =>
          have hheight := height_eq_of_validate hchain hparent hvalid
          intro older holder
          rcases List.mem_cons.mp holder with rfl | holder
          · omega
          · have hlower := ih hchain older holder
            omega

-- A chain of three blocks, mined with residues for hashes; the third spends
-- the coinbase of the second.
section Sample

def sample_key : SECP256k1PublicKey := ⟨.ofNat 64 7⟩

def sample_genesis : Block :=
  (construct_block_for_mining_genesis .residue [] sample_key 1000 [] 0).toOption.getD
    (genesis_block .residue)

def sample_coinstate : CoinState :=
  (CoinState.empty.add_block_no_validation .residue sample_genesis).toOption.getD .empty

def sample_first : Block :=
  (construct_block_for_mining .residue sample_coinstate [] sample_key 2000 [1] 0).toOption.getD
    (genesis_block .residue)

def sample_coinstate_first : CoinState :=
  (sample_coinstate.add_block_no_validation .residue sample_first).toOption.getD .empty

-- The hash of the coinbase of sample_first.
def sample_coinbase_hash : Hash :=
  ((sample_first.transactions.head?.bind fun coinbase => (coinbase.hash .residue).toOption).getD zero_hash)

def sample_spend : Transaction where
  inputs := [⟨⟨sample_coinbase_hash, 0, first_index_le⟩, some (.SECP256k1Signature sample_key.public_key)⟩]
  outputs := [⟨600000000, sample_key⟩, ⟨300000000, sample_key⟩]

def sample_second : Block :=
  (construct_block_for_mining .residue sample_coinstate_first [sample_spend] sample_key 3000 [2] 0).toOption.getD
    (genesis_block .residue)

def sample_coinstate_second : CoinState :=
  (sample_coinstate_first.add_block_no_validation .residue sample_second).toOption.getD .empty

theorem sample_runs :
    sample_genesis.previous_block_hash = zero_hash ∧
    CoinState.empty.add_block_no_validation .residue sample_genesis = .ok sample_coinstate ∧
    sample_genesis.hash .residue = .ok sample_first.previous_block_hash ∧
    validate_block_by_itself .residue sample_first 2000 = .ok () ∧
    validate_block_past_checkpoints .residue sample_first sample_coinstate = .ok () ∧
    sample_coinstate.add_block_no_validation .residue sample_first = .ok sample_coinstate_first ∧
    sample_first.hash .residue = .ok sample_second.previous_block_hash ∧
    validate_block_by_itself .residue sample_second 3000 = .ok () ∧
    validate_block_past_checkpoints .residue sample_second sample_coinstate_first = .ok () ∧
    sample_coinstate_first.add_block_no_validation .residue sample_second =
      .ok sample_coinstate_second := by
  decide +kernel

theorem sample_chain (hgenesis : Genesis sample_genesis) :
    Chain .residue Genesis [sample_second, sample_first, sample_genesis] sample_coinstate_second := by
  obtain ⟨hprevious, hadd, hparent, hself, hvalid, hadd', hparent', hself', hvalid', hadd''⟩ := sample_runs
  have hstart : Chain .residue Genesis [sample_genesis] sample_coinstate :=
    .genesis hprevious hgenesis hadd
  have hfirst : Chain .residue Genesis [sample_first, sample_genesis] sample_coinstate_first :=
    .extend 2000 hstart hparent hself hvalid hadd'
  exact .extend 3000 hfirst hparent' hself' hvalid' hadd''

end Sample

end Skepticoin
