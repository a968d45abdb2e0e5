import Skepticoin.Consensus.Theorems

namespace Skepticoin

open Guard FMap

namespace CoinState

variable {crypto : Crypto}

theorem add_block_no_validation_eq_ok {self next : CoinState} {block : Block} :
    self.add_block_no_validation crypto block = .ok next ↔
      ∃ before after hash index current,
        self.previous_unspent_transaction_outs block = .ok before ∧
        uto_apply_block crypto before block = .ok after ∧
        block.hash crypto = .ok hash ∧
        self.next_block_by_height_by_hash hash block = .ok index ∧
        self.next_current_chain_hash hash block = .ok current ∧
        { block_by_hash := self.block_by_hash.insert hash block
          unspent_transaction_outs_by_hash := self.unspent_transaction_outs_by_hash.insert hash after
          block_by_height_by_hash := index
          heads := (self.heads.erase block.previous_block_hash).insert hash block
          current_chain_hash := some current } = next := by
  simp [add_block_no_validation]

theorem add_block_eq_ok {self next : CoinState} {block : Block} {current_timestamp : Nat} :
    self.add_block crypto block current_timestamp = .ok next ↔
      validate_block_by_itself crypto block current_timestamp = .ok () ∧
      validate_block_in_coinstate crypto block self = .ok () ∧
      self.add_block_no_validation crypto block = .ok next := by
  simp [add_block]

theorem zero_eq : zero crypto = empty.add_block_no_validation crypto (genesis_block crypto) := by
  rw [zero, genesis_deserialize]
  rfl

-- Each map changes under the new hash only.
theorem maps_of_add {self next : CoinState} {block : Block} {hash : Hash}
    (hhash : block.hash crypto = .ok hash) (hadd : self.add_block_no_validation crypto block = .ok next) :
    ∃ before after, self.previous_unspent_transaction_outs block = .ok before ∧
      uto_apply_block crypto before block = .ok after ∧
      next.block_by_hash = self.block_by_hash.insert hash block ∧
      next.unspent_transaction_outs_by_hash =
        self.unspent_transaction_outs_by_hash.insert hash after := by
  obtain ⟨before, after, hash', _, _, hbefore, hafter, hhash', _, _, rfl⟩ :=
    add_block_no_validation_eq_ok.mp hadd
  have hsame : hash' = hash := Except.ok.inj (hhash'.symm.trans hhash)
  subst hsame
  exact ⟨before, after, hbefore, hafter, rfl, rfl⟩

-- What one successful call leaves behind under the new hash.
theorem lookup_added {self next : CoinState} {block : Block}
    (h : self.add_block_no_validation crypto block = .ok next) :
    ∃ hash before after, block.hash crypto = .ok hash ∧
      self.previous_unspent_transaction_outs block = .ok before ∧
      uto_apply_block crypto before block = .ok after ∧
      next.block_by_hash.lookup hash = some block ∧
      next.unspent_transaction_outs_by_hash.lookup hash = some after := by
  obtain ⟨before, after, hash, _, _, hbefore, hafter, hhash, _, _, rfl⟩ :=
    add_block_no_validation_eq_ok.mp h
  exact ⟨hash, before, after, hhash, hbefore, hafter, Finmap.lookup_insert _, Finmap.lookup_insert _⟩

end CoinState

end Skepticoin
