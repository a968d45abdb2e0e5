import Skepticoin.CoinState.Ancestry

namespace Skepticoin

open Guard FMap

variable {crypto : Crypto} {coinstate : CoinState}

-- The number that the retargeting rule asks for.
def retargeted (previous_target : Hash) (elapsed : Nat) : Nat :=
  min (2 ^ 256 - 1) (from_bytes previous_target.1 * elapsed / DESIRED_TARGET_READJUSTMENT_TIMESPAN)

theorem retargeted_lt (previous_target : Hash) (elapsed : Nat) : retargeted previous_target elapsed < 256 ^ 32 := by
  have hle : retargeted previous_target elapsed ≤ 2 ^ 256 - 1 := Nat.min_le_left _ _
  have hwidth : (256 : Nat) ^ 32 = 2 ^ 256 := by norm_num
  omega

theorem retargeted_mono (previous_target : Hash) {elapsed elapsed' : Nat} (h : elapsed ≤ elapsed') :
    retargeted previous_target elapsed ≤ retargeted previous_target elapsed' := by
  have hproduct := Nat.mul_le_mul_left (from_bytes previous_target.1) h
  exact min_le_min_left _ (Nat.div_le_div_right hproduct)

-- No time that has passed makes the conversion to bytes overflow.
theorem calculate_new_target_eq (previous_target : Hash) (elapsed : Nat) :
    calculate_new_target previous_target (elapsed : Int) = .ok (.ofNat 32 (retargeted previous_target elapsed)) := by
  have hquotient : (((from_bytes previous_target.1 : Nat) : Int) * (elapsed : Int)).fdiv
      (DESIRED_TARGET_READJUSTMENT_TIMESPAN : Int) =
      ((from_bytes previous_target.1 * elapsed / DESIRED_TARGET_READJUSTMENT_TIMESPAN : Nat) : Int) := by
    rw [Int.fdiv_eq_ediv_of_nonneg _ (Int.natCast_nonneg _)]
    push_cast
    rfl
  unfold calculate_new_target
  simp only [hquotient]
  generalize hn : from_bytes previous_target.1 * elapsed / DESIRED_TARGET_READJUSTMENT_TIMESPAN = n
  have hresult : (if (n : Int) > 2 ^ (32 * 8) - 1 then 2 ^ (32 * 8) - 1 else (n : Int)) =
      ((min (2 ^ 256 - 1) n : Nat) : Int) := by
    split_ifs with hover
    · rw [Nat.min_eq_left (by omega)]
      norm_num
    · rw [Nat.min_eq_right (by omega)]
  rw [hresult, raiseIf, if_neg (by omega), Int.toNat_natCast, retargeted, hn]
  rfl

section Readjustment

variable {k : Hash} {p : Block} {timestamp : Nat}

-- The start of the interval is the ancestor on the block's own chain, and the
-- time that has passed since is at least a second for each block.
theorem calc_target_readjusts (h : Consistent crypto coinstate) (htime : TimestampsIncrease coinstate)
    (hp : coinstate.block_by_hash.lookup k = some p) (hlater : p.timestamp < timestamp)
    (hheight : (p.height + 1) % BLOCKS_BETWEEN_TARGET_READJUSTMENT = 0) :
    ∃ start, coinstate.ancestor (BLOCKS_BETWEEN_TARGET_READJUSTMENT - 1) p = some start ∧
      start.timestamp + BLOCKS_BETWEEN_TARGET_READJUSTMENT ≤ timestamp ∧
      calc_target crypto coinstate (p.height + 1) timestamp p =
        .ok (.ofNat 32 (retargeted p.target (timestamp - start.timestamp))) := by
  obtain ⟨index, hindex, hchain⟩ := h.chain hp
  have hinterval : 0 < BLOCKS_BETWEEN_TARGET_READJUSTMENT := by decide
  have hle : BLOCKS_BETWEEN_TARGET_READJUSTMENT ≤ p.height + 1 :=
    Nat.le_of_dvd (Nat.succ_pos _) (Nat.dvd_of_mod_eq_zero hheight)
  obtain ⟨start, hstart⟩ :=
    hchain.exists_at (show p.height + 1 - BLOCKS_BETWEEN_TARGET_READJUSTMENT ≤ p.height by omega)
  have hsteps : p.height + 1 - BLOCKS_BETWEEN_TARGET_READJUSTMENT + (BLOCKS_BETWEEN_TARGET_READJUSTMENT - 1) =
      p.height := by omega
  have htop := hchain.top
  rw [← hsteps] at htop
  have hgap := hchain.timestamp_add_le htime hstart htop
  refine ⟨start, hchain.ancestor_from hstart htop, by omega, ?_⟩
  have hpassed : (timestamp : Int) - start.timestamp = ((timestamp - start.timestamp : Nat) : Int) := by omega
  rw [calc_target, if_pos hheight, h.hashed k p hp]
  simp only [bind, Except.bind, getItem_eq_ok.mpr hindex, getItem_eq_ok.mpr hstart, raiseIf,
    if_neg (Nat.not_lt.mpr hle), hpassed]
  exact calculate_new_target_eq p.target (timestamp - start.timestamp)

theorem calc_target_unchanged (hheight : (p.height + 1) % BLOCKS_BETWEEN_TARGET_READJUSTMENT ≠ 0) :
    calc_target crypto coinstate (p.height + 1) timestamp p = .ok p.target := by
  rw [calc_target, if_neg hheight]
  rfl

-- So the target of the next block is always defined.
theorem calc_target_ok (h : Consistent crypto coinstate) (htime : TimestampsIncrease coinstate)
    (hp : coinstate.block_by_hash.lookup k = some p) (hlater : p.timestamp < timestamp) :
    ∃ target, calc_target crypto coinstate (p.height + 1) timestamp p = .ok target := by
  by_cases hheight : (p.height + 1) % BLOCKS_BETWEEN_TARGET_READJUSTMENT = 0
  · obtain ⟨_, _, _, htarget⟩ := calc_target_readjusts h htime hp hlater hheight
    exact ⟨_, htarget⟩
  · exact ⟨_, calc_target_unchanged hheight⟩

theorem calc_target_mono (h : Consistent crypto coinstate) (htime : TimestampsIncrease coinstate)
    (hp : coinstate.block_by_hash.lookup k = some p) (hlater : p.timestamp < timestamp) {later : Nat}
    (hle : timestamp ≤ later) {target target' : Hash}
    (htarget : calc_target crypto coinstate (p.height + 1) timestamp p = .ok target)
    (htarget' : calc_target crypto coinstate (p.height + 1) later p = .ok target') :
    from_bytes target.1 ≤ from_bytes target'.1 := by
  by_cases hheight : (p.height + 1) % BLOCKS_BETWEEN_TARGET_READJUSTMENT = 0
  · obtain ⟨start, hstart, hgap, heq⟩ := calc_target_readjusts h htime hp hlater hheight
    obtain ⟨start', hstart', _, heq'⟩ := calc_target_readjusts h htime hp (Nat.lt_of_lt_of_le hlater hle) hheight
    obtain rfl := Option.some.inj (hstart.symm.trans hstart')
    obtain rfl := Except.ok.inj (htarget.symm.trans heq)
    obtain rfl := Except.ok.inj (htarget'.symm.trans heq')
    rw [FixedBytes.ofNat, FixedBytes.ofNat, from_bytes_to_bytes 32 _ (retargeted_lt _ _),
      from_bytes_to_bytes 32 _ (retargeted_lt _ _)]
    exact retargeted_mono _ (by omega)
  · rw [calc_target_unchanged hheight] at htarget htarget'
    rw [← Except.ok.inj htarget, ← Except.ok.inj htarget']

end Readjustment

-- The target of the block after a known one never fails to be computed: it is
-- the old one, or at a readjustment the retargeted one, and it grows with the
-- timestamp.
theorem calc_target_safe (h : Consistent crypto coinstate) (htime : TimestampsIncrease coinstate) {k : Hash}
    {p : Block} (hp : coinstate.block_by_hash.lookup k = some p) {timestamp : Nat} (hlater : p.timestamp < timestamp) :
    ((p.height + 1) % BLOCKS_BETWEEN_TARGET_READJUSTMENT ≠ 0 →
      calc_target crypto coinstate (p.height + 1) timestamp p = .ok p.target) ∧
    ((p.height + 1) % BLOCKS_BETWEEN_TARGET_READJUSTMENT = 0 →
      ∃ start, coinstate.ancestor (BLOCKS_BETWEEN_TARGET_READJUSTMENT - 1) p = some start ∧
        start.timestamp + BLOCKS_BETWEEN_TARGET_READJUSTMENT ≤ timestamp ∧
        calc_target crypto coinstate (p.height + 1) timestamp p =
          .ok (.ofNat 32 (min (2 ^ 256 - 1) (from_bytes p.target.1 * (timestamp - start.timestamp) /
            DESIRED_TARGET_READJUSTMENT_TIMESPAN)))) ∧
    ∀ later, timestamp ≤ later → ∃ target target',
      calc_target crypto coinstate (p.height + 1) timestamp p = .ok target ∧
      calc_target crypto coinstate (p.height + 1) later p = .ok target' ∧
      from_bytes target.1 ≤ from_bytes target'.1 := by
  refine ⟨calc_target_unchanged, calc_target_readjusts h htime hp hlater, ?_⟩
  intro later hle
  obtain ⟨target, htarget⟩ := calc_target_ok h htime hp hlater
  obtain ⟨target', htarget'⟩ := calc_target_ok h htime hp (Nat.lt_of_lt_of_le hlater hle)
  exact ⟨target, target', htarget, htarget', calc_target_mono h htime hp hlater hle htarget htarget'⟩

-- The first readjustment, on a chain that grew by a block a second.
theorem calc_target_safe_tower :
    ∃ start, (towerCoinstate 10079).ancestor (BLOCKS_BETWEEN_TARGET_READJUSTMENT - 1) (towerBlock 10079) = some start ∧
      start.timestamp + BLOCKS_BETWEEN_TARGET_READJUSTMENT ≤ 20000 ∧
      calc_target .residue (towerCoinstate 10079) (10079 + 1) 20000 (towerBlock 10079) =
        .ok (.ofNat 32 (min (2 ^ 256 - 1) (from_bytes (towerBlock 10079).target.1 * (20000 - start.timestamp) /
          DESIRED_TARGET_READJUSTMENT_TIMESPAN))) := by
  have hn : 10079 + 1 < 256 ^ 32 := by decide
  have hheight : (10079 + 1) % BLOCKS_BETWEEN_TARGET_READJUSTMENT = 0 := by decide
  have hlater : 10079 < 20000 := by decide
  generalize 10079 = n at *
  have hp := (tower_lookup hn).mpr ⟨n, Nat.le_refl _, rfl, rfl⟩
  exact (calc_target_safe (tower_consistent hn) (tower_increases hn) hp hlater).2.1 hheight

end Skepticoin
