import Skepticoin.Serialization

namespace Skepticoin

open Guard Codec

-- The n seven-bit digits of a number, most significant first, with the
-- continuation bit on all of them but the last.
def vlqDigits : Nat → Nat → Bytes
  | _, 0 => []
  | r, n + 1 => UInt8.ofNat (r / 128 ^ n + if n > 0 then 128 else 0) :: vlqDigits (r % 128 ^ n) n

@[simp] theorem vlqDigits_length (r n : Nat) : (vlqDigits r n).length = n := by
  induction n generalizing r with
  | zero => rfl
  | succ n ih => simp [vlqDigits, ih]

theorem vlq_digit_lt (r n : Nat) (h : r < 128 ^ (n + 1)) : r / 128 ^ n < 128 := by
  rw [Nat.div_lt_iff_lt_mul (by positivity)]
  rwa [Nat.pow_succ, Nat.mul_comm] at h

theorem vlq_byte_lt {digit : Nat} (n : Nat) (h : digit < 128) :
    digit + (if n > 0 then 128 else 0) < 256 ^ 1 := by
  split_ifs <;> omega

theorem vlq_byte_mod {digit : Nat} (n : Nat) (h : digit < 128) :
    (UInt8.ofNat (digit + if n > 0 then 128 else 0)).toNat % 128 = digit := by
  have hbyte : digit + (if n > 0 then 128 else 0) < 2 ^ 8 := vlq_byte_lt n h
  rw [UInt8.toNat_ofNat', Nat.mod_eq_of_lt hbyte]
  split_ifs <;> omega

theorem two_pow_seven (n : Nat) : 2 ^ (7 * n + 6) = 64 * 128 ^ n := by
  rw [Nat.pow_add, Nat.pow_mul, Nat.mul_comm]

theorem vlqDigits_cons (digit r n : Nat) (hr : r < 128 ^ n) (hn : 0 < n) :
    vlqDigits (digit * 128 ^ n + r) (n + 1) = UInt8.ofNat (digit + 128) :: vlqDigits r n := by
  have hdiv : (digit * 128 ^ n + r) / 128 ^ n = digit := by
    rw [Nat.mul_comm, Nat.mul_add_div (by positivity), Nat.div_eq_of_lt hr, Nat.add_zero]
  have hmod : (digit * 128 ^ n + r) % 128 ^ n = r := by
    rw [Nat.mul_comm, Nat.mul_add_mod, Nat.mod_eq_of_lt hr]
  rw [vlqDigits, hdiv, hmod, if_pos hn]

-- The remainder that the loop takes on a later turn is the remainder of what
-- it had left before that turn.
theorem vlq_serialize_loop (i n mod : Nat)
    (h : mod = 0 ∧ i < 128 ^ n ∨ mod = 128 ^ n) :
    stream_serialize_vlq.loop i mod n = .ok (vlqDigits (if mod = 0 then i else i % mod) n) := by
  induction n generalizing mod with
  | zero => rfl
  | succ n ih =>
      have hr : (if mod = 0 then i else i % mod) < 128 ^ (n + 1) := by
        rcases h with ⟨rfl, hi⟩ | rfl
        · simpa using hi
        · simpa using Nat.mod_lt i (by positivity)
      have hd := vlq_digit_lt _ n hr
      have hmod : (if mod = 0 then i else i % mod) % 128 ^ n = i % 128 ^ n := by
        rcases h with ⟨rfl, _⟩ | rfl
        · simp
        · simpa using Nat.mod_mod_of_dvd i (Nat.pow_dvd_pow 128 (Nat.le_succ n))
      have hbyte := vlq_byte_lt n hd
      have hne : 128 ^ n ≠ 0 := by positivity
      rw [stream_serialize_vlq.loop, ih (128 ^ n) (Or.inr rfl), pack, if_pos hbyte, vlqDigits, hmod,
        if_neg hne]
      rfl

theorem lt_two_pow_iff_bit_length_le (i k : Nat) : i < 2 ^ k ↔ bit_length i ≤ k := by
  unfold bit_length
  split
  · next h => simp [h]
  · next h => rw [← Nat.log2_lt h, Nat.succ_le_iff]

theorem lt_pow_needed_bytes (i : Nat) : i < 128 ^ (bit_length i / 7 + 1) := by
  have h : i < 2 ^ (7 * (bit_length i / 7 + 1)) := by
    rw [lt_two_pow_iff_bit_length_le]
    omega
  rwa [Nat.pow_mul] at h

theorem stream_serialize_vlq_eq (i : Nat) :
    stream_serialize_vlq i = .ok (vlqDigits i (bit_length i / 7 + 1)) := by
  rw [stream_serialize_vlq, vlq_serialize_loop i _ 0 (Or.inl ⟨rfl, lt_pow_needed_bytes i⟩), if_pos rfl]

theorem deserialize_loop_digits (r n acc : Nat) (h : r < 128 ^ (n + 1)) (rest : Bytes) :
    stream_deserialize_vlq.loop acc (vlqDigits r (n + 1) ++ rest) = .ok (acc * 128 ^ n + r, rest) := by
  induction n generalizing r acc with
  | zero =>
      have hr : r < 128 := by simpa using h
      have hb : (UInt8.ofNat r).toNat = r := by
        rw [UInt8.toNat_ofNat']
        omega
      simp [vlqDigits, stream_deserialize_vlq.loop, hb, hr, Nat.mod_eq_of_lt hr]
  | succ n ih =>
      have hd := vlq_digit_lt r (n + 1) h
      have hb : (UInt8.ofNat (r / 128 ^ (n + 1) + 128)).toNat = r / 128 ^ (n + 1) + 128 := by
        rw [UInt8.toNat_ofNat', Nat.mod_eq_of_lt (Nat.add_lt_add_right hd 128)]
      have hm : (r / 128 ^ (n + 1) + 128) % 128 = r / 128 ^ (n + 1) := by
        rw [Nat.add_mod_right, Nat.mod_eq_of_lt hd]
      have hrem : r % 128 ^ (n + 1) < 128 ^ (n + 1) := Nat.mod_lt _ (by positivity)
      have hsplit := Nat.div_add_mod r (128 ^ (n + 1))
      rw [vlqDigits, if_pos (Nat.succ_pos n), List.cons_append, stream_deserialize_vlq.loop]
      simp only [hb, hm, if_neg (Nat.not_lt.mpr (Nat.le_add_left 128 (r / 128 ^ (n + 1))))]
      rw [ih _ _ hrem]
      congr 2
      calc
        (acc + r / 128 ^ (n + 1)) * 128 * 128 ^ n + r % 128 ^ (n + 1) =
            acc * 128 ^ (n + 1) + (128 ^ (n + 1) * (r / 128 ^ (n + 1)) + r % 128 ^ (n + 1)) := by ring
        _ = acc * 128 ^ (n + 1) + r := by rw [hsplit]

theorem reads_vlqDigits (i n : Nat) (h : i < 128 ^ (n + 1)) :
    Reads stream_deserialize_vlq (vlqDigits i (n + 1)) i := by
  intro rest
  have hrun := deserialize_loop_digits i n 0 h rest
  rwa [Nat.zero_mul, Nat.zero_add] at hrun

theorem reads_vlq {i : Nat} {bytes : Bytes} (h : stream_serialize_vlq i = .ok bytes) :
    Reads stream_deserialize_vlq bytes i := by
  rw [stream_serialize_vlq_eq, Except.ok.injEq] at h
  exact h ▸ reads_vlqDigits i _ (lt_pow_needed_bytes i)

theorem vlqDigits_continued (r n : Nat) (h : r < 128 ^ (n + 1)) :
    ∃ first last, vlqDigits r (n + 1) = first ++ [last] ∧ (∀ b ∈ first, 128 ≤ b.toNat) ∧ last.toNat < 128 := by
  induction n generalizing r with
  | zero =>
      have hr : r < 128 := by simpa using h
      refine ⟨[], UInt8.ofNat r, by simp [vlqDigits], by simp, ?_⟩
      rw [UInt8.toNat_ofNat']
      omega
  | succ n ih =>
      have hd := vlq_digit_lt r (n + 1) h
      obtain ⟨first, last, hdigits, hfirst, hlast⟩ := ih (r % 128 ^ (n + 1)) (Nat.mod_lt _ (by positivity))
      refine ⟨UInt8.ofNat (r / 128 ^ (n + 1) + 128) :: first, last, ?_, List.forall_mem_cons.mpr ⟨?_, hfirst⟩, hlast⟩
      · rw [vlqDigits, if_pos (Nat.succ_pos n), hdigits, List.cons_append]
      · rw [UInt8.toNat_ofNat', Nat.mod_eq_of_lt (Nat.add_lt_add_right hd 128)]
        exact Nat.le_add_left 128 _

-- Every value fits its byte, the continuation bit is on all bytes but the last,
-- and the reader gets the number back and leaves what follows.
theorem vlq_round_trip (i : Nat) :
    ∃ first last, stream_serialize_vlq i = .ok (first ++ [last]) ∧ (∀ b ∈ first, 128 ≤ b.toNat) ∧
      last.toNat < 128 ∧ ∀ s, stream_deserialize_vlq (first ++ [last] ++ s) = .ok (i, s) := by
  have hlt := lt_pow_needed_bytes i
  obtain ⟨first, last, hdigits, hfirst, hlast⟩ := vlqDigits_continued i _ hlt
  refine ⟨first, last, ?_, hfirst, hlast, ?_⟩
  · rw [stream_serialize_vlq_eq, hdigits]
  · rw [← hdigits]
    exact reads_vlqDigits i _ hlt

-- Every accepted quantity is a digit string of its value, though not always
-- the one the encoder chooses: leading zero digits are accepted too.
theorem deserialize_loop_consumes (stream : Bytes) (acc value : Nat) (rest : Bytes)
    (h : stream_deserialize_vlq.loop acc stream = .ok (value, rest)) :
    ∃ n r, r < 128 ^ (n + 1) ∧ stream = vlqDigits r (n + 1) ++ rest ∧ value = acc * 128 ^ n + r := by
  induction stream generalizing acc with
  | nil => simp [stream_deserialize_vlq.loop] at h
  | cons b stream ih =>
      simp only [stream_deserialize_vlq.loop] at h
      split at h
      · next hb =>
          obtain ⟨rfl, rfl⟩ : acc + b.toNat % 128 = value ∧ stream = rest := by simpa using h
          refine ⟨0, b.toNat, by simpa using hb, ?_, by rw [Nat.mod_eq_of_lt hb]; ring⟩
          simp [vlqDigits]
      · next hb =>
          obtain ⟨n, r, hr, rfl, rfl⟩ := ih _ h
          have hlt := b.toNat_lt
          refine ⟨n + 1, b.toNat % 128 * 128 ^ (n + 1) + r, ?_, ?_, by ring⟩
          · calc
              b.toNat % 128 * 128 ^ (n + 1) + r < b.toNat % 128 * 128 ^ (n + 1) + 128 ^ (n + 1) := by omega
              _ = (b.toNat % 128 + 1) * 128 ^ (n + 1) := by ring
              _ ≤ 128 * 128 ^ (n + 1) := Nat.mul_le_mul_right _ (by omega)
              _ = 128 ^ (n + 1 + 1) := by ring
          · rw [vlqDigits_cons _ _ _ hr (Nat.succ_pos n), show b.toNat % 128 + 128 = b.toNat by omega,
              UInt8.ofNat_toNat, List.cons_append]

theorem consumes_vlq :
    Consumes stream_deserialize_vlq fun i used => ∃ n, i < 128 ^ (n + 1) ∧ used = vlqDigits i (n + 1) := by
  intro stream value rest h
  obtain ⟨n, r, hr, rfl, rfl⟩ := deserialize_loop_consumes stream 0 value rest h
  rw [Nat.zero_mul, Nat.zero_add]
  exact ⟨_, rfl, n, hr, rfl⟩

-- The digit strings that the encoder writes: the top digit is below 64, and
-- a leading zero digit stands only before a digit of at least 64.
def VlqNormal : Bytes → Prop
  | [] => False
  | [b] => b.toNat < 64
  | b :: next :: _ => b.toNat % 128 < 64 ∧ (b.toNat % 128 = 0 → 64 ≤ next.toNat % 128)

instance : DecidablePred VlqNormal
  | [] => inferInstanceAs (Decidable False)
  | [b] => inferInstanceAs (Decidable (b.toNat < 64))
  | b :: next :: _ =>
      inferInstanceAs (Decidable (b.toNat % 128 < 64 ∧ (b.toNat % 128 = 0 → 64 ≤ next.toNat % 128)))

theorem vlqNormal_single (i : Nat) (h : i < 128) :
    VlqNormal (vlqDigits i 1) ↔ bit_length i / 7 + 1 = 1 := by
  have hb : (UInt8.ofNat i).toNat = i := by
    rw [UInt8.toNat_ofNat']
    omega
  have hnorm : VlqNormal (vlqDigits i 1) ↔ i < 2 ^ 6 := by
    simp [vlqDigits, VlqNormal, hb]
  have hle := (lt_two_pow_iff_bit_length_le i 7).mp h
  rw [hnorm, lt_two_pow_iff_bit_length_le]
  omega

-- With at least two digits, the top digit decides whether the string is too
-- short for its value and the first two whether it is too long.
theorem vlqNormal_cons (i n : Nat) (h : i < 128 ^ (n + 2)) :
    VlqNormal (vlqDigits i (n + 2)) ↔ bit_length i / 7 + 1 = n + 2 := by
  have hd := vlq_digit_lt i (n + 1) h
  have hr : i % 128 ^ (n + 1) < 128 ^ (n + 1) := Nat.mod_lt _ (by positivity)
  have hd' := vlq_digit_lt _ n hr
  have htop := vlq_byte_mod (n + 1) hd
  have hnext := vlq_byte_mod n hd'
  have hshort : i / 128 ^ (n + 1) < 64 ↔ bit_length i ≤ 7 * (n + 1) + 6 := by
    rw [← lt_two_pow_iff_bit_length_le, two_pow_seven, Nat.div_lt_iff_lt_mul (by positivity)]
  have hlong : (i / 128 ^ (n + 1) = 0 → 64 ≤ i % 128 ^ (n + 1) / 128 ^ n) ↔
      ¬bit_length i ≤ 7 * n + 6 := by
    rw [← lt_two_pow_iff_bit_length_le, two_pow_seven, Nat.not_lt,
      Nat.div_eq_zero_iff_lt (by positivity), Nat.le_div_iff_mul_le (by positivity)]
    by_cases hi : i < 128 ^ (n + 1)
    · simp only [hi, Nat.mod_eq_of_lt hi, forall_const]
    · have hge : 64 * 128 ^ n ≤ i := by
        rw [Nat.pow_succ'] at hi
        omega
      simp only [hi, hge, false_imp_iff]
  simp only [vlqDigits, VlqNormal, htop, hnext, hshort, hlong]
  omega

-- The encoder's digit string of a value is the normal one.
theorem serialize_vlq_iff_normal {i : Nat} {n : Nat} (h : i < 128 ^ (n + 1)) :
    stream_serialize_vlq i = .ok (vlqDigits i (n + 1)) ↔ VlqNormal (vlqDigits i (n + 1)) := by
  have hlen : VlqNormal (vlqDigits i (n + 1)) ↔ bit_length i / 7 + 1 = n + 1 := by
    cases n with
    | zero => exact vlqNormal_single i (by simpa using h)
    | succ n => exact vlqNormal_cons i n h
  rw [stream_serialize_vlq_eq, hlen, Except.ok.injEq]
  constructor
  · intro he
    simpa using congrArg List.length he
  · intro he
    rw [he]

end Skepticoin
