import Skepticoin.Errors

namespace Skepticoin

abbrev Bytes := List UInt8

-- int.to_bytes(width, byteorder='big'), for a value that fits.
def to_bytes : Nat → Nat → Bytes
  | 0, _ => []
  | width + 1, n => to_bytes width (n / 256) ++ [UInt8.ofNat n]

-- int.from_bytes(bytes, byteorder='big', signed=False)
def from_bytes (bytes : Bytes) : Nat :=
  bytes.foldl (fun n b => 256 * n + b.toNat) 0

@[simp] theorem to_bytes_length (width n : Nat) : (to_bytes width n).length = width := by
  induction width generalizing n with
  | zero => rfl
  | succ width ih => simp [to_bytes, ih]

theorem from_bytes_append (bytes : Bytes) (b : UInt8) :
    from_bytes (bytes ++ [b]) = 256 * from_bytes bytes + b.toNat := by
  simp [from_bytes]

theorem from_bytes_to_bytes (width n : Nat) (h : n < 256 ^ width) :
    from_bytes (to_bytes width n) = n := by
  induction width generalizing n with
  | zero =>
      have hn : n = 0 := by simpa using h
      simp [to_bytes, from_bytes, hn]
  | succ width ih =>
      have hdiv : n / 256 < 256 ^ width := by
        rw [Nat.div_lt_iff_lt_mul (by decide)]
        simpa [Nat.pow_succ] using h
      rw [to_bytes, from_bytes_append, ih _ hdiv]
      simp only [UInt8.toNat_ofNat']
      omega

theorem to_bytes_from_bytes (bytes : Bytes) : to_bytes bytes.length (from_bytes bytes) = bytes := by
  induction bytes using List.reverseRecOn with
  | nil => rfl
  | append_singleton bytes b ih =>
      have hb := b.toNat_lt
      rw [List.length_append, List.length_singleton, to_bytes, from_bytes_append]
      have hdiv : (256 * from_bytes bytes + b.toNat) / 256 = from_bytes bytes := by omega
      rw [hdiv, ih]
      congr 1
      rw [List.cons.injEq]
      refine ⟨?_, rfl⟩
      apply UInt8.toNat_inj.mp
      rw [UInt8.toNat_ofNat']
      omega

theorem from_bytes_lt (bytes : Bytes) : from_bytes bytes < 256 ^ bytes.length := by
  induction bytes using List.reverseRecOn with
  | nil => simp [from_bytes]
  | append_singleton bytes b ih =>
      have hb := b.toNat_lt
      rw [from_bytes_append, List.length_append, List.length_singleton, Nat.pow_succ]
      omega

-- Byte strings of one length: hashes, targets, keys and signatures.
abbrev FixedBytes (n : Nat) := { bytes : Bytes // bytes.length = n }

abbrev Hash := FixedBytes 32

instance : LawfulBEq Hash := inferInstance

-- An integer written big-endian in exactly n bytes.
def FixedBytes.ofNat (n value : Nat) : FixedBytes n := ⟨to_bytes n value, to_bytes_length n value⟩

theorem FixedBytes.ofNat_inj {n a b : Nat} (ha : a < 256 ^ n) (hb : b < 256 ^ n)
    (h : FixedBytes.ofNat n a = FixedBytes.ofNat n b) : a = b := by
  have hbytes := congrArg from_bytes (congrArg Subtype.val h)
  simpa [FixedBytes.ofNat, from_bytes_to_bytes n a ha, from_bytes_to_bytes n b hb] using hbytes

-- b'\x00' * 32
def zero_hash : Hash := FixedBytes.ofNat 32 0

-- The functions of hash.py, and the signature verification of the ecdsa
-- package, which may also raise on a key that is no point of the curve.
structure Crypto where
  sha256d : Bytes → Hash
  scrypt : Bytes → Bytes → Hash
  blake2 : Bytes → Hash
  verify : FixedBytes 64 → FixedBytes 64 → Bytes → Py Bool

-- An instance to evaluate the definitions with: hashes are residues, and the
-- one good signature under a key is the key itself.
def Crypto.residue : Crypto where
  sha256d bytes := .ofNat 32 (from_bytes (1 :: bytes) % (2 ^ 192 - 237))
  scrypt password salt := .ofNat 32 (from_bytes (2 :: password ++ salt) % (2 ^ 192 - 237))
  blake2 bytes := .ofNat 32 (from_bytes (3 :: bytes) % (2 ^ 192 - 237))
  verify public_key signature _ := .ok (public_key = signature)

end Skepticoin
