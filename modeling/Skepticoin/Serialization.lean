import Skepticoin.Hash
import Skepticoin.Lib.Codec

namespace Skepticoin

open Guard

abbrev Stream (α : Type) := Codec.Decoder PyError α

-- struct.pack of one unsigned big-endian integer.
def pack (width n : Nat) : Py Bytes :=
  if n < 256 ^ width then .ok (to_bytes width n) else .error .StructError

def safe_read (n : Nat) : Stream (FixedBytes n) := fun f =>
  if h : n ≤ f.length then .ok (⟨f.take n, by simp [h]⟩, f.drop n)
  else .error (.SerializationTruncationError
    ("Requested " ++ toString n ++ " bytes but got " ++ toString f.length))

-- struct.unpack of one unsigned big-endian integer.
def unpack (width : Nat) : Stream Nat := do
  let bytes ← safe_read width
  return from_bytes bytes.1

-- int.bit_length()
def bit_length (i : Nat) : Nat := if i = 0 then 0 else Nat.log2 i + 1

-- The for loop over j in reversed(range(needed_bytes)); `mod` is 0 on the
-- first turn and the previous turn's `div` after that.
def stream_serialize_vlq.loop (i : Nat) : Nat → Nat → Py Bytes
  | _, 0 => .ok []
  | mod, j + 1 => do
    let div := 128 ^ j
    let byte ← pack 1 ((if mod = 0 then i else i % mod) / div + if j > 0 then 128 else 0)
    let bytes ← loop i div j
    return byte ++ bytes

def stream_serialize_vlq (i : Nat) : Py Bytes :=
  let needed_bytes := bit_length i / 7 + 1
  stream_serialize_vlq.loop i 0 needed_bytes

def stream_deserialize_vlq.loop (result : Nat) : Stream Nat
  | [] => .error (.SerializationTruncationError
      ("Requested " ++ toString 1 ++ " bytes but got " ++ toString 0))
  | b :: f =>
    let result := result + b.toNat % 128
    if b.toNat < 128 then .ok (result, f) else loop (result * 128) f

def stream_deserialize_vlq : Stream Nat := stream_deserialize_vlq.loop 0

def stream_serialize_list {α : Type} (stream_serialize : α → Py Bytes) (lst : List α) : Py Bytes := do
  let length ← stream_serialize_vlq lst.length
  let elems ← collect stream_serialize lst
  return length ++ elems.flatten

def stream_deserialize_list {α : Type} (stream_deserialize : Stream α) : Stream (List α) := do
  let length ← stream_deserialize_vlq
  Codec.times stream_deserialize length

end Skepticoin
