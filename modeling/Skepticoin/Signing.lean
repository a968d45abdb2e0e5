import Skepticoin.Serialization

namespace Skepticoin

open Guard Codec

def TYPE_SIGNABLE_EQUIVALENT : Bytes := [0x00]
def TYPE_COINBASE_DATA : Bytes := [0x01]
def TYPE_SECP256k1 : Bytes := [0x02]

-- The one subclass of PublicKey.
structure SECP256k1PublicKey where
  public_key : FixedBytes 64
  deriving DecidableEq

def SECP256k1PublicKey.stream_serialize (key : SECP256k1PublicKey) : Bytes :=
  TYPE_SECP256k1 ++ key.public_key.1

-- PublicKey.stream_deserialize: dispatch on the type byte.
def PublicKey.stream_deserialize : Stream SECP256k1PublicKey := do
  let type_indicator ← safe_read 1
  raw (raiseIf (type_indicator.1 ≠ TYPE_SECP256k1)
    (.DeserializationError "Non-supported public key type."))
  let public_key ← safe_read 64
  return ⟨public_key⟩

-- The bounds are the two checks of the constructor.
structure CoinbaseData where
  height : Nat
  signature : Bytes
  height_le : height ≤ 0xFFFFFFFF
  signature_le : signature.length ≤ 256
  deriving DecidableEq

def CoinbaseData.new (height : Nat) (signature : Bytes) : Py CoinbaseData :=
  if hh : height ≤ 0xFFFFFFFF then
    if hs : signature.length ≤ 256 then .ok ⟨height, signature, hh, hs⟩
    else .error (.ValueError "Unserializable CoinbaseData")
  else .error (.ValueError ("CoinbaseData height " ++ toString height ++ " is out of range."))

inductive Signature where
  | SignableEquivalent
  | CoinbaseData (data : CoinbaseData)
  | SECP256k1Signature (signature : FixedBytes 64)
  deriving DecidableEq

def CoinbaseData.stream_deserialize : Stream CoinbaseData := do
  let height ← unpack 4
  let length ← unpack 1
  let signature ← safe_read length
  raw (CoinbaseData.new height signature.1)

def Signature.stream_deserialize : Stream Signature := do
  let type_indicator ← safe_read 1
  if type_indicator.1 = TYPE_SIGNABLE_EQUIVALENT then
    return .SignableEquivalent
  else if type_indicator.1 = TYPE_COINBASE_DATA then
    let data ← CoinbaseData.stream_deserialize
    return .CoinbaseData data
  else if type_indicator.1 = TYPE_SECP256k1 then
    let signature ← safe_read 64
    return .SECP256k1Signature signature
  else
    raw (.error (.DeserializationError "Non-supported signature type."))

def Signature.deserialize (bytes : Bytes) : Py Signature := do
  let (signature, _) ← Signature.stream_deserialize bytes
  return signature

-- A payload of 256 bytes passes the constructor but not the length byte.
def CoinbaseData.stream_serialize (data : CoinbaseData) : Py Bytes := do
  let height ← pack 4 data.height
  let length ← pack 1 data.signature.length
  return TYPE_COINBASE_DATA ++ height ++ length ++ data.signature

def Signature.stream_serialize : Signature → Py Bytes
  | .SignableEquivalent => .ok TYPE_SIGNABLE_EQUIVALENT
  | .CoinbaseData data => data.stream_serialize
  | .SECP256k1Signature signature => .ok (TYPE_SECP256k1 ++ signature.1)

-- The __eq__ of the three classes; the height of CoinbaseData plays no part.
def Signature.eq : Signature → Signature → Bool
  | .SignableEquivalent, .SignableEquivalent => true
  | .CoinbaseData a, .CoinbaseData b => a.signature = b.signature
  | .SECP256k1Signature a, .SECP256k1Signature b => a = b
  | _, _ => false

def Signature.is_not_signature : Signature → Bool
  | .SECP256k1Signature _ => false
  | _ => true

def Signature.validate (crypto : Crypto) (signature : Signature) (public_key : SECP256k1PublicKey)
    (message : Bytes) : Py Bool :=
  match signature with
  | .SECP256k1Signature signature => crypto.verify public_key.public_key signature message
  | _ => .error .NotImplementedError

end Skepticoin
