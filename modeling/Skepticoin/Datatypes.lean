import Skepticoin.Signing
import Skepticoin.Params

namespace Skepticoin

open Guard Codec

-- The bound is the range check of the constructor.
@[ext]
structure OutputReference where
  hash : Hash
  index : Nat
  index_le : index ≤ 0xffffffff

instance : DecidableEq OutputReference :=
  fun _ _ => decidable_of_iff _ OutputReference.ext_iff.symm

theorem first_index_le : 0 ≤ 0xffffffff := by decide

theorem no_signature_le : ([] : Bytes).length ≤ 256 := by decide

def OutputReference.new (hash : Hash) (index : Nat) : Py OutputReference :=
  if h : index ≤ 0xffffffff then .ok ⟨hash, index, h⟩
  else .error (.ValueError ("OutputReference index " ++ toString index ++ " is out of range."))

def OutputReference.stream_deserialize : Stream OutputReference := do
  let hash ← safe_read 32
  let index ← unpack 4
  raw (OutputReference.new hash index)

def OutputReference.stream_serialize (reference : OutputReference) : Py Bytes := do
  let index ← pack 4 reference.index
  return reference.hash.1 ++ index

def OutputReference.references_thin_air (reference : OutputReference) : Bool :=
  reference.hash = zero_hash && reference.index = 0

structure Input where
  output_reference : OutputReference
  signature : Option Signature
  deriving DecidableEq

def Input.eq (a b : Input) : Bool :=
  a.output_reference = b.output_reference &&
    match a.signature, b.signature with
    | some s, some s' => s.eq s'
    | none, none => true
    | _, _ => false

def Input.stream_deserialize : Stream Input := do
  let output_reference ← OutputReference.stream_deserialize
  let signature ← Signature.stream_deserialize
  return ⟨output_reference, some signature⟩

def Input.stream_serialize (input : Input) : Py Bytes := do
  let output_reference ← input.output_reference.stream_serialize
  match input.signature with
  | none => .error .AssertionError
  | some signature =>
    let signature ← signature.stream_serialize
    return output_reference ++ signature

def Input.signable_equivalent (input : Input) : Input :=
  ⟨input.output_reference, some .SignableEquivalent⟩

structure Output where
  value : Nat
  public_key : SECP256k1PublicKey
  deriving DecidableEq

def Output.stream_deserialize : Stream Output := do
  let value ← unpack 8
  let public_key ← PublicKey.stream_deserialize
  return ⟨value, public_key⟩

def Output.stream_serialize (output : Output) : Py Bytes := do
  let value ← pack 8 output.value
  return value ++ output.public_key.stream_serialize

-- The version, which is always 0, is left out of the record.
structure Transaction where
  inputs : List Input
  outputs : List Output
  cached_hash : Option Hash := none
  deriving DecidableEq

def Transaction.eq (a b : Transaction) : Bool :=
  a.inputs.isEqv b.inputs Input.eq && a.outputs = b.outputs

def Transaction.stream_deserialize (crypto : Crypto) : Stream Transaction := do
  let ((inputs, outputs), original) ← traced do
    let version ← safe_read 1
    raw (raiseIf (version.1 ≠ [0x00])
      (.ValueError "Current version supports only version 0 transactions"))
    let inputs ← stream_deserialize_list Input.stream_deserialize
    let outputs ← stream_deserialize_list Output.stream_deserialize
    return (inputs, outputs)
  return ⟨inputs, outputs, some (crypto.sha256d original)⟩

def Transaction.serialize (transaction : Transaction) : Py Bytes := do
  let inputs ← stream_serialize_list Input.stream_serialize transaction.inputs
  let outputs ← stream_serialize_list Output.stream_serialize transaction.outputs
  return [0x00] ++ inputs ++ outputs

def Transaction.hash (crypto : Crypto) (transaction : Transaction) : Py Hash :=
  match transaction.cached_hash with
  | some hash => .ok hash
  | none => do
    let bytes ← transaction.serialize
    return crypto.sha256d bytes

def Transaction.signable_equivalent (transaction : Transaction) : Transaction where
  inputs := transaction.inputs.map Input.signable_equivalent
  outputs := transaction.outputs

structure PowEvidence where
  summary_hash : Hash
  chain_sample : Bytes
  block_hash : Hash
  deriving DecidableEq

def PowEvidence.stream_deserialize : Stream PowEvidence := do
  let summary_hash ← safe_read 32
  let chain_sample ← safe_read CHAIN_SAMPLE_TOTAL_SIZE
  let block_hash ← safe_read 32
  return ⟨summary_hash, chain_sample.1, block_hash⟩

def PowEvidence.stream_serialize (evidence : PowEvidence) : Bytes :=
  evidence.summary_hash.1 ++ evidence.chain_sample ++ evidence.block_hash.1

structure BlockSummary where
  height : Nat
  previous_block_hash : Hash
  merkle_root_hash : Hash
  timestamp : Nat
  target : Hash
  nonce : Nat
  deriving DecidableEq

-- The height plays no part.
def BlockSummary.eq (a b : BlockSummary) : Bool :=
  a.previous_block_hash = b.previous_block_hash && a.merkle_root_hash = b.merkle_root_hash &&
    a.timestamp = b.timestamp && a.target = b.target && a.nonce = b.nonce

def BlockSummary.stream_deserialize : Stream BlockSummary := do
  let height ← stream_deserialize_vlq
  let previous_block_hash ← safe_read 32
  let merkle_root_hash ← safe_read 32
  let timestamp ← unpack 4
  let target ← safe_read 32
  let nonce ← unpack 4
  return ⟨height, previous_block_hash, merkle_root_hash, timestamp, target, nonce⟩

def BlockSummary.serialize (summary : BlockSummary) : Py Bytes := do
  let height ← stream_serialize_vlq summary.height
  let timestamp ← pack 4 summary.timestamp
  let nonce ← pack 4 summary.nonce
  return height ++ summary.previous_block_hash.1 ++ summary.merkle_root_hash.1 ++ timestamp ++
    summary.target.1 ++ nonce

structure BlockHeader where
  summary : BlockSummary
  pow_evidence : PowEvidence
  deriving DecidableEq

def BlockHeader.eq (a b : BlockHeader) : Bool :=
  a.summary.eq b.summary && a.pow_evidence = b.pow_evidence

def BlockHeader.stream_deserialize : Stream BlockHeader := do
  let version ← safe_read 1
  raw (raiseIf (version.1 ≠ [0x00])
    (.ValueError "Current version only supports version 0 blocks"))
  let summary ← BlockSummary.stream_deserialize
  let pow_evidence ← PowEvidence.stream_deserialize
  return ⟨summary, pow_evidence⟩

def BlockHeader.serialize (header : BlockHeader) : Py Bytes := do
  let summary ← header.summary.serialize
  return [0x00] ++ summary ++ header.pow_evidence.stream_serialize

def BlockHeader.hash (crypto : Crypto) (header : BlockHeader) : Py Hash := do
  let bytes ← header.serialize
  return crypto.sha256d bytes

structure Block where
  header : BlockHeader
  transactions : List Transaction
  cached_hash : Option Hash := none
  deriving DecidableEq

def Block.hash (crypto : Crypto) (block : Block) : Py Hash :=
  match block.cached_hash with
  | some hash => .ok hash
  | none => block.header.hash crypto

-- The attributes that Block.__getattr__ forwards to the summary.
abbrev Block.height (block : Block) : Nat := block.header.summary.height
abbrev Block.previous_block_hash (block : Block) : Hash := block.header.summary.previous_block_hash
abbrev Block.timestamp (block : Block) : Nat := block.header.summary.timestamp
abbrev Block.target (block : Block) : Hash := block.header.summary.target

def Block.eq (a b : Block) : Bool :=
  a.header.eq b.header && a.transactions.isEqv b.transactions Transaction.eq

def Block.stream_deserialize (crypto : Crypto) : Stream Block := do
  let (header, original) ← traced BlockHeader.stream_deserialize
  let transactions ← stream_deserialize_list (Transaction.stream_deserialize crypto)
  return ⟨header, transactions, some (crypto.sha256d original)⟩

def Block.serialize (block : Block) : Py Bytes := do
  let header ← block.header.serialize
  let transactions ← stream_serialize_list Transaction.serialize block.transactions
  return header ++ transactions

-- Serializable.deserialize, which ignores what follows the block.
def Block.deserialize (crypto : Crypto) (bytes : Bytes) : Py Block := do
  let (block, _) ← Block.stream_deserialize crypto bytes
  return block

def Block.get_total_work (block : Block) : Nat := block.height

end Skepticoin
