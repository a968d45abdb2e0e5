import Skepticoin.Consensus
import Skepticoin.Lib.Dict
import Skepticoin.Lib.Effect

namespace Skepticoin

open Guard FMap Effect

def SECP256k1PublicKey.new (public_key : Bytes) : Py SECP256k1PublicKey :=
  if h : public_key.length = 64 then .ok ⟨⟨public_key, h⟩⟩
  else .error (.ValueError "SECP256k1 public key must be 64 bytes.")

namespace CoinState

variable (crypto : Crypto)

-- public_key_balances_by_hash[self.current_chain_hash]. What it keeps is what it
-- has computed, and for None it computes that there is nothing.
def public_key_balances (self : CoinState) (turns : Nat) : Py Balances :=
  PublicKeyBalances.public_key_balances_by_hash crypto self.block_by_hash turns self.current_chain_hash

-- at_head.public_key_balances
def public_key_balances_at_head (self : CoinState) (turns : Nat) : Py Balances :=
  match self.current_chain_hash with
  | none => .error .AssertionError
  | some _ => self.public_key_balances crypto turns

-- at_head.unspent_transaction_outs
def unspent_transaction_outs_at_head (self : CoinState) : Py UnspentTransactionOuts :=
  match self.current_chain_hash with
  | none => .error .AssertionError
  | some current_chain_hash => getItem self.unspent_transaction_outs_by_hash current_chain_hash

end CoinState

-- The dictionaries list their items in the order in which the keys came in.
structure Wallet where
  keypairs : List (Bytes × Bytes)
  unused_public_keys : List Bytes
  public_key_annotations : List (Bytes × String)
  spent_transaction_outputs : Finset OutputReference
  deriving DecidableEq

-- A key pair of the ecdsa package, which makes public keys of 64 bytes.
structure SigningKey where
  private_key : Bytes
  public_key : FixedBytes 64

-- The JSON value that a wallet is dumped to.
structure WalletFile where
  keypairs : List (String × String)
  unused_public_keys : List String
  public_key_annotations : List (String × String)
  deriving DecidableEq

namespace Wallet

def hexValue (digit : Char) : Option Nat :=
  if '0' ≤ digit ∧ digit ≤ '9' then some (digit.toNat - '0'.toNat)
  else if 'a' ≤ digit ∧ digit ≤ 'f' then some (digit.toNat - 'a'.toNat + 10)
  else if 'A' ≤ digit ∧ digit ≤ 'F' then some (digit.toNat - 'A'.toNat + 10)
  else none

def unhexlify : List Char → Py Bytes
  | [] => .ok []
  | [_] => .error (.ValueError "Odd-length string")
  | high :: low :: digits =>
    match hexValue high, hexValue low with
    | some high, some low => do
      let bytes ← unhexlify digits
      return UInt8.ofNat (16 * high + low) :: bytes
    | _, _ => .error (.ValueError "Non-hexadecimal digit found")

-- unhexlify, which may raise on a string from a file.
def computer (s : String) : Py Bytes := unhexlify s.toList

def empty : Wallet := ⟨[], [], [], ∅⟩

def public_keys (self : Wallet) : List Bytes := self.keypairs.map Prod.fst

-- random.choice, by the index that it draws.
def random_choice (choice : Nat) (public_keys : List Bytes) : Py Bytes :=
  match public_keys[choice % public_keys.length]? with
  | some public_key => .ok public_key
  | none => .error .IndexError

def get_annotated_public_key (label : String) (choice : Nat) : Action Wallet PyError Bytes := do
  let self ← read
  match self.unused_public_keys.getLast? with
  | none => raw (random_choice choice self.public_keys)
  | some public_key => do
    change fun self => { self with unused_public_keys := self.unused_public_keys.dropLast }
    change fun self =>
      { self with public_key_annotations := Dict.setItem self.public_key_annotations public_key label }
    return public_key

-- What the key was annotated for is not looked at.
def restore_annotated_public_key (public_key : Bytes) (_label : String) : Action Wallet PyError Unit := do
  let self ← read
  let public_key_annotations ← raw (Dict.delItem .KeyError self.public_key_annotations public_key)
  change fun self => { self with public_key_annotations }
  change fun self => { self with unused_public_keys := self.unused_public_keys ++ [public_key] }

def generate_key (sk : SigningKey) : Action Wallet PyError Unit := do
  change fun self => { self with keypairs := Dict.setItem self.keypairs sk.public_key.1 sk.private_key }
  change fun self => { self with unused_public_keys := self.unused_public_keys ++ [sk.public_key.1] }

def dump (self : Wallet) : WalletFile where
  keypairs := Dict.ofItems (self.keypairs.map fun item => (human item.1, human item.2))
  unused_public_keys := self.unused_public_keys.map human
  public_key_annotations := Dict.ofItems (self.public_key_annotations.map fun item => (human item.1, item.2))

def load (d : WalletFile) : Py Wallet := do
  let keypairs ← collect (fun item => do
    let public_key ← computer item.1
    let private_key ← computer item.2
    return (public_key, private_key)) d.keypairs
  let unused_public_keys ← collect computer d.unused_public_keys
  let public_key_annotations ← collect (fun item => do
    let public_key ← computer item.1
    return (public_key, item.2)) d.public_key_annotations
  return ⟨Dict.ofItems keypairs, unused_public_keys, Dict.ofItems public_key_annotations, ∅⟩

def get_balance (crypto : Crypto) (turns : Nat) (coinstate : CoinState) (self : Wallet) : Py Int := do
  let values ← collect (fun pk => do
    let public_key_balances ← coinstate.public_key_balances crypto turns
    let public_key ← SECP256k1PublicKey.new pk
    return (balanceOf public_key_balances public_key).value)
    (self.public_key_annotations.map Prod.fst ++ self.unused_public_keys)
  return values.sum

end Wallet

-- The signatures that the ecdsa package makes, of which no two need be the
-- same: by the number of the input, the private key and the message. It raises
-- where the private key is malformed.
abbrev Signer := Nat → Bytes → Bytes → Py (FixedBytes 64)

variable (sign : Signer)

def sign_input (wallet : Wallet) (unspent_transaction_outs : UnspentTransactionOuts) (message : Bytes)
    (input : Input × Nat) : Py Input :=
  match unspent_transaction_outs.lookup input.1.output_reference with
  | none => .error (.Exception "Attempting to sign invalid transaction")
  | some output =>
    match Dict.get wallet.keypairs output.public_key.public_key.1 with
    | none => .error (.Exception "Can't sign this; no known private key in wallet")
    | some private_key => do
      let signature ← sign input.2 private_key message
      return ⟨input.1.output_reference, some (.SECP256k1Signature signature)⟩

def sign_transaction (wallet : Wallet) (unspent_transaction_outs : UnspentTransactionOuts)
    (transaction : Transaction) : Py Transaction := do
  let message ← transaction.signable_equivalent.serialize
  let signed_inputs ← collect (sign_input sign wallet unspent_transaction_outs message)
    transaction.signable_equivalent.inputs.zipIdx
  return { inputs := signed_inputs, outputs := transaction.outputs }

-- What is to be spent.
structure Spend where
  value : Nat
  miners_fee : Nat
  output_public_key : SECP256k1PublicKey
  change_address : SECP256k1PublicKey

def Spend.needed (spend : Spend) : Nat := spend.value + spend.miners_fee

-- The second output is for what is left.
def Spend.outputs (spend : Spend) (collected_value : Nat) : List Output :=
  if collected_value ≠ spend.needed then
    [⟨spend.value, spend.output_public_key⟩, ⟨collected_value - spend.needed, spend.change_address⟩]
  else [⟨spend.value, spend.output_public_key⟩]

structure Collected where
  collected_value : Nat
  inputs : List Input

def Collected.add (collected : Collected) (output_reference : OutputReference) (output : Output) : Collected :=
  ⟨collected.collected_value + output.value, collected.inputs ++ [⟨output_reference, none⟩]⟩

-- The transaction that is to be signed.
def Spend.transaction (spend : Spend) (collected : Collected) : Transaction where
  inputs := collected.inputs
  outputs := spend.outputs collected.collected_value

-- The inner loop, which ends with a transaction or with what has been collected.
def spend_references (spend : Spend) (unspent_transaction_outs : UnspentTransactionOuts) (collected : Collected) :
    List OutputReference → Action Wallet PyError (Transaction ⊕ Collected)
  | [] => pure (.inr collected)
  | output_reference :: output_references => do
    let wallet ← read
    if output_reference ∈ wallet.spent_transaction_outputs then
      spend_references spend unspent_transaction_outs collected output_references
    else do
      change fun wallet =>
        { wallet with spent_transaction_outputs := insert output_reference wallet.spent_transaction_outputs }
      let output ← raw (getItem unspent_transaction_outs output_reference)
      let collected := collected.add output_reference output
      if spend.needed ≤ collected.collected_value then do
        let wallet ← read
        let transaction ← raw (sign_transaction sign wallet unspent_transaction_outs (spend.transaction collected))
        return .inl transaction
      else
        spend_references spend unspent_transaction_outs collected output_references

-- The outer loop. A key without a balance has no references.
def spend_keys (crypto : Crypto) (turns : Nat) (coinstate : CoinState) (spend : Spend)
    (unspent_transaction_outs : UnspentTransactionOuts) (collected : Collected) :
    List Bytes → Action Wallet PyError Transaction
  | [] => raw (.error (.Exception "Insufficient balance"))
  | public_key :: public_keys => do
    let public_key ← raw (SECP256k1PublicKey.new public_key)
    let public_key_balances ← raw (coinstate.public_key_balances_at_head crypto turns)
    match public_key_balances.lookup public_key with
    | none => spend_keys crypto turns coinstate spend unspent_transaction_outs collected public_keys
    | some balance => do
      match ← spend_references sign spend unspent_transaction_outs collected balance.output_references with
      | .inl transaction => return transaction
      | .inr collected => spend_keys crypto turns coinstate spend unspent_transaction_outs collected public_keys

def create_spend_transaction (crypto : Crypto) (turns : Nat) (coinstate : CoinState) (spend : Spend) :
    Action Wallet PyError Transaction := do
  let unspent_transaction_outs ← raw coinstate.unspent_transaction_outs_at_head
  let wallet ← read
  spend_keys sign crypto turns coinstate spend unspent_transaction_outs ⟨0, []⟩ wallet.public_keys

end Skepticoin
