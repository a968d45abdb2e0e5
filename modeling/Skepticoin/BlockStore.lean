import Skepticoin.CoinState
import Skepticoin.Lib.Dict
import Skepticoin.Lib.Effect
import Skepticoin.Lib.Table

namespace Skepticoin

open Guard Dict Effect Table

-- The zero hash is stored as a null.
def nullify_zeros (value : Hash) : Option Hash := if value = zero_hash then none else some value

def zeroify_nulls (value : Option Hash) : Hash := value.getD zero_hash

-- The rows of the four tables. The version of a block, always 0, is left out.
structure ChainRow where
  block_hash : Hash
  height : Nat
  previous_block_hash : Option Hash
  merkle_root_hash : Hash
  timestamp : Nat
  target : Hash
  nonce : Nat
  pow_summary_hash : Hash
  pow_chain_sample : Bytes
  pow_block_hash : Hash
  deriving DecidableEq

structure LocatorRow where
  transaction_hash : Hash
  block_hash : Hash
  deriving DecidableEq

structure InputRow where
  transaction_hash : Hash
  seq : Nat
  output_reference_hash : Option Hash
  output_reference_index : Nat
  signature : Option Bytes
  deriving DecidableEq

structure OutputRow where
  transaction_hash : Hash
  seq : Nat
  value : Nat
  public_key : Bytes
  deriving DecidableEq

def InputRow.key (row : InputRow) : Hash × Nat := (row.transaction_hash, row.seq)

def OutputRow.key (row : OutputRow) : Hash × Nat := (row.transaction_hash, row.seq)

structure Database where
  chain : List ChainRow
  transaction_locator : List LocatorRow
  transaction_inputs : List InputRow
  transaction_outputs : List OutputRow
  deriving DecidableEq

section Statements

-- A Python integer that does not fit into 64 bits with a sign cannot be bound.
-- The position in a list always fits.
def bind_integers (values : List Nat) : Py Unit := raiseIf (∃ value ∈ values, 2 ^ 63 ≤ value) .OverflowError

-- insert or ignore: a row whose key is taken is dropped, and any other has to
-- refer to rows that are there.
def insert_row {ρ κ : Type} [DecidableEq κ] (key : ρ → κ) (integers : ρ → List Nat) (refers : ρ → Prop)
    [DecidablePred refers] (table : List ρ) (row : ρ) : Py (List ρ) := do
  bind_integers (integers row)
  raiseIf (key row ∉ table.map key ∧ ¬refers row) .IntegrityError
  return insertOrIgnore key table row

def insert_chain (db : Database) (row : ChainRow) : Py Database := do
  let chain ← insert_row ChainRow.block_hash (fun row => [row.height, row.timestamp, row.nonce])
    (fun row => ∀ previous ∈ row.previous_block_hash,
      previous = row.block_hash ∨ previous ∈ db.chain.map ChainRow.block_hash) db.chain row
  return { db with chain }

def insert_transaction_locator (db : Database) (row : LocatorRow) : Py Database := do
  let transaction_locator ← insert_row LocatorRow.transaction_hash (fun _ => [])
    (fun row => row.block_hash ∈ db.chain.map ChainRow.block_hash) db.transaction_locator row
  return { db with transaction_locator }

def insert_transaction_outputs (db : Database) (row : OutputRow) : Py Database := do
  let transaction_outputs ← insert_row OutputRow.key (fun row => [row.value])
    (fun row => row.transaction_hash ∈ db.transaction_locator.map LocatorRow.transaction_hash)
    db.transaction_outputs row
  return { db with transaction_outputs }

def insert_transaction_inputs (db : Database) (row : InputRow) : Py Database := do
  let transaction_inputs ← insert_row InputRow.key (fun row => [row.output_reference_index])
    (fun row => row.transaction_hash ∈ db.transaction_locator.map LocatorRow.transaction_hash ∧
      ∀ hash ∈ row.output_reference_hash,
        (hash, row.output_reference_index) ∈ db.transaction_outputs.map OutputRow.key)
    db.transaction_inputs row
  return { db with transaction_inputs }

end Statements

-- What is committed, what an open transaction sees, and the buffer.
structure BlockStore where
  committed : Database
  pending : Option Database
  write_buffer : List Block
  deriving DecidableEq

namespace BlockStore

variable (crypto : Crypto)

section Write

-- BEGIN TRANSACTION fails while a transaction is open.
def begin_transaction : Action BlockStore PyError Unit := fun self =>
  if self.pending.isSome then (.error .OperationalError, self)
  else (.ok (), { self with pending := some self.committed })

-- A statement that fails leaves the transaction open, with the rows before it.
def execute {ρ : Type} (insert : Database → ρ → Py Database) (row : ρ) : Action BlockStore PyError Unit :=
  fun self =>
    match self.pending with
    | none => (.error .OperationalError, self)
    | some db =>
      match insert db row with
      | .ok db => (.ok (), { self with pending := some db })
      | .error e => (.error e, self)

def commit : Action BlockStore PyError Unit := change fun self =>
  { self with
    committed := self.pending.getD self.committed
    pending := none }

def chain_row (block_hash : Hash) (block : Block) : ChainRow where
  block_hash
  height := block.height
  previous_block_hash := nullify_zeros block.previous_block_hash
  merkle_root_hash := block.header.summary.merkle_root_hash
  timestamp := block.timestamp
  target := block.target
  nonce := block.header.summary.nonce
  pow_summary_hash := block.header.pow_evidence.summary_hash
  pow_chain_sample := block.header.pow_evidence.chain_sample
  pow_block_hash := block.header.pow_evidence.block_hash

-- input.signature.serialize() if input.signature else None
def serialize_signature : Option Signature → Py (Option Bytes)
  | none => .ok none
  | some signature => do
    let bytes ← signature.stream_serialize
    return some bytes

def input_row (transaction_hash : Hash) (item : Input × Nat) : Py InputRow := do
  let signature ← serialize_signature item.1.signature
  return {
    transaction_hash
    seq := item.2
    output_reference_hash := nullify_zeros item.1.output_reference.hash
    output_reference_index := item.1.output_reference.index
    signature }

def output_row (transaction_hash : Hash) (item : Output × Nat) : OutputRow where
  transaction_hash
  seq := item.2
  value := item.1.value
  public_key := item.1.public_key.stream_serialize

-- The rows that one transaction of a block brings, keyed by the hash of its
-- bytes as they are now.
structure TransactionRows where
  transaction : LocatorRow
  inputs : List InputRow
  outputs : List OutputRow
  deriving DecidableEq

def transaction_rows (block_hash : Hash) (transaction : Transaction) : Py TransactionRows := do
  let transaction_bytes ← transaction.serialize
  let transaction_hash := crypto.sha256d transaction_bytes
  let inputs ← collect (input_row transaction_hash) transaction.inputs.zipIdx
  return {
    transaction := { transaction_hash, block_hash }
    inputs
    outputs := transaction.outputs.zipIdx.map (output_row transaction_hash) }

structure BlockRows where
  block : ChainRow
  transactions : List TransactionRows
  deriving DecidableEq

def block_rows (block : Block) : Py BlockRows := do
  let block_hash ← block.hash crypto
  let transactions ← collect (transaction_rows crypto block_hash) block.transactions
  return { block := chain_row block_hash block, transactions }

def write_blocks_to_disk (blocks : List Block) : Action BlockStore PyError Unit := do
  let params ← raw (collect (block_rows crypto) blocks)
  let transactions_params := params.flatMap BlockRows.transactions
  begin_transaction
  forEach (execute insert_chain) (params.map BlockRows.block)
  forEach (execute insert_transaction_locator) (transactions_params.map TransactionRows.transaction)
  forEach (execute insert_transaction_outputs) (transactions_params.flatMap TransactionRows.outputs)
  forEach (execute insert_transaction_inputs) (transactions_params.flatMap TransactionRows.inputs)
  commit

def add_block_to_buffer (block : Block) : Action BlockStore PyError Unit := change fun self =>
  { self with write_buffer := self.write_buffer ++ [block] }

def flush_blocks_to_disk : Action BlockStore PyError Unit := do
  let self ← read
  if self.write_buffer ≠ [] then do
    write_blocks_to_disk crypto self.write_buffer
    change fun self => { self with write_buffer := [] }
  else
    pure ()

-- A store in a new file holds the genesis block.
def new : Py BlockStore := do
  let block ← Block.deserialize crypto genesis_block_data
  let (result, self) := write_blocks_to_disk crypto [block] {
    committed := ⟨[], [], [], []⟩
    pending := none
    write_buffer := [] }
  result
  return self

end Write

section Read

structure TransactionBuilder where
  block_hash : Hash
  inputs : List (Nat × Input)
  outputs : List (Nat × Output)
  deriving DecidableEq

def load_transaction_builders (db : Database) : List (Hash × TransactionBuilder) :=
  db.transaction_locator.foldl
    (fun builders row => setItem builders row.transaction_hash ⟨row.block_hash, [], []⟩) []

-- Signature.deserialize(signature) if signature else None; what follows the
-- signature is ignored.
def deserialize_signature : Option Bytes → Py (Option Signature)
  | none => .ok none
  | some [] => .ok none
  | some bytes => do
    let (signature, _) ← Signature.stream_deserialize bytes
    return some signature

def parse_input (row : InputRow) : Py Input := do
  let output_reference ←
    OutputReference.new (zeroify_nulls row.output_reference_hash) row.output_reference_index
  let signature ← deserialize_signature row.signature
  return { output_reference, signature }

def parse_output (row : OutputRow) : Py Output := do
  let (public_key, _) ← PublicKey.stream_deserialize row.public_key
  return { value := row.value, public_key }

def load_inputs (db : Database) (builders : List (Hash × TransactionBuilder)) :
    Py (List (Hash × TransactionBuilder)) :=
  modifyAll .KeyError InputRow.transaction_hash parse_input
    (fun builder row input => { builder with inputs := setItem builder.inputs row.seq input })
    builders db.transaction_inputs

def load_outputs (db : Database) (builders : List (Hash × TransactionBuilder)) :
    Py (List (Hash × TransactionBuilder)) :=
  modifyAll .KeyError OutputRow.transaction_hash parse_output
    (fun builder row output => { builder with outputs := setItem builder.outputs row.seq output })
    builders db.transaction_outputs

-- Of two groups of one block, the later one stays.
def block_builders (builders : List (Hash × TransactionBuilder)) :
    List (Hash × List (Hash × TransactionBuilder)) :=
  (groupBy (fun item => item.2.block_hash) builders).foldl (fun groups group =>
    match group with
    | [] => groups
    | item :: _ => setItem groups item.2.block_hash group) []

def build_transaction (item : Hash × TransactionBuilder) : Transaction where
  inputs := (sortedByKey item.2.inputs).map Prod.snd
  outputs := (sortedByKey item.2.outputs).map Prod.snd
  cached_hash := some item.1

def build_block (row : ChainRow) (builders : List (Hash × TransactionBuilder)) : Block where
  header := {
    summary := {
      height := row.height
      previous_block_hash := zeroify_nulls row.previous_block_hash
      merkle_root_hash := row.merkle_root_hash
      timestamp := row.timestamp
      target := row.target
      nonce := row.nonce }
    pow_evidence := {
      summary_hash := row.pow_summary_hash
      chain_sample := row.pow_chain_sample
      block_hash := row.pow_block_hash } }
  transactions := builders.map build_transaction
  cached_hash := some row.block_hash

-- How `select .. from chain order by height` orders rows of one height is not
-- said.
structure OrderByHeight where
  run : List ChainRow → List ChainRow
  perm : ∀ rows, (run rows).Perm rows
  sorted : ∀ rows, (run rows).Pairwise fun a b => a.height ≤ b.height

-- What the connection sees.
def view (self : BlockStore) : Database := self.pending.getD self.committed

def read_blocks_from_disk (order_by_height : OrderByHeight) (self : BlockStore) : Py (List Block) := do
  let db := self.view
  let transaction_builders := load_transaction_builders db
  let transaction_builders ← load_inputs db transaction_builders
  let transaction_builders ← load_outputs db transaction_builders
  let block_builders := block_builders transaction_builders
  return (order_by_height.run db.chain).filterMap fun row =>
    (get block_builders row.block_hash).map (build_block row)

end Read

end BlockStore

-- A block that cannot be added is skipped.
def add_or_skip (crypto : Crypto) (coinstate : CoinState) (block : Block) : CoinState :=
  match coinstate.add_block_no_validation crypto block with
  | .ok next => next
  | .error _ => coinstate

def read_chain (crypto : Crypto) (blocks : List Block) : CoinState :=
  blocks.foldl (add_or_skip crypto) .empty

def read_chain_from_disk (crypto : Crypto) (order_by_height : BlockStore.OrderByHeight)
    (store : BlockStore) : Py CoinState := do
  let blocks ← store.read_blocks_from_disk order_by_height
  return read_chain crypto blocks

end Skepticoin
