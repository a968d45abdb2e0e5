import Skepticoin.Networking.Manager

namespace Skepticoin

open Guard FMap

variable (crypto : Crypto)

-- The loop over the potential start hashes. Nothing is returned where the
-- handler replies that it has no new info.
def find_start_height (coinstate : CoinState) : List Hash → Py (Option Nat)
  | [] => .ok (some 1)
  | potential_start_hash :: potential_start_hashes =>
    match coinstate.block_by_hash.lookup potential_start_hash with
    | none => find_start_height coinstate potential_start_hashes
    | some block => do
      let start_height := block.height + 1
      let block_by_height ← coinstate.by_height_at_head
      match block_by_height.lookup start_height with
      | none => return none
      | some next =>
        if next.previous_block_hash = potential_start_hash then return some start_height
        else find_start_height coinstate potential_start_hashes

def inventory_item (coinstate : CoinState) (height : Nat) : Py InventoryItem := do
  let block_by_height ← coinstate.by_height_at_head
  let block ← getItem block_by_height height
  let hash ← block.hash crypto
  return ⟨DATA_BLOCK, hash⟩

-- The message that is sent in reply.
def handle_get_blocks_message_received (coinstate : CoinState) (message : GetBlocksMessage) :
    Py InventoryMessage := do
  match ← find_start_height coinstate message.potential_start_hashes with
  | none => return ⟨[]⟩
  | some start_height =>
    let head ← coinstate.head
    let max_height := head.height + 1
    let stop_height := min (start_height + GET_BLOCKS_INVENTORY_SIZE) max_height
    let items ← collect (inventory_item crypto coinstate)
      (List.range' start_height (stop_height - start_height))
    return ⟨items⟩

-- An inventory message that has been received; each item comes with whether
-- its block has been requested.
structure InventoryMessageState where
  header : MessageHeader
  items : List (InventoryItem × Bool)
  actually_used : Bool
  deriving DecidableEq

structure Inventory where
  inventory_messages : List InventoryMessageState
  waiting_for_inventory : Bool
  last_empty_inventory_response_at : Nat
  deriving DecidableEq

-- What is sent in response to which header.
abbrev Sent := MessageHeader × Message

def request_item (coinstate : CoinState) (header : MessageHeader) (item : InventoryItem × Bool) :
    (InventoryItem × Bool) × List Sent :=
  if item.2 = false ∧ item.1.hash ∉ coinstate.block_by_hash then
    ((item.1, true), [(header, .GetData ⟨DATA_BLOCK, item.1.hash⟩)])
  else (item, [])

def use_inventory_message (coinstate : CoinState) (msg_state : InventoryMessageState) :
    InventoryMessageState × List Sent :=
  if msg_state.actually_used then (msg_state, [])
  else
    let requested := msg_state.items.map (request_item coinstate msg_state.header)
    ({ msg_state with actually_used := true, items := requested.map Prod.fst },
      requested.flatMap Prod.snd)

def check_inventory_messages (coinstate : CoinState) (inventory_messages : List InventoryMessageState) :
    List InventoryMessageState × List Sent :=
  let used := inventory_messages.map (use_inventory_message coinstate)
  (used.map Prod.fst, used.flatMap Prod.snd)

-- Python's [-1]
def last_item (items : List InventoryItem) : Py InventoryItem :=
  match items.getLast? with
  | none => .error .IndexError
  | some item => .ok item

def handle_inventory_message_received (coinstate : CoinState) (current_time : Nat)
    (inventory : Inventory) (header : MessageHeader) (message : InventoryMessage) :
    Py (Inventory × List Sent) := do
  raiseIf (message.items.length > GET_BLOCKS_INVENTORY_SIZE) (.Exception "Inventory msg too big")
  if message.items = [] then
    return ({ inventory with
      last_empty_inventory_response_at := current_time
      waiting_for_inventory := false }, [])
  else
    let msg_state : InventoryMessageState := ⟨header, message.items.map fun item => (item, false), false⟩
    let (inventory_messages, requests) :=
      check_inventory_messages coinstate (inventory.inventory_messages ++ [msg_state])
    let last ← last_item message.items
    let get_blocks_message : GetBlocksMessage := { potential_start_hashes := [last.hash] }
    return ({ inventory with inventory_messages }, requests ++ [(header, .GetBlocks get_blocks_message)])

end Skepticoin
