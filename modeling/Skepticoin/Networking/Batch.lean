import Skepticoin.CoinState.ForkChoice
import Skepticoin.Networking.RemotePeer

namespace Skepticoin

open Guard FMap

namespace InventoryMessageState

def hashes (self : InventoryMessageState) : List Hash := self.items.map fun item => item.1.hash

-- The inner loop, which stops at the first item of the hash.
def remove (hash : Hash) (self : InventoryMessageState) : InventoryMessageState :=
  { self with items := self.items.eraseP fun item => item.1.hash = hash }

end InventoryMessageState

-- The loop over the messages, which stops at the first that is empty then.
def remove_from_inventory (hash : Hash) : List InventoryMessageState → List InventoryMessageState
  | [] => []
  | msg_state :: msg_states =>
    let msg_state := msg_state.remove hash
    if msg_state.items = [] then msg_states else msg_state :: remove_from_inventory hash msg_states

def inventory_batch_handled (peer : Inventory) : Bool :=
  !peer.waiting_for_inventory && peer.inventory_messages = []

def Inventory.ask (self : Inventory) : Inventory := { self with waiting_for_inventory := true }

-- What ChainManager.step reads and writes, with the peers by their keys.
structure Fetching (κ : Type) where
  started_at : Nat
  actively_fetching_blocks_from_peers : List (Nat × κ)
  inventories : κ → Inventory

namespace Fetching

variable {κ : Type} [DecidableEq κ]

def should_actively_fetch_blocks (self : Fetching κ) (coinstate : CoinState) (current_time : Nat) : Py Bool := do
  let head ← coinstate.head
  return current_time > head.timestamp + SWITCH_TO_ACTIVE_MODE_TIMEOUT ∨
    current_time ≤ self.started_at + 60 ∨ current_time % 60 = 0

def ibd_candidates (self : Fetching κ) (current_time : Nat) (active_peers : List κ) : List κ :=
  active_peers.filter fun peer =>
    current_time > (self.inventories peer).last_empty_inventory_response_at + EMPTY_INVENTORY_BACKOFF

def still_fetching (self : Fetching κ) (current_time : Nat) : List (Nat × κ) :=
  self.actively_fetching_blocks_from_peers.filter fun entry =>
    current_time < entry.1 ∧ inventory_batch_handled (self.inventories entry.2) = false

-- The random choice is an argument. With what is sent to whom.
def step (crypto : Crypto) (coinstate : CoinState) (current_time : Nat) (active_peers : List κ) (choice : Nat)
    (self : Fetching κ) : Py (Fetching κ × Option (κ × GetBlocksMessage)) := do
  let should ← self.should_actively_fetch_blocks coinstate current_time
  if should = false then return (self, none)
  else
    let ibd_candidates := self.ibd_candidates current_time active_peers
    match ibd_candidates[choice % ibd_candidates.length]? with
    | none => return (self, none)
    | some remote_peer =>
      let self := { self with actively_fetching_blocks_from_peers := self.still_fetching current_time }
      if self.actively_fetching_blocks_from_peers.length > MAX_IBD_PEERS then return (self, none)
      else
        let get_blocks_message ← get_get_blocks_message crypto coinstate
        return ({ self with
          inventories := Function.update self.inventories remote_peer (self.inventories remote_peer).ask
          actively_fetching_blocks_from_peers :=
            self.actively_fetching_blocks_from_peers ++ [(current_time + IBD_PEER_TIMEOUT, remote_peer)] },
          some (remote_peer, get_blocks_message))

-- A step asks nobody, or one of the active peers. Where it asks nobody, it may
-- still have dropped entries from the list.
theorem step_cases {crypto : Crypto} {coinstate : CoinState} {current_time choice : Nat} {active_peers : List κ}
    {self next : Fetching κ} {sent : Option (κ × GetBlocksMessage)}
    (h : self.step crypto coinstate current_time active_peers choice = .ok (next, sent)) :
    sent = none ∧ next.inventories = self.inventories ∨
      ∃ remote_peer ∈ active_peers, ∃ message, get_get_blocks_message crypto coinstate = .ok message ∧
        sent = some (remote_peer, message) ∧
        next.inventories = Function.update self.inventories remote_peer (self.inventories remote_peer).ask := by
  simp only [step, bind_eq_ok] at h
  obtain ⟨should, _, h⟩ := h
  by_cases hshould : should = false
  · rw [if_pos hshould, pure_eq_ok, Prod.mk.injEq] at h
    exact .inl ⟨h.2.symm, by rw [← h.1]⟩
  · rw [if_neg hshould] at h
    generalize hcandidate : (self.ibd_candidates current_time active_peers)[
      choice % (self.ibd_candidates current_time active_peers).length]? = candidate at h
    cases candidate with
    | none =>
        rw [pure_eq_ok, Prod.mk.injEq] at h
        exact .inl ⟨h.2.symm, by rw [← h.1]⟩
    | some remote_peer =>
        have hactive := (List.mem_filter.mp (List.mem_of_getElem? hcandidate)).1
        by_cases hmany : (self.still_fetching current_time).length > MAX_IBD_PEERS
        · simp only [if_pos hmany, pure_eq_ok, Prod.mk.injEq] at h
          exact .inl ⟨h.2.symm, by rw [← h.1]⟩
        · simp only [if_neg hmany, bind_eq_ok, pure_eq_ok, Prod.mk.injEq] at h
          obtain ⟨message, hmessage, hnext, hsent⟩ := h
          exact .inr ⟨remote_peer, hactive, message, hmessage, hsent.symm, by rw [← hnext]⟩

end Fetching

def Message.get_data : Message → Option Hash
  | .GetData message => some message.hash
  | _ => none

-- One connection: the state of its inventory, and the hashes for which a
-- GetDataMessage was sent and no block has been received since.
structure Batch where
  inventory : Inventory
  unanswered : List Hash
  deriving DecidableEq

namespace Batch

variable (crypto : Crypto)

def start : Batch := ⟨⟨[], false, 0⟩, []⟩

-- The coinstate is the one at the moment that the message is handled.
inductive Event where
  | ask
  | inventory (coinstate : CoinState) (current_time : Nat) (header : MessageHeader) (message : InventoryMessage)
  | block (block : Block)

def step (self : Batch) : Event → Py Batch
  | .ask => .ok { self with inventory := self.inventory.ask }
  | .inventory coinstate current_time header message => do
    let (inventory, sent) ← handle_inventory_message_received coinstate current_time self.inventory header message
    return { inventory, unanswered := self.unanswered ++ sent.filterMap fun s => s.2.get_data }
  -- handle_block_received, which does not touch the inventory after that
  | .block block => do
    let block_hash ← block.hash crypto
    let inventory_messages := remove_from_inventory block_hash self.inventory.inventory_messages
    return { inventory := { self.inventory with inventory_messages }
             unanswered := self.unanswered.filter fun hash => hash ≠ block_hash }

def run (self : Batch) : List Event → Py Batch
  | [] => .ok self
  | event :: events => do
    let next ← self.step crypto event
    next.run events

def Recognised (self : Batch) : Prop :=
  self.inventory.waiting_for_inventory = false → self.unanswered = [] → inventory_batch_handled self.inventory = true

end Batch

-- A hash that a removal takes away altogether: no message lists it twice, and
-- none lists it after a message with nothing else.
def RemovedAtOnce (hash : Hash) (msg_states : List InventoryMessageState) : Prop :=
  (∀ msg_state ∈ msg_states, msg_state.hashes.count hash ≤ 1) ∧
    msg_states.Pairwise fun msg_state later => msg_state.hashes = [hash] → hash ∉ later.hashes

namespace Batch

variable (crypto : Crypto)

-- What is listed is unknown or asked for already, and a received block is
-- removed altogether.
def Careful (self : Batch) : Event → Prop
  | .ask => True
  | .inventory coinstate _ _ message =>
    ∀ item ∈ message.items, item.hash ∈ coinstate.block_by_hash → item.hash ∈ self.unanswered
  | .block block => ∀ hash, block.hash crypto = .ok hash → RemovedAtOnce hash self.inventory.inventory_messages

inductive CarefulRun : Batch → Prop
  | start : CarefulRun start
  | step {self next : Batch} (event : Event) : CarefulRun self → self.Careful crypto event →
      self.step crypto event = .ok next → CarefulRun next

end Batch

section Removal

-- The hashes that the messages list.
def offered (msg_states : List InventoryMessageState) : List Hash := msg_states.flatMap InventoryMessageState.hashes

-- Messages that have been used, and still list something.
def AllOpen (msg_states : List InventoryMessageState) : Prop :=
  ∀ msg_state ∈ msg_states, msg_state.items ≠ [] ∧ msg_state.actually_used = true

variable {hash : Hash} {msg_state : InventoryMessageState} {msg_states : List InventoryMessageState}

@[simp] theorem hashes_remove : (msg_state.remove hash).hashes = msg_state.hashes.erase hash := by
  have hsame : (fun item : InventoryItem × Bool => decide (item.1.hash = hash)) =
      (fun other => other == hash) ∘ fun item => item.1.hash := by
    funext item
    exact (beq_eq_decide item.1.hash hash).symm
  rw [InventoryMessageState.hashes, InventoryMessageState.hashes, List.erase_eq_eraseP', List.eraseP_map, ← hsame]
  rfl

@[simp] theorem hashes_eq_nil : msg_state.hashes = [] ↔ msg_state.items = [] :=
  List.map_eq_nil_iff

theorem remove_eq_nil (hash : Hash) (hne : msg_state.items ≠ []) :
    (msg_state.remove hash).items = [] ↔ msg_state.hashes = [hash] := by
  rw [← hashes_eq_nil, hashes_remove, List.erase_eq_nil_iff, hashes_eq_nil]
  exact or_iff_right hne

-- Other hashes stay where they are.
theorem offered_remove_other {other : Hash} (hother : other ≠ hash) :
    other ∈ offered (remove_from_inventory hash msg_states) ↔ other ∈ offered msg_states := by
  induction msg_states with
  | nil => rfl
  | cons msg_state msg_states ih =>
      have hfirst : other ∈ (msg_state.remove hash).hashes ↔ other ∈ msg_state.hashes := by
        rw [hashes_remove, List.mem_erase_of_ne hother]
      rw [remove_from_inventory]
      split_ifs with hempty
      · rw [hashes_eq_nil.mpr hempty] at hfirst
        simp [offered, ← hfirst]
      · simp only [offered, List.flatMap_cons, List.mem_append] at ih ⊢
        rw [hfirst, ih]

-- The loop takes a hash away altogether only where it meets the condition.
theorem not_offered_remove_iff (hash : Hash) (hopen : ∀ msg_state ∈ msg_states, msg_state.items ≠ []) :
    hash ∉ offered (remove_from_inventory hash msg_states) ↔ RemovedAtOnce hash msg_states := by
  induction msg_states with
  | nil => simp [remove_from_inventory, offered, RemovedAtOnce]
  | cons msg_state msg_states ih =>
      obtain ⟨hne, hrest⟩ := List.forall_mem_cons.mp hopen
      have hlast := remove_eq_nil hash hne
      rw [remove_from_inventory]
      split_ifs with hempty
      · have hone := hlast.mp hempty
        simp only [RemovedAtOnce, offered, List.mem_flatMap, not_exists, not_and, List.forall_mem_cons,
          List.pairwise_cons, hone, List.count_singleton_self, Nat.le_refl, true_and, forall_true_left]
        constructor
        · intro hnone
          refine ⟨fun later hlater => ?_, hnone, ?_⟩
          · rw [List.count_eq_zero_of_not_mem (hnone later hlater)]
            exact Nat.zero_le 1
          · exact List.pairwise_of_forall_mem_list fun _ _ later hlater _ => hnone later hlater
        · exact fun honce => honce.2.1
      · have hmore : msg_state.hashes ≠ [hash] := fun hone => hempty (hlast.mpr hone)
        have hcount : hash ∉ msg_state.hashes.erase hash ↔ msg_state.hashes.count hash ≤ 1 := by
          rw [← List.count_eq_zero, List.count_erase_self]
          omega
        have htail := ih hrest
        simp only [RemovedAtOnce, offered, List.flatMap_cons, List.mem_append, not_or, List.forall_mem_cons,
          List.pairwise_cons, hashes_remove, hmore, false_imp_iff, implies_true, true_and] at htail ⊢
        rw [hcount, htail, and_assoc]

theorem remove_open (hopen : AllOpen msg_states) : AllOpen (remove_from_inventory hash msg_states) := by
  induction msg_states with
  | nil => exact hopen
  | cons msg_state msg_states ih =>
      obtain ⟨hfirst, hrest⟩ := List.forall_mem_cons.mp hopen
      rw [remove_from_inventory]
      split_ifs with hempty
      · exact hrest
      · exact List.forall_mem_cons.mpr ⟨⟨hempty, hfirst.2⟩, ih hrest⟩

-- Where every message lists something, nothing is offered only by no messages.
theorem offered_eq_nil (hopen : AllOpen msg_states) : offered msg_states = [] ↔ msg_states = [] := by
  cases msg_states with
  | nil => simp [offered]
  | cons msg_state msg_states =>
      obtain ⟨hfirst, _⟩ := List.forall_mem_cons.mp hopen
      simp [offered, hfirst.1]

end Removal

section Received

variable {coinstate : CoinState} {msg_state : InventoryMessageState} {msg_states : List InventoryMessageState}

theorem use_used (hused : msg_state.actually_used = true) :
    use_inventory_message coinstate msg_state = (msg_state, []) := by
  rw [use_inventory_message, if_pos hused]

theorem check_open (coinstate : CoinState) (hopen : AllOpen msg_states) :
    check_inventory_messages coinstate msg_states = (msg_states, []) := by
  have hsame : msg_states.map (use_inventory_message coinstate) = msg_states.map fun msg_state => (msg_state, []) :=
    List.map_congr_left fun msg_state hmem => use_used (hopen msg_state hmem).2
  rw [check_inventory_messages, hsame]
  simp [Function.comp_def]

theorem check_append {last : InventoryMessageState} (hopen : AllOpen msg_states) :
    check_inventory_messages coinstate (msg_states ++ [last]) =
      (msg_states ++ [(use_inventory_message coinstate last).1], (use_inventory_message coinstate last).2) := by
  have hchecked := check_open coinstate hopen
  simp only [check_inventory_messages, Prod.mk.injEq, List.map_append, List.flatMap_append] at hchecked ⊢
  rw [hchecked.1, hchecked.2]
  simp

@[simp] theorem request_item_item (header : MessageHeader) (item : InventoryItem × Bool) :
    (request_item coinstate header item).1.1 = item.1 := by
  rw [request_item]
  split_ifs <;> rfl

theorem use_hashes (coinstate : CoinState) (msg_state : InventoryMessageState) :
    (use_inventory_message coinstate msg_state).1.hashes = msg_state.hashes := by
  rw [use_inventory_message]
  split_ifs
  · rfl
  · simp [InventoryMessageState.hashes]

theorem use_actually_used : (use_inventory_message coinstate msg_state).1.actually_used = true := by
  rw [use_inventory_message]
  split_ifs with hused
  · exact hused
  · rfl

-- Of a new message what is unknown is asked for.
theorem mem_requested (header : MessageHeader) (items : List InventoryItem) (hash : Hash) :
    hash ∈ (use_inventory_message coinstate ⟨header, items.map fun item => (item, false), false⟩).2.filterMap
      (fun s => s.2.get_data) ↔ hash ∈ items.map InventoryItem.hash ∧ hash ∉ coinstate.block_by_hash := by
  have hitem : ∀ item : InventoryItem, (request_item coinstate header (item, false)).2.filterMap
      (fun s => s.2.get_data) = if item.hash ∈ coinstate.block_by_hash then [] else [item.hash] := by
    intro item
    by_cases hknown : item.hash ∈ coinstate.block_by_hash
    · simp [request_item, hknown]
    · simp [request_item, hknown, Message.get_data]
  simp only [use_inventory_message, Bool.false_eq_true, if_false, List.map_map, List.flatMap_map,
    List.filterMap_flatMap, Function.comp_apply, hitem, List.mem_flatMap, List.mem_map]
  constructor
  · intro hmem
    obtain ⟨item, hin, hhash⟩ := hmem
    split_ifs at hhash with hknown
    · cases hhash
    · rw [List.mem_singleton.mp hhash]
      exact ⟨⟨item, hin, rfl⟩, hknown⟩
  · intro hmem
    obtain ⟨⟨item, hin, rfl⟩, hunknown⟩ := hmem
    exact ⟨item, hin, by simp [hunknown]⟩

-- What an inventory message lists is added, and what of it is unknown is asked for.
theorem inventory_received {current_time : Nat} {inventory inventory' : Inventory} {header : MessageHeader}
    {message : InventoryMessage} {sent : List Sent} (hopen : AllOpen inventory.inventory_messages)
    (h : handle_inventory_message_received coinstate current_time inventory header message = .ok (inventory', sent)) :
    AllOpen inventory'.inventory_messages ∧
      (∀ hash, hash ∈ offered inventory'.inventory_messages ↔
        hash ∈ offered inventory.inventory_messages ∨ hash ∈ message.items.map InventoryItem.hash) ∧
      ∀ hash, hash ∈ sent.filterMap (fun s => s.2.get_data) ↔
        hash ∈ message.items.map InventoryItem.hash ∧ hash ∉ coinstate.block_by_hash := by
  simp only [handle_inventory_message_received, bind_eq_ok, raiseIf_eq_ok, exists_const] at h
  obtain ⟨_, h⟩ := h
  by_cases hempty : message.items = []
  · rw [if_pos hempty, pure_eq_ok, Prod.mk.injEq] at h
    rw [← h.1, ← h.2, hempty]
    exact ⟨hopen, by simp, by simp⟩
  · rw [if_neg hempty] at h
    simp only [bind_eq_ok, pure_eq_ok, Prod.mk.injEq, check_append hopen] at h
    obtain ⟨_, _, hinventory, hsent⟩ := h
    have hhashes := use_hashes coinstate ⟨header, message.items.map fun item => (item, false), false⟩
    have hlisted : (InventoryMessageState.mk header (message.items.map fun item => (item, false)) false).hashes =
        message.items.map InventoryItem.hash := by
      simp [InventoryMessageState.hashes]
    rw [hlisted] at hhashes
    rw [← hinventory, ← hsent]
    refine ⟨?_, ?_, ?_⟩
    · refine List.forall_mem_append.mpr ⟨hopen, List.forall_mem_singleton.mpr ⟨?_, use_actually_used⟩⟩
      rw [← hashes_eq_nil.ne, hhashes]
      simpa using hempty
    · intro hash
      rw [offered, offered, List.flatMap_append, List.mem_append, List.flatMap_singleton, hhashes]
    · intro hash
      rw [List.filterMap_append, List.mem_append, mem_requested]
      simp [Message.get_data]

end Received

namespace Batch

variable {crypto : Crypto} {self next : Batch} {event : Event}

-- No message lists anything but what is awaited.
structure Covered (batch : Batch) : Prop where
  all_open : AllOpen batch.inventory.inventory_messages
  awaited : ∀ hash ∈ offered batch.inventory.inventory_messages, hash ∈ batch.unanswered

theorem Covered.recognised (h : self.Covered) : self.Recognised := by
  intro hwaiting hanswered
  have hnone : offered self.inventory.inventory_messages = [] := by
    rw [List.eq_nil_iff_forall_not_mem]
    intro hash hmem
    have hawaited := h.awaited hash hmem
    rw [hanswered] at hawaited
    cases hawaited
  rw [inventory_batch_handled, hwaiting, (offered_eq_nil h.all_open).mp hnone]
  rfl

theorem step_inventory {coinstate : CoinState} {current_time : Nat} {header : MessageHeader}
    {message : InventoryMessage} (hopen : AllOpen self.inventory.inventory_messages)
    (h : self.step crypto (.inventory coinstate current_time header message) = .ok next) :
    AllOpen next.inventory.inventory_messages ∧
      (∀ hash, hash ∈ offered next.inventory.inventory_messages ↔
        hash ∈ offered self.inventory.inventory_messages ∨ hash ∈ message.items.map InventoryItem.hash) ∧
      ∀ hash, hash ∈ next.unanswered ↔ hash ∈ self.unanswered ∨
        hash ∈ message.items.map InventoryItem.hash ∧ hash ∉ coinstate.block_by_hash := by
  simp only [step, bind_eq_ok, pure_eq_ok, Prod.exists] at h
  obtain ⟨inventory, sent, hrun, hnext⟩ := h
  obtain ⟨hopen', hoffered, hrequested⟩ := inventory_received hopen hrun
  rw [← hnext]
  refine ⟨hopen', hoffered, fun hash => ?_⟩
  rw [List.mem_append, hrequested]

theorem step_block {block : Block} (h : self.step crypto (.block block) = .ok next) :
    ∃ hash, block.hash crypto = .ok hash ∧
      next.inventory = { self.inventory with
        inventory_messages := remove_from_inventory hash self.inventory.inventory_messages } ∧
      next.unanswered = self.unanswered.filter fun other => other ≠ hash := by
  simp only [step, bind_eq_ok, pure_eq_ok] at h
  obtain ⟨hash, hhash, hnext⟩ := h
  rw [← hnext]
  exact ⟨hash, hhash, rfl, rfl⟩

theorem step_open (hopen : AllOpen self.inventory.inventory_messages) (h : self.step crypto event = .ok next) :
    AllOpen next.inventory.inventory_messages := by
  cases event with
  | ask =>
      rw [← Except.ok.inj h]
      exact hopen
  | inventory coinstate current_time header message => exact (step_inventory hopen h).1
  | block block =>
      obtain ⟨hash, _, hinventory, _⟩ := step_block h
      rw [hinventory]
      exact remove_open hopen

-- From a state that is covered, just a careful step leads to one that is.
theorem covered_step_iff (hcovered : self.Covered) (h : self.step crypto event = .ok next) :
    next.Covered ↔ self.Careful crypto event := by
  have hopen := step_open hcovered.all_open h
  cases event with
  | ask =>
      rw [← Except.ok.inj h]
      exact ⟨fun _ => trivial, fun _ => ⟨hcovered.all_open, hcovered.awaited⟩⟩
  | inventory coinstate current_time header message =>
      obtain ⟨_, hoffered, hawaited⟩ := step_inventory hcovered.all_open h
      constructor
      · intro hnext item hitem hknown
        have hmem := List.mem_map_of_mem (f := InventoryItem.hash) hitem
        cases (hawaited _).mp (hnext.awaited _ ((hoffered _).mpr (.inr hmem))) with
        | inl hbefore => exact hbefore
        | inr hasked => exact absurd hknown hasked.2
      · intro hcareful
        refine ⟨hopen, fun hash hmem => (hawaited hash).mpr ?_⟩
        cases (hoffered hash).mp hmem with
        | inl hbefore => exact .inl (hcovered.awaited hash hbefore)
        | inr hlisted =>
            obtain ⟨item, hitem, rfl⟩ := List.mem_map.mp hlisted
            by_cases hknown : item.hash ∈ coinstate.block_by_hash
            · exact .inl (hcareful item hitem hknown)
            · exact .inr ⟨hlisted, hknown⟩
  | block block =>
      obtain ⟨hash, hhash, hinventory, hunanswered⟩ := step_block h
      have hremoved := not_offered_remove_iff hash fun msg_state hmem => (hcovered.all_open msg_state hmem).1
      have hcareful : self.Careful crypto (.block block) ↔
          RemovedAtOnce hash self.inventory.inventory_messages := by
        constructor
        · exact fun hall => hall hash hhash
        · intro honce other hother
          rw [← Except.ok.inj (hhash.symm.trans hother)]
          exact honce
      rw [hcareful, ← hremoved]
      constructor
      · intro hnext hmem
        have hawaited := hnext.awaited hash (by rw [hinventory]; exact hmem)
        simp [hunanswered] at hawaited
      · intro hgone
        refine ⟨hopen, fun other hmem => ?_⟩
        rw [hinventory] at hmem
        have hne : other ≠ hash := fun heq => hgone (heq ▸ hmem)
        have hbefore := hcovered.awaited other ((offered_remove_other hne).mp hmem)
        simp [hunanswered, hbefore, hne]

theorem CarefulRun.covered (h : CarefulRun crypto self) : self.Covered := by
  induction h with
  | start => exact ⟨fun _ hmem => absurd hmem List.not_mem_nil, fun _ hmem => absurd hmem List.not_mem_nil⟩
  | step _ _ hcareful hstep ih => exact (covered_step_iff ih hstep).mpr hcareful

-- The answers to what is awaited, in any order.
structure Answers (crypto : Crypto) (unanswered : List Hash) (blocks : List Block) : Prop where
  asked : ∀ block ∈ blocks, ∃ hash ∈ unanswered, block.hash crypto = .ok hash
  all : ∀ hash ∈ unanswered, ∃ block ∈ blocks, block.hash crypto = .ok hash

theorem run_append (events events' : List Event) :
    self.run crypto (events ++ events') = self.run crypto events >>= fun next => next.run crypto events' := by
  induction events generalizing self with
  | nil => rfl
  | cons event events ih => simp only [List.cons_append, run, ih, bind_assoc]

-- Blocks of other hashes leave a listed hash where it is.
theorem run_blocks {hash : Hash} {blocks : List Block}
    (hother : ∀ block ∈ blocks, ∃ other ≠ hash, block.hash crypto = .ok other)
    (hmem : hash ∈ offered self.inventory.inventory_messages) :
    ∃ final, self.run crypto (blocks.map .block) = .ok final ∧
      hash ∈ offered final.inventory.inventory_messages ∧
      ∀ other ∈ final.unanswered, other ∈ self.unanswered ∧ ∀ block ∈ blocks, block.hash crypto ≠ .ok other := by
  induction blocks generalizing self with
  | nil => exact ⟨self, rfl, hmem, fun other hin => ⟨hin, fun _ hnil => absurd hnil List.not_mem_nil⟩⟩
  | cons block blocks ih =>
      obtain ⟨⟨answer, hne, hanswer⟩, hrest⟩ := List.forall_mem_cons.mp hother
      obtain ⟨next, hstep⟩ : ∃ next, self.step crypto (.block block) = .ok next := by simp [step, hanswer]
      obtain ⟨answer', hanswer', hinventory, hunanswered⟩ := step_block hstep
      rw [← Except.ok.inj (hanswer.symm.trans hanswer')] at hinventory hunanswered
      have hkept : hash ∈ offered next.inventory.inventory_messages := by
        rw [hinventory]
        exact (offered_remove_other hne.symm).mpr hmem
      obtain ⟨final, hrun, hlisted, hleft⟩ := ih hrest hkept
      refine ⟨final, ?_, hlisted, fun other hin => ?_⟩
      · rw [List.map_cons, run, hstep]
        exact hrun
      · obtain ⟨hbefore, hunmet⟩ := hleft other hin
        rw [hunanswered, List.mem_filter, decide_eq_true_iff] at hbefore
        refine ⟨hbefore.1, List.forall_mem_cons.mpr ⟨?_, hunmet⟩⟩
        rw [hanswer]
        intro heq
        exact hbefore.2 (Except.ok.inj heq).symm

variable (crypto self) in
theorem step_empty (coinstate : CoinState) (current_time : Nat) (header : MessageHeader) :
    ∃ next, self.step crypto (.inventory coinstate current_time header ⟨[]⟩) = .ok next ∧
      next.inventory.inventory_messages = self.inventory.inventory_messages ∧
      next.inventory.waiting_for_inventory = false ∧ next.unanswered = self.unanswered := by
  refine ⟨_, rfl, rfl, rfl, ?_⟩
  simp

-- Where something is listed that is not awaited, the answers to what is awaited
-- and the empty inventory after them leave the batch unrecognised.
theorem unrecognised_after_answers {hash : Hash} (hmem : hash ∈ offered self.inventory.inventory_messages)
    (hunawaited : hash ∉ self.unanswered)
    {blocks : List Block} (hanswers : Answers crypto self.unanswered blocks) (coinstate : CoinState)
    (current_time : Nat) (header : MessageHeader) :
    ∃ final, self.run crypto (blocks.map .block ++ [.inventory coinstate current_time header ⟨[]⟩]) = .ok final ∧
      ¬final.Recognised := by
  have hother : ∀ block ∈ blocks, ∃ other ≠ hash, block.hash crypto = .ok other := by
    intro block hblock
    obtain ⟨other, hin, hother⟩ := hanswers.asked block hblock
    exact ⟨other, fun heq => hunawaited (heq ▸ hin), hother⟩
  obtain ⟨middle, hrun, hlisted, hleft⟩ := run_blocks hother hmem
  obtain ⟨final, hstep, hmessages, hwaiting, hunanswered⟩ :=
    step_empty crypto middle coinstate current_time header
  refine ⟨final, ?_, fun hrecognised => ?_⟩
  · rw [run_append, hrun]
    simp only [bind_eq_ok, run, Except.ok.injEq, exists_eq_left']
    exact ⟨final, hstep, rfl⟩
  · have hnone : final.unanswered = [] := by
      rw [hunanswered, List.eq_nil_iff_forall_not_mem]
      intro other hin
      obtain ⟨hbefore, hunmet⟩ := hleft other hin
      obtain ⟨block, hblock, heq⟩ := hanswers.all other hbefore
      exact hunmet block hblock heq
    have hhandled := hrecognised hwaiting hnone
    simp only [inventory_batch_handled, hwaiting, Bool.not_false, Bool.true_and, decide_eq_true_eq] at hhandled
    rw [← hmessages, hhandled] at hlisted
    cases hlisted

end Batch

-- In every state of a careful run the finished batch is recognised. After a step
-- that is not careful it is not, once all that was asked for has come.
theorem inventory_batch_recognised {crypto : Crypto} {batch : Batch} (h : batch.CarefulRun crypto) :
    batch.Recognised ∧
      ∀ event next, batch.step crypto event = .ok next → ¬batch.Careful crypto event →
        ∀ blocks, Batch.Answers crypto next.unanswered blocks → ∀ coinstate current_time header,
          ∃ final, next.run crypto (blocks.map .block ++ [.inventory coinstate current_time header ⟨[]⟩]) =
            .ok final ∧ ¬final.Recognised := by
  have hcovered := h.covered
  refine ⟨hcovered.recognised, fun event next hstep hcareless blocks hanswers coinstate current_time header => ?_⟩
  have hopen := Batch.step_open hcovered.all_open hstep
  obtain ⟨hash, hmem, hunawaited⟩ : ∃ hash ∈ offered next.inventory.inventory_messages, hash ∉ next.unanswered := by
    by_contra hnone
    refine hcareless ((Batch.covered_step_iff hcovered hstep).mp ⟨hopen, fun hash hmem => ?_⟩)
    by_contra hunawaited
    exact hnone ⟨hash, hmem, hunawaited⟩
  exact Batch.unrecognised_after_answers hmem hunawaited hanswers coinstate current_time header

section Samples

def sampleHeader : MessageHeader := ⟨0, 1, 0, 0⟩

-- The root of the fork is known.
def listing (n : Nat) : Batch.Event :=
  .inventory (CoinState.forkCoinstate 1) 0 sampleHeader ⟨[⟨DATA_BLOCK, .ofNat 32 n⟩]⟩

def batchAfter (events : List Batch.Event) : Batch := (Batch.start.run .residue events).toOption.getD Batch.start

def no_more : Batch.Event := .inventory (CoinState.forkCoinstate 1) 0 sampleHeader ⟨[]⟩

-- A block that is known already, and a block that two messages list.
theorem batch_unrecognised :
    (∃ batch, Batch.start.run .residue [.ask, listing 1, no_more] = .ok batch ∧ ¬batch.Recognised) ∧
      ∃ batch, Batch.start.run .residue
        [.ask, listing 2, listing 2, no_more, .block (CoinState.bareBlock 2 1 1)] = .ok batch ∧ ¬batch.Recognised := by
  refine ⟨⟨batchAfter [.ask, listing 1, no_more], by decide +kernel, ?_⟩,
    batchAfter [.ask, listing 2, listing 2, no_more, .block (CoinState.bareBlock 2 1 1)], by decide +kernel, ?_⟩
  · intro h
    exact absurd (h (by decide +kernel) (by decide +kernel)) (by decide +kernel)
  · intro h
    exact absurd (h (by decide +kernel) (by decide +kernel)) (by decide +kernel)

theorem inventory_batch_recognised_sample :
    ∃ batch, Batch.start.run .residue [.ask, listing 2, no_more, .block (CoinState.bareBlock 2 1 1)] = .ok batch ∧
      batch.Recognised := by
  have hask : Batch.CarefulRun .residue (batchAfter [.ask]) := .step .ask .start trivial (by decide +kernel)
  have hunknown : ∀ item ∈ [(⟨DATA_BLOCK, .ofNat 32 2⟩ : InventoryItem)],
      item.hash ∉ (CoinState.forkCoinstate 1).block_by_hash := by
    decide +kernel
  have hlisted : Batch.CarefulRun .residue (batchAfter [.ask, listing 2]) :=
    .step (listing 2) hask (fun item hitem hknown => absurd hknown (hunknown item hitem)) (by decide +kernel)
  have hended : Batch.CarefulRun .residue (batchAfter [.ask, listing 2, no_more]) :=
    .step no_more hlisted (fun _ hitem => absurd hitem List.not_mem_nil) (by decide +kernel)
  have honce : ∀ hash, (CoinState.bareBlock 2 1 1).hash .residue = .ok hash →
      RemovedAtOnce hash (batchAfter [.ask, listing 2, no_more]).inventory.inventory_messages := by
    intro hash hhash
    rw [← Except.ok.inj hhash, RemovedAtOnce]
    decide +kernel
  have hanswered : Batch.CarefulRun .residue
      (batchAfter [.ask, listing 2, no_more, .block (CoinState.bareBlock 2 1 1)]) :=
    .step (.block (CoinState.bareBlock 2 1 1)) hended honce (by decide +kernel)
  exact ⟨_, by decide +kernel, (inventory_batch_recognised hanswered).1⟩

end Samples

end Skepticoin
