import Skepticoin.Lib.Run
import Skepticoin.Networking.Batch

namespace Skepticoin

open Guard FMap

namespace Fetching

variable {κ : Type} [DecidableEq κ] {crypto : Crypto} {coinstate : CoinState} {current_time choice : Nat}
  {active_peers : List κ} {self next : Fetching κ}

-- What a step leaves. The list has been assigned where it is only the message
-- for the peer that raises.
def after_step (crypto : Crypto) (coinstate : CoinState) (current_time : Nat) (active_peers : List κ) (choice : Nat)
    (self : Fetching κ) : Fetching κ :=
  match self.step crypto coinstate current_time active_peers choice with
  | .ok (next, _) => next
  | .error _ =>
    match self.should_actively_fetch_blocks coinstate current_time with
    | .ok _ => { self with actively_fetching_blocks_from_peers := self.still_fetching current_time }
    | .error _ => self

-- The step gets as far as the choice of a peer.
def Chooses (self : Fetching κ) (coinstate : CoinState) (current_time : Nat) (active_peers : List κ) : Prop :=
  self.should_actively_fetch_blocks coinstate current_time = .ok true ∧
    self.ibd_candidates current_time active_peers ≠ []

omit [DecidableEq κ] in
theorem choice_of_candidates {candidates : List κ} (h : candidates ≠ []) (choice : Nat) :
    ∃ remote_peer, candidates[choice % candidates.length]? = some remote_peer := by
  have hlt := Nat.mod_lt choice (List.length_pos_iff.mpr h)
  exact ⟨_, List.getElem?_eq_getElem hlt⟩

-- A step that does not choose leaves the list alone. One that does drops what
-- has ended, and then adds an entry unless too many are left.
theorem after_step_cases (crypto : Crypto) (self : Fetching κ) (coinstate : CoinState) (current_time : Nat)
    (active_peers : List κ) (choice : Nat) :
    ¬self.Chooses coinstate current_time active_peers ∧
        (self.after_step crypto coinstate current_time active_peers choice).actively_fetching_blocks_from_peers =
          self.actively_fetching_blocks_from_peers ∨
      self.Chooses coinstate current_time active_peers ∧
        ((MAX_IBD_PEERS < (self.still_fetching current_time).length ∨
            ¬∃ message, get_get_blocks_message crypto coinstate = .ok message) ∧
          (self.after_step crypto coinstate current_time active_peers choice).actively_fetching_blocks_from_peers =
            self.still_fetching current_time ∨
        (self.still_fetching current_time).length ≤ MAX_IBD_PEERS ∧
          (∃ message, get_get_blocks_message crypto coinstate = .ok message) ∧
          ∃ remote_peer,
            (self.after_step crypto coinstate current_time active_peers choice).actively_fetching_blocks_from_peers =
              self.still_fetching current_time ++ [(current_time + IBD_PEER_TIMEOUT, remote_peer)]) := by
  unfold after_step step Chooses
  cases hshould : self.should_actively_fetch_blocks coinstate current_time with
  | error e => exact .inl ⟨fun h => (nomatch h.1), rfl⟩
  | ok should =>
      cases should with
      | false => exact .inl ⟨fun h => (nomatch h.1), rfl⟩
      | true =>
          by_cases hnone : self.ibd_candidates current_time active_peers = []
          · left
            refine ⟨fun h => h.2 hnone, ?_⟩
            rw [hnone]
            rfl
          · right
            obtain ⟨remote_peer, hchoice⟩ := choice_of_candidates hnone choice
            refine ⟨⟨rfl, hnone⟩, ?_⟩
            by_cases hmany : (self.still_fetching current_time).length > MAX_IBD_PEERS
            · left
              refine ⟨.inl hmany, ?_⟩
              simp only [bind, Except.bind, Bool.true_eq_false, if_false, hchoice, if_pos hmany]
              rfl
            · cases hmessage : get_get_blocks_message crypto coinstate with
              | error e =>
                  left
                  refine ⟨.inr fun h => ?_, ?_⟩
                  · obtain ⟨message, heq⟩ := h
                    cases heq
                  · simp only [bind, Except.bind, Bool.true_eq_false, if_false, hchoice, if_neg hmany]
              | ok message =>
                  right
                  refine ⟨Nat.le_of_not_lt hmany, ⟨message, rfl⟩, remote_peer, ?_⟩
                  simp only [bind, Except.bind, Bool.true_eq_false, if_false, hchoice, if_neg hmany]
                  rfl

omit [DecidableEq κ] in
theorem still_fetching_length_le (self : Fetching κ) (current_time : Nat) :
    (self.still_fetching current_time).length ≤ self.actively_fetching_blocks_from_peers.length :=
  List.length_filter_le _ _

end Fetching

-- The downloads from all peers, by a key for each connection. What is kept of a
-- connection stays after it has been closed, as the list still refers to it.
structure Downloads (κ : Type) where
  active_peers : List κ
  fetching : Fetching κ

namespace Downloads

variable {κ : Type} [DecidableEq κ] (crypto : Crypto)

inductive Event (κ : Type) where
  | step (coinstate : CoinState) (current_time choice : Nat)
  | connected (peer : κ)
  | disconnected (peer : κ)
  | inventory (peer : κ) (coinstate : CoinState) (current_time : Nat) (header : MessageHeader)
    (message : InventoryMessage)
  | block (peer : κ) (block : Block)

def start (started_at : Nat) : Downloads κ := ⟨[], ⟨started_at, [], fun _ => ⟨[], false, 0⟩⟩⟩

def set_inventory (self : Downloads κ) (peer : κ) (inventory : Inventory) : Downloads κ :=
  { self with fetching :=
    { self.fetching with inventories := Function.update self.fetching.inventories peer inventory } }

-- A message that is refused leaves the connection as it was.
def handle (self : Downloads κ) : Event κ → Downloads κ
  | .step coinstate current_time choice =>
    { self with fetching := self.fetching.after_step crypto coinstate current_time self.active_peers choice }
  | .connected peer => { self with active_peers := self.active_peers ++ [peer] }
  | .disconnected peer => { self with active_peers := self.active_peers.filter fun other => other ≠ peer }
  | .inventory peer coinstate current_time header message =>
    match handle_inventory_message_received coinstate current_time (self.fetching.inventories peer) header message with
    | .ok (inventory, _) => self.set_inventory peer inventory
    | .error _ => self
  | .block peer block =>
    match block.hash crypto with
    | .ok block_hash =>
      let inventory := self.fetching.inventories peer
      self.set_inventory peer { inventory with
        inventory_messages := remove_from_inventory block_hash inventory.inventory_messages }
    | .error _ => self

def fetches (self : Downloads κ) : Nat := self.fetching.actively_fetching_blocks_from_peers.length

def WithinLimit (self : Downloads κ) : Prop := self.fetches ≤ MAX_IBD_PEERS

-- Where a peer is going to be asked, there is room for one more.
def Room (self : Downloads κ) : Event κ → Prop
  | .step coinstate current_time _ =>
    self.fetching.Chooses coinstate current_time self.active_peers →
      (∃ message, get_get_blocks_message crypto coinstate = .ok message) →
      (self.fetching.still_fetching current_time).length < MAX_IBD_PEERS
  | _ => True

variable {crypto} {self : Downloads κ}

-- Just the steps touch the list.
theorem handle_fetches {event : Event κ}
    (h : ∀ coinstate current_time choice, event ≠ .step coinstate current_time choice) :
    (self.handle crypto event).fetches = self.fetches := by
  cases event with
  | step coinstate current_time choice => exact absurd rfl (h coinstate current_time choice)
  | connected peer => rfl
  | disconnected peer => rfl
  | inventory peer coinstate current_time header message =>
      simp only [handle]
      split
      · rfl
      · rfl
  | block peer block =>
      simp only [handle]
      split
      · rfl
      · rfl

theorem within_limit_step_iff (h : self.WithinLimit) (event : Event κ) :
    (self.handle crypto event).WithinLimit ↔ self.Room crypto event := by
  cases event with
  | step coinstate current_time choice =>
      have hstill := self.fetching.still_fetching_length_le current_time
      have hlimit : self.fetching.actively_fetching_blocks_from_peers.length ≤ MAX_IBD_PEERS := h
      simp only [WithinLimit, fetches, handle, Room]
      rcases self.fetching.after_step_cases crypto coinstate current_time self.active_peers choice with
        ⟨hidle, hlist⟩ | ⟨hchooses, ⟨hstop, hlist⟩ | ⟨_, hmessage, remote_peer, hlist⟩⟩
      · rw [hlist]
        exact ⟨fun _ hchooses => absurd hchooses hidle, fun _ => hlimit⟩
      · rw [hlist]
        refine ⟨fun _ _ hmessage => ?_, fun _ => hstill.trans hlimit⟩
        cases hstop with
        | inl hmany => omega
        | inr hraises => exact absurd hmessage hraises
      · rw [hlist, List.length_append, List.length_singleton]
        exact ⟨fun hroom _ _ => hroom, fun hroom => hroom hchooses hmessage⟩
  | connected peer => exact ⟨fun _ => trivial, fun _ => h⟩
  | disconnected peer => exact ⟨fun _ => trivial, fun _ => h⟩
  | inventory peer coinstate current_time header message =>
      refine ⟨fun _ => trivial, fun _ => ?_⟩
      rw [WithinLimit, handle_fetches (by simp)]
      exact h
  | block peer block =>
      refine ⟨fun _ => trivial, fun _ => ?_⟩
      rw [WithinLimit, handle_fetches (by simp)]
      exact h

-- One entry more than the limit is as many as there can be.
theorem fetches_le_step (h : self.fetches ≤ MAX_IBD_PEERS + 1) (event : Event κ) :
    (self.handle crypto event).fetches ≤ MAX_IBD_PEERS + 1 := by
  cases event with
  | step coinstate current_time choice =>
      have hstill := self.fetching.still_fetching_length_le current_time
      have hlimit : self.fetching.actively_fetching_blocks_from_peers.length ≤ MAX_IBD_PEERS + 1 := h
      simp only [fetches, handle]
      rcases self.fetching.after_step_cases crypto coinstate current_time self.active_peers choice with
        ⟨_, hlist⟩ | ⟨_, ⟨_, hlist⟩ | ⟨hroom, _, remote_peer, hlist⟩⟩
      · rw [hlist]
        exact hlimit
      · rw [hlist]
        exact hstill.trans hlimit
      · rw [hlist, List.length_append, List.length_singleton]
        omega
  | connected peer => exact h
  | disconnected peer => exact h
  | inventory peer coinstate current_time header message =>
      rw [handle_fetches (by simp)]
      exact h
  | block peer block =>
      rw [handle_fetches (by simp)]
      exact h

theorem fetches_le (crypto : Crypto) (started_at : Nat) (events : List (Event κ)) :
    (Run.after (handle crypto) (start started_at) events).fetches ≤ MAX_IBD_PEERS + 1 := by
  have hstart : (start started_at : Downloads κ).fetches ≤ MAX_IBD_PEERS + 1 := Nat.zero_le _
  exact Run.after_keeps (fun self : Downloads κ => self.fetches ≤ MAX_IBD_PEERS + 1)
    (fun _ event h => fetches_le_step h event) hstart events

end Downloads

-- The limit holds throughout a run just when no peer is asked while as many as
-- the limit are still being fetched from.
theorem download_limit_iff {κ : Type} [DecidableEq κ] (crypto : Crypto) (started_at : Nat)
    (events : List (Downloads.Event κ)) :
    Run.Throughout (Downloads.handle crypto) Downloads.WithinLimit (.start started_at) events ↔
      Run.Each (Downloads.handle crypto) (Downloads.Room crypto) (.start started_at) events :=
  Run.throughout_iff_each (fun _ => True) (fun _ _ _ _ => trivial)
    (fun _ event _ h => Downloads.within_limit_step_iff h event) trivial (Nat.zero_le _) events

section Samples

-- Two peers, the first of which has not answered yet when the second is asked.
def hasty : List (Downloads.Event Nat) :=
  [.connected 0, .connected 1, .step (CoinState.forkCoinstate 1) 61 0, .step (CoinState.forkCoinstate 1) 62 0]

theorem download_limit_exceeded :
    MAX_IBD_PEERS < (Run.after (Downloads.handle .residue) (.start 2) hasty).fetches ∧
      ¬Run.Throughout (Downloads.handle .residue) Downloads.WithinLimit (.start 2) hasty := by
  have hmany : MAX_IBD_PEERS < (Run.after (Downloads.handle .residue) (.start 2) hasty).fetches := by
    decide +kernel
  refine ⟨hmany, fun hall => ?_⟩
  have hlast : Downloads.WithinLimit (Run.after (Downloads.handle .residue) (.start 2) hasty) := hall.last
  exact Nat.not_lt.mpr hlast hmany

end Samples

end Skepticoin
