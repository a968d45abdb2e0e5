import Skepticoin.Networking.Messages

namespace Skepticoin

open Guard

-- b'MAJI'
def MAGIC : Bytes := [0x4d, 0x41, 0x4a, 0x49]

-- The receiving half of a connection.
structure MessageReceiver where
  buffer : Bytes
  magic_read : Bool
  len : Option Nat
  deriving DecidableEq

namespace MessageReceiver

def new : MessageReceiver := ⟨[], false, none⟩

def read_magic (self : MessageReceiver) : Py MessageReceiver :=
  if self.magic_read = false ∧ 4 ≤ self.buffer.length then do
    raiseIf (self.buffer.take 4 ≠ MAGIC) (.Exception "Insufficient magic")
    return { self with magic_read := true, buffer := self.buffer.drop 4 }
  else return self

def read_len (self : MessageReceiver) : Py MessageReceiver :=
  if self.len = none ∧ 4 ≤ self.buffer.length then do
    let len := from_bytes (self.buffer.take 4)
    raiseIf (len > MAX_MESSAGE_SIZE) (.Exception "len > MAX_MESSAGE_SIZE")
    return { self with len := some len, buffer := self.buffer.drop 4 }
  else return self

def read_header (self : MessageReceiver) : Py MessageReceiver := do
  let self ← self.read_magic
  self.read_len

-- A message that is complete, and the receiver without it.
def take_message (self : MessageReceiver) : Option (Bytes × MessageReceiver) :=
  match self.len with
  | none => none
  | some len =>
    if len ≤ self.buffer.length then some (self.buffer.take len, ⟨self.buffer.drop len, false, none⟩)
    else none

-- A length that has been read stands for one more turn.
def turns (self : MessageReceiver) : Nat := 2 * self.buffer.length + if self.len.isSome then 1 else 0

theorem read_header_length {self next : MessageReceiver} (h : self.read_header = .ok next) :
    next.len = self.len ∧ next.buffer.length ≤ self.buffer.length ∨
      self.len = none ∧ next.buffer.length < self.buffer.length := by
  simp only [read_header, bind_eq_ok] at h
  obtain ⟨middle, hmagic, hlen⟩ := h
  have hmiddle : middle.len = self.len ∧ middle.buffer.length ≤ self.buffer.length := by
    unfold read_magic at hmagic
    split_ifs at hmagic
    · simp only [bind_eq_ok, pure_eq_ok] at hmagic
      obtain ⟨_, _, heq⟩ := hmagic
      rw [← heq, List.length_drop]
      exact ⟨rfl, Nat.sub_le _ _⟩
    · rw [Except.ok.inj hmagic]
      exact ⟨rfl, Nat.le_refl _⟩
  unfold read_len at hlen
  split_ifs at hlen with hread
  · simp only [bind_eq_ok, pure_eq_ok] at hlen
    obtain ⟨_, _, heq⟩ := hlen
    right
    rw [← heq, ← hmiddle.1]
    have hshort := hread.2
    exact ⟨hread.1, by simp only [List.length_drop]; omega⟩
  · left
    rw [← Except.ok.inj hlen]
    exact hmiddle

theorem take_message_turns {self next self' : MessageReceiver} {message_data : Bytes}
    (h : self.read_header = .ok next) (htake : next.take_message = some (message_data, self')) :
    self'.turns < self.turns := by
  unfold take_message at htake
  cases hlen : next.len with
  | none =>
      rw [hlen] at htake
      cases htake
  | some len =>
      simp only [hlen] at htake
      split_ifs at htake
      have hself : self' = ⟨next.buffer.drop len, false, none⟩ := (Prod.mk.inj (Option.some.inj htake)).2.symm
      have hlength : self'.turns ≤ 2 * next.buffer.length := by
        simp only [hself, turns, List.length_drop, Option.isSome_none, Bool.false_eq_true, if_false]
        omega
      have hcases := read_header_length h
      unfold turns at hlength ⊢
      cases hcases with
      | inl hsame =>
          rw [← hsame.1, hlen, Option.isSome_some, if_pos rfl]
          omega
      | inr hread =>
          omega

-- The messages that are handed on, in order. The handler is taken not to
-- raise.
def receive (self : MessageReceiver) (data : Bytes) : Py (MessageReceiver × List Bytes) :=
  match _hread : ({ self with buffer := self.buffer ++ data } : MessageReceiver).read_header with
  | .error e => .error e
  | .ok next =>
    match _htake : next.take_message with
    | none => .ok (next, [])
    | some (message_data, left) => do
      let (last, messages) ← receive left []
      return (last, message_data :: messages)
termination_by 2 * (self.buffer ++ data).length + if self.len.isSome then 1 else 0
decreasing_by
  have hless := take_message_turns _hread _htake
  simpa [turns] using hless

end MessageReceiver

-- The sending half of a connection; `writing` is the write interest of the
-- socket at the selector.
structure MessageSender where
  next_msg_id : Nat
  send_backlog : List Bytes
  send_buffer : Bytes
  writing : Bool
  deriving DecidableEq

namespace MessageSender

def new : MessageSender := ⟨0, [], [], false⟩

def start_sending (self : MessageSender) : MessageSender := { self with writing := true }

def stop_sending (self : MessageSender) : MessageSender := { self with writing := false }

-- The clock and the random context are given.
def message_data (self : MessageSender) (current_time new_context : Nat) (message : Message)
    (prev_header : Option MessageHeader) : Py Bytes := do
  let header : MessageHeader :=
    match prev_header with
    | none => ⟨current_time, self.next_msg_id + 1, 0, new_context⟩
    | some prev_header => ⟨current_time, self.next_msg_id + 1, prev_header.id, prev_header.context⟩
  let header ← header.serialize
  let message ← message.serialize
  return header ++ message

-- self.send_backlog.pop(0)
def pop_backlog (self : MessageSender) : Py MessageSender :=
  match self.send_backlog with
  | [] => .error .IndexError
  | first :: send_backlog => .ok { self with send_buffer := first, send_backlog }

def send_message (self : MessageSender) (current_time new_context : Nat) (message : Message)
    (prev_header : Option MessageHeader) : Py MessageSender := do
  let data ← self.message_data current_time new_context message prev_header
  let len ← pack 4 data.length
  let self : MessageSender := { self with
    next_msg_id := self.next_msg_id + 1
    send_backlog := self.send_backlog ++ [MAGIC ++ len ++ data] }
  if self.send_buffer.length = 0 then do
    let self ← self.pop_backlog
    return self.start_sending
  else
    return self

-- The i-th call of sock.send takes `accepts i` bytes, or all there are. What
-- has been taken is returned too.
def handle_can_send (accepts : Nat → Nat) (self : MessageSender) : MessageSender × Bytes :=
  let taken := self.send_buffer.take (accepts 0)
  let send_buffer := self.send_buffer.drop (accepts 0)
  if send_buffer.length = 0 then
    match _h : self.send_backlog with
    | [] => ({ self with send_buffer }.stop_sending, taken)
    | first :: send_backlog =>
      let (last, more) := handle_can_send (fun i => accepts (i + 1))
        { self with send_buffer := first, send_backlog }
      (last, taken ++ more)
  else ({ self with send_buffer }, taken)
termination_by self.send_backlog.length
decreasing_by simp [_h]

end MessageSender

end Skepticoin
