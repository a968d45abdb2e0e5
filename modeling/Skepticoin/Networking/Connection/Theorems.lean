import Skepticoin.Networking.Connection
import Skepticoin.Networking.Messages.RoundTrip

namespace Skepticoin

open Guard

-- A message as it travels.
def frame (data : Bytes) : Bytes := MAGIC ++ (to_bytes 4 data.length ++ data)

def frames (payloads : List Bytes) : Bytes := payloads.flatMap frame

theorem frames_append (payloads payloads' : List Bytes) :
    frames (payloads ++ payloads') = frames payloads ++ frames payloads' := List.flatMap_append

section Receiver

variable {self : MessageReceiver} {later : Bytes} {payloads : List Bytes}

-- What has arrived of the messages that have not been handed on.
def MessageReceiver.pending (self : MessageReceiver) : Bytes :=
  (if self.magic_read then MAGIC else []) ++ ((self.len.elim [] (to_bytes 4)) ++ self.buffer)

structure MessageReceiver.Orderly (receiver : MessageReceiver) : Prop where
  magic_first : receiver.magic_read = false → receiver.len = none
  len_le : ∀ len, receiver.len = some len → len ≤ MAX_MESSAGE_SIZE

-- Between two calls, the next part is not complete.
structure MessageReceiver.Waiting (receiver : MessageReceiver) : Prop extends receiver.Orderly where
  header : receiver.len = none → receiver.buffer.length < 4
  body : ∀ len, receiver.len = some len → receiver.buffer.length < len

-- Bytes that are there are the first ones of what there is in all.
theorem take_of_append_eq {first later second rest : Bytes} (h : first ++ later = second ++ rest)
    (hle : second.length ≤ first.length) :
    first.take second.length = second ∧ first.drop second.length ++ later = rest := by
  have htake := congrArg (List.take second.length) h
  have hdrop := congrArg (List.drop second.length) h
  rw [List.take_append_of_le_length hle, List.take_left] at htake
  rw [List.drop_append_of_le_length hle, List.drop_left] at hdrop
  exact ⟨htake, hdrop⟩

-- Where bytes have arrived, a first message is due and they start it.
theorem first_frame {stream : Bytes} (h : stream ++ later = frames payloads) (hne : stream ≠ []) :
    ∃ data todo, payloads = data :: todo ∧
      stream ++ later = MAGIC ++ (to_bytes 4 data.length ++ (data ++ frames todo)) := by
  cases payloads with
  | nil => exact absurd (List.append_eq_nil_iff.mp h).1 hne
  | cons data todo => exact ⟨data, todo, rfl, h.trans (by simp [frames, frame])⟩

theorem pending_of_magic (h : self.magic_read = true) :
    self.pending = MAGIC ++ (self.len.elim [] (to_bytes 4) ++ self.buffer) := by
  simp [MessageReceiver.pending, h]

theorem read_magic_ok (ho : self.Orderly) (hbytes : self.pending ++ later = frames payloads) :
    ∃ next, self.read_magic = .ok next ∧ next.Orderly ∧ next.pending = self.pending ∧
      (next.magic_read = false → next.buffer.length < 4) := by
  by_cases hread : self.magic_read = false ∧ 4 ≤ self.buffer.length
  · have hlen := ho.magic_first hread.1
    have hpending : self.pending = self.buffer := by simp [MessageReceiver.pending, hread.1, hlen]
    have hne : self.buffer ≠ [] := List.ne_nil_of_length_pos (by omega)
    obtain ⟨data, todo, _, hstart⟩ := first_frame (hpending ▸ hbytes) hne
    obtain ⟨hmagic, _⟩ := take_of_append_eq hstart hread.2
    have hmagic' : self.buffer.take 4 = MAGIC := hmagic
    refine ⟨{ self with magic_read := true, buffer := self.buffer.drop 4 }, ?_, ⟨?_, ho.len_le⟩, ?_, ?_⟩
    · rw [MessageReceiver.read_magic, if_pos hread]
      simp only [hmagic', bind_eq_ok, pure_eq_ok]
      exact ⟨(), raiseIf_eq_ok.mpr (by simp), trivial⟩
    · intro hfalse
      cases hfalse
    · rw [hpending]
      simp only [MessageReceiver.pending, hlen, if_true, Option.elim_none, List.nil_append]
      rw [← hmagic', List.take_append_drop]
    · intro hfalse
      cases hfalse
  · have hsame : self.read_magic = .ok self := if_neg hread
    refine ⟨self, hsame, ho, rfl, ?_⟩
    intro hfalse
    have hshort : ¬4 ≤ self.buffer.length := fun hle => hread ⟨hfalse, hle⟩
    omega

theorem read_len_ok (ho : self.Orderly) (hshort : self.magic_read = false → self.buffer.length < 4)
    (hbytes : self.pending ++ later = frames payloads)
    (hsize : ∀ data ∈ payloads, data.length ≤ MAX_MESSAGE_SIZE) :
    ∃ next, self.read_len = .ok next ∧ next.Orderly ∧ next.pending = self.pending ∧
      (next.len = none → next.buffer.length < 4) := by
  by_cases hread : self.len = none ∧ 4 ≤ self.buffer.length
  · have hmagic : self.magic_read = true := by
      cases hfalse : self.magic_read with
      | true => rfl
      | false =>
          have hlt := hshort hfalse
          omega
    have hpending : self.pending = MAGIC ++ self.buffer := by
      rw [pending_of_magic hmagic, hread.1]
      rfl
    rw [hpending] at hbytes
    obtain ⟨data, todo, hsplit, hstart⟩ := first_frame hbytes (List.cons_ne_nil _ _)
    rw [List.append_assoc, List.append_cancel_left_eq] at hstart
    have hle : (to_bytes 4 data.length).length ≤ self.buffer.length := by
      rw [to_bytes_length]
      exact hread.2
    obtain ⟨htake, _⟩ := take_of_append_eq hstart hle
    rw [to_bytes_length] at htake
    have hdata := hsize data (hsplit ▸ List.mem_cons_self)
    have hmax : MAX_MESSAGE_SIZE < 256 ^ 4 := by decide
    have hlen : from_bytes (self.buffer.take 4) = data.length := by
      rw [htake, from_bytes_to_bytes 4 _ (by omega)]
    refine ⟨{ self with len := some data.length, buffer := self.buffer.drop 4 }, ?_, ⟨?_, ?_⟩, ?_, ?_⟩
    · rw [MessageReceiver.read_len, if_pos hread]
      simp only [hlen, bind_eq_ok, pure_eq_ok]
      exact ⟨(), raiseIf_eq_ok.mpr (by omega), trivial⟩
    · intro hfalse
      rw [hmagic] at hfalse
      cases hfalse
    · intro len hsome
      rw [← Option.some.inj hsome]
      exact hdata
    · rw [hpending]
      simp only [MessageReceiver.pending, hmagic, if_true, Option.elim_some]
      rw [← htake, List.take_append_drop]
    · intro hnone
      cases hnone
  · have hsame : self.read_len = .ok self := if_neg hread
    refine ⟨self, hsame, ho, rfl, ?_⟩
    intro hnone
    have hless : ¬4 ≤ self.buffer.length := fun hle => hread ⟨hnone, hle⟩
    omega

theorem read_header_ok (ho : self.Orderly) (hbytes : self.pending ++ later = frames payloads)
    (hsize : ∀ data ∈ payloads, data.length ≤ MAX_MESSAGE_SIZE) :
    ∃ next, self.read_header = .ok next ∧ next.Orderly ∧ next.pending = self.pending ∧
      (next.len = none → next.buffer.length < 4) := by
  obtain ⟨middle, hmagic, hom, hpm, hshort⟩ := read_magic_ok ho hbytes
  obtain ⟨next, hlen, hon, hpn, hheader⟩ := read_len_ok hom hshort (hpm ▸ hbytes) hsize
  refine ⟨next, ?_, hon, hpn.trans hpm, hheader⟩
  rw [MessageReceiver.read_header, hmagic]
  exact hlen

-- A complete message is the first of those that are due.
theorem take_message_eq_some (ho : self.Orderly) (hbytes : self.pending ++ later = frames payloads)
    (hsize : ∀ data ∈ payloads, data.length ≤ MAX_MESSAGE_SIZE) {message_data : Bytes}
    {left : MessageReceiver} (htake : self.take_message = some (message_data, left)) :
    ∃ todo, payloads = message_data :: todo ∧ left.Orderly ∧ left.pending ++ later = frames todo := by
  unfold MessageReceiver.take_message at htake
  cases hlen : self.len with
  | none =>
      rw [hlen] at htake
      cases htake
  | some len =>
      simp only [hlen] at htake
      split_ifs at htake with hle
      obtain ⟨hdata, hleft⟩ := Prod.mk.inj (Option.some.inj htake)
      have hmagic : self.magic_read = true := by
        cases hfalse : self.magic_read with
        | true => rfl
        | false =>
            rw [ho.magic_first hfalse] at hlen
            cases hlen
      have hpending : self.pending = MAGIC ++ (to_bytes 4 len ++ self.buffer) := by
        rw [pending_of_magic hmagic, hlen]
        rfl
      rw [hpending] at hbytes
      obtain ⟨data, todo, hsplit, hstart⟩ := first_frame hbytes (List.cons_ne_nil _ _)
      rw [List.append_assoc, List.append_cancel_left_eq] at hstart
      have hmax : MAX_MESSAGE_SIZE < 256 ^ 4 := by decide
      have hlenLe := ho.len_le len hlen
      have hdataLe := hsize data (hsplit ▸ List.mem_cons_self)
      rw [List.append_assoc] at hstart
      obtain ⟨hlengths, hrest⟩ := List.append_inj hstart (by simp)
      have hsame : len = data.length := by
        have hvalue := congrArg from_bytes hlengths
        rwa [from_bytes_to_bytes 4 _ (by omega), from_bytes_to_bytes 4 _ (by omega)] at hvalue
      obtain ⟨hfirst, hlast⟩ := take_of_append_eq hrest (hsame ▸ hle)
      rw [← hsame] at hfirst hlast
      refine ⟨todo, ?_, ?_, ?_⟩
      · rw [hsplit, ← hdata, hfirst]
      · rw [← hleft]
        exact ⟨fun _ => rfl, fun _ hsome => by cases hsome⟩
      · rw [← hleft]
        exact hlast

theorem waiting_of_take_none (ho : self.Orderly) (hheader : self.len = none → self.buffer.length < 4)
    (htake : self.take_message = none) : self.Waiting := by
  refine ⟨ho, hheader, ?_⟩
  intro len hlen
  simp only [MessageReceiver.take_message, hlen] at htake
  split_ifs at htake
  omega

theorem receive_of_none {data : Bytes} {next : MessageReceiver}
    (hread : ({ self with buffer := self.buffer ++ data } : MessageReceiver).read_header = .ok next)
    (htake : next.take_message = none) : self.receive data = .ok (next, []) := by
  rw [MessageReceiver.receive]
  split
  · next herror =>
      rw [hread] at herror
      cases herror
  · next hnext =>
      rw [hread] at hnext
      rw [← Except.ok.inj hnext, htake]

theorem receive_of_some {data message_data : Bytes} {next left last : MessageReceiver} {messages : List Bytes}
    (hread : ({ self with buffer := self.buffer ++ data } : MessageReceiver).read_header = .ok next)
    (htake : next.take_message = some (message_data, left))
    (hrest : left.receive [] = .ok (last, messages)) :
    self.receive data = .ok (last, message_data :: messages) := by
  rw [MessageReceiver.receive]
  split
  · next herror =>
      rw [hread] at herror
      cases herror
  · next hnext =>
      rw [hread] at hnext
      have hsame := Except.ok.inj hnext
      split
      · next hnone =>
          rw [← hsame, htake] at hnone
          cases hnone
      · next hsome =>
          rw [← hsame, htake] at hsome
          obtain ⟨hdata, hleft⟩ := Prod.mk.inj (Option.some.inj hsome)
          rw [← hdata, ← hleft, hrest]
          rfl

-- Whatever part of the stream arrives, the complete messages are handed on and
-- the rest is kept. The induction is on the messages that are due.
theorem receive_ok (ho : self.Orderly) {data : Bytes}
    (hbytes : self.pending ++ data ++ later = frames payloads)
    (hsize : ∀ data ∈ payloads, data.length ≤ MAX_MESSAGE_SIZE) :
    ∃ next messages todo, self.receive data = .ok (next, messages) ∧ payloads = messages ++ todo ∧
      next.Waiting ∧ next.pending ++ later = frames todo := by
  induction hdue : payloads.length using Nat.strong_induction_on generalizing self data payloads with
  | _ due ih =>
      have hfull : ({ self with buffer := self.buffer ++ data } : MessageReceiver).Orderly :=
        ⟨ho.magic_first, ho.len_le⟩
      have hpending : ({ self with buffer := self.buffer ++ data } : MessageReceiver).pending =
          self.pending ++ data := by
        simp [MessageReceiver.pending]
      obtain ⟨next, hread, hon, hpn, hheader⟩ := read_header_ok hfull (hpending ▸ hbytes) hsize
      rw [← hpending, ← hpn] at hbytes
      cases htake : next.take_message with
      | none =>
          exact ⟨next, [], payloads, receive_of_none hread htake, rfl, waiting_of_take_none hon hheader htake, hbytes⟩
      | some taken =>
          obtain ⟨message_data, left⟩ := taken
          obtain ⟨rest, hsplit, hleft, hrest⟩ := take_message_eq_some hon hbytes hsize htake
          have hfewer : rest.length < due := by
            rw [hsplit, List.length_cons] at hdue
            omega
          have hsizeRest : ∀ data ∈ rest, data.length ≤ MAX_MESSAGE_SIZE :=
            fun data hdata => hsize data (hsplit ▸ List.mem_cons_of_mem _ hdata)
          have hbytesRest : left.pending ++ [] ++ later = frames rest := by rw [List.append_nil, hrest]
          obtain ⟨last, messages, todo, hrun, htodo, hwaiting, hlast⟩ := ih _ hfewer hleft hbytesRest hsizeRest rfl
          exact ⟨last, message_data :: messages, todo, receive_of_some hread htake hrun,
            by rw [hsplit, htodo, List.cons_append], hwaiting, hlast⟩

end Receiver

section Sender

variable {self : MessageSender}

-- What is still to be sent.
def MessageSender.queued (self : MessageSender) : Bytes := self.send_buffer ++ self.send_backlog.flatten

-- The backlog is only used while the buffer is, and the buffer is what the
-- write interest stands for.
structure MessageSender.Ready (sender : MessageSender) : Prop where
  buffer_first : sender.send_buffer = [] → sender.send_backlog = []
  nonempty : ∀ bytes ∈ sender.send_backlog, bytes ≠ []
  interest : sender.writing = true ↔ sender.send_buffer ≠ []

theorem send_message_ready (hready : self.Ready) {current_time new_context : Nat} {message : Message}
    {prev_header : Option MessageHeader} {data : Bytes} {next : MessageSender}
    (hdata : self.message_data current_time new_context message prev_header = .ok data)
    (hsend : self.send_message current_time new_context message prev_header = .ok next) :
    next.Ready ∧ next.queued = self.queued ++ frame data := by
  simp only [MessageSender.send_message, hdata, bind_eq_ok, Except.ok.injEq, exists_eq_left', pack_eq_ok] at hsend
  obtain ⟨len, ⟨_, hlen⟩, hsend⟩ := hsend
  have hframe : MAGIC ++ len ++ data = frame data := by rw [← hlen, frame, List.append_assoc]
  have hne : frame data ≠ [] := by
    intro hnil
    cases hnil
  rw [hframe] at hsend
  by_cases hempty : self.send_buffer.length = 0
  · have hbuffer := List.length_eq_zero_iff.mp hempty
    have hbacklog := hready.buffer_first hbuffer
    rw [if_pos hempty] at hsend
    simp only [MessageSender.pop_backlog, hbacklog, List.nil_append, bind_eq_ok, pure_eq_ok,
      Except.ok.injEq, exists_eq_left'] at hsend
    rw [← hsend]
    refine ⟨⟨?_, ?_, ?_⟩, ?_⟩
    · intro hnil
      exact absurd hnil hne
    · intro bytes hbytes
      cases hbytes
    · simp [MessageSender.start_sending, hne]
    · simp [MessageSender.queued, MessageSender.start_sending, hbuffer, hbacklog]
  · have hbuffer : self.send_buffer ≠ [] := fun hnil => hempty (by rw [hnil]; rfl)
    rw [if_neg hempty, pure_eq_ok] at hsend
    rw [← hsend]
    refine ⟨⟨?_, ?_, hready.interest⟩, ?_⟩
    · intro hnil
      exact absurd hnil hbuffer
    · intro bytes hbytes
      cases List.mem_append.mp hbytes with
      | inl hold => exact hready.nonempty bytes hold
      | inr hnew => exact List.mem_singleton.mp hnew ▸ hne
    · simp [MessageSender.queued]

-- What a call takes from the front is what is missing there afterwards.
theorem handle_can_send_ready (accepts : Nat → Nat) (self : MessageSender) (hready : self.Ready) :
    (self.handle_can_send accepts).1.Ready ∧
      (self.handle_can_send accepts).2 ++ (self.handle_can_send accepts).1.queued = self.queued := by
  fun_induction MessageSender.handle_can_send accepts self with
  | case1 accepts self taken send_buffer hempty hbacklog =>
      have hnil : send_buffer = [] := List.length_eq_zero_iff.mp hempty
      have htaken : taken ++ send_buffer = self.send_buffer := List.take_append_drop _ _
      refine ⟨⟨fun _ => hbacklog, hready.nonempty, ?_⟩, ?_⟩
      · simp [MessageSender.stop_sending, hnil]
      · rw [MessageSender.queued, MessageSender.queued, ← htaken, List.append_assoc]
        rfl
  | case2 accepts self taken send_buffer hempty first send_backlog hbacklog last more hrun ih =>
      have hnil : send_buffer = [] := List.length_eq_zero_iff.mp hempty
      have htaken : taken ++ send_buffer = self.send_buffer := List.take_append_drop _ _
      rw [hnil, List.append_nil] at htaken
      have hfirst : first ≠ [] := hready.nonempty first (hbacklog ▸ List.mem_cons_self)
      have hbusy : self.send_buffer ≠ [] := by
        intro hidle
        rw [hready.buffer_first hidle] at hbacklog
        cases hbacklog
      have hwriting := hready.interest.mpr hbusy
      have hnext : ({ self with send_buffer := first, send_backlog } : MessageSender).Ready := by
        refine ⟨fun h => absurd h hfirst, ?_, by simp [hwriting, hfirst]⟩
        intro bytes hbytes
        exact hready.nonempty bytes (hbacklog ▸ List.mem_cons_of_mem _ hbytes)
      obtain ⟨hlast, hqueued⟩ := ih hnext
      rw [hrun] at hlast hqueued
      refine ⟨hlast, ?_⟩
      have hsplit : self.queued = taken ++ (first ++ send_backlog.flatten) := by
        rw [MessageSender.queued, hbacklog, htaken, List.flatten_cons]
      rw [hsplit, List.append_assoc]
      exact congrArg (taken ++ ·) hqueued
  | case3 accepts self taken send_buffer hleft =>
      have hne : send_buffer ≠ [] := fun hnil => hleft (by rw [hnil]; rfl)
      have htaken : taken ++ send_buffer = self.send_buffer := List.take_append_drop _ _
      have hbusy : self.send_buffer ≠ [] := by
        intro hidle
        rw [hidle] at htaken
        exact hne (List.append_eq_nil_iff.mp htaken).2
      refine ⟨⟨fun h => absurd h hne, hready.nonempty, ?_⟩, ?_⟩
      · simp [hready.interest.mpr hbusy, hne]
      · rw [MessageSender.queued, MessageSender.queued, ← htaken, List.append_assoc]

end Sender

-- Both ends and what is between them. The payloads that have been sent, and
-- those that have been handed on, are kept for the record.
structure Connection where
  sender : MessageSender
  in_flight : Bytes
  receiver : MessageReceiver
  sent : List Bytes
  handed_on : List Bytes

def Connection.new : Connection := ⟨.new, [], .new, [], []⟩

inductive Connection.Step : Connection → Connection → Prop
  | send_message {connection : Connection} {current_time new_context : Nat} {message : Message}
      {prev_header : Option MessageHeader} {data : Bytes} {sender : MessageSender} :
    connection.sender.message_data current_time new_context message prev_header = .ok data →
    data.length ≤ MAX_MESSAGE_SIZE →
    connection.sender.send_message current_time new_context message prev_header = .ok sender →
    Step connection { connection with sender, sent := connection.sent ++ [data] }
  | handle_can_send {connection : Connection} (accepts : Nat → Nat) : (∀ i, 0 < accepts i) →
    Step connection { connection with
      sender := (connection.sender.handle_can_send accepts).1
      in_flight := connection.in_flight ++ (connection.sender.handle_can_send accepts).2 }
  | receive {connection : Connection} {chunk later : Bytes} {receiver : MessageReceiver}
      {messages : List Bytes} : connection.in_flight = chunk ++ later →
    connection.receiver.receive chunk = .ok (receiver, messages) →
    Step connection { connection with
      in_flight := later
      receiver
      handed_on := connection.handed_on ++ messages }

-- Nothing is lost, doubled or reordered: the payloads handed on are the first
-- ones that were sent, and the rest is on its way, to the byte.
structure Connection.Lossless (connection : Connection) : Prop where
  due : ∃ due, connection.sent = connection.handed_on ++ due ∧
    connection.receiver.pending ++ connection.in_flight ++ connection.sender.queued = frames due
  interest : connection.sender.writing = true ↔ connection.sender.send_buffer ≠ []
  receives : ∀ chunk later, connection.in_flight = chunk ++ later →
    ∃ result, connection.receiver.receive chunk = .ok result

structure Connection.Invariant (connection : Connection) : Prop where
  ready : connection.sender.Ready
  waiting : connection.receiver.Waiting
  size : ∀ data ∈ connection.sent, data.length ≤ MAX_MESSAGE_SIZE
  due : ∃ due, connection.sent = connection.handed_on ++ due ∧
    connection.receiver.pending ++ connection.in_flight ++ connection.sender.queued = frames due

variable {connection next : Connection}

theorem invariant_new : Connection.new.Invariant := by
  refine ⟨⟨fun _ => rfl, ?_, ?_⟩, ⟨⟨fun _ => rfl, ?_⟩, ?_, ?_⟩, ?_, ⟨[], rfl, rfl⟩⟩
  · intro bytes hbytes
    cases hbytes
  · simp [Connection.new, MessageSender.new]
  · intro len hlen
    cases hlen
  · intro _
    show 0 < 4
    decide
  · intro len hlen
    cases hlen
  · intro data hdata
    cases hdata

theorem receive_due (h : connection.Invariant) {chunk later : Bytes}
    (hflight : connection.in_flight = chunk ++ later) :
    ∃ receiver messages due, connection.receiver.receive chunk = .ok (receiver, messages) ∧
      connection.sent = connection.handed_on ++ messages ++ due ∧ receiver.Waiting ∧
      receiver.pending ++ later ++ connection.sender.queued = frames due := by
  obtain ⟨due, hsent, hbytes⟩ := h.due
  have hsize : ∀ data ∈ due, data.length ≤ MAX_MESSAGE_SIZE := by
    intro data hdata
    exact h.size data (hsent ▸ List.mem_append_right _ hdata)
  have hsplit : connection.receiver.pending ++ chunk ++ (later ++ connection.sender.queued) = frames due := by
    rw [← hbytes, hflight]
    simp only [List.append_assoc]
  obtain ⟨receiver, messages, todo, hrun, htodo, hwaiting, hrest⟩ :=
    receive_ok h.waiting.toOrderly hsplit hsize
  refine ⟨receiver, messages, todo, hrun, ?_, hwaiting, ?_⟩
  · rw [hsent, htodo, List.append_assoc]
  · rw [List.append_assoc, hrest]

theorem step_invariant (h : connection.Invariant) (hstep : Connection.Step connection next) : next.Invariant := by
  cases hstep with
  | @send_message current_time new_context message prev_header data sender hdata hsize hsend =>
      obtain ⟨hready, hqueued⟩ := send_message_ready h.ready hdata hsend
      obtain ⟨due, hsent, hbytes⟩ := h.due
      refine ⟨hready, h.waiting, ?_, due ++ [data], ?_, ?_⟩
      · intro payload hpayload
        cases List.mem_append.mp hpayload with
        | inl hold => exact h.size payload hold
        | inr hnew => exact List.mem_singleton.mp hnew ▸ hsize
      · rw [hsent, List.append_assoc]
      · rw [hqueued, ← List.append_assoc, hbytes, frames_append]
        simp [frames]
  | handle_can_send accepts _ =>
      obtain ⟨hready, hqueued⟩ := handle_can_send_ready accepts connection.sender h.ready
      obtain ⟨due, hsent, hbytes⟩ := h.due
      refine ⟨hready, h.waiting, h.size, due, hsent, ?_⟩
      rw [← hbytes, ← hqueued]
      simp only [List.append_assoc]
  | @receive chunk later receiver messages hflight hrun =>
      obtain ⟨receiver', messages', due, hrun', hsent, hwaiting, hbytes⟩ := receive_due h hflight
      rw [hrun] at hrun'
      obtain ⟨hreceiver, hmessages⟩ := Prod.mk.inj (Except.ok.inj hrun')
      rw [← hreceiver] at hwaiting hbytes
      rw [← hmessages] at hsent
      exact ⟨h.ready, hwaiting, h.size, due, hsent, hbytes⟩

theorem run_invariant (hrun : Relation.ReflTransGen Connection.Step .new connection) : connection.Invariant := by
  induction hrun with
  | refl => exact invariant_new
  | tail _ hstep ih => exact step_invariant ih hstep

-- However the calls are interleaved and the stream is cut.
theorem connection_lossless (hrun : Relation.ReflTransGen Connection.Step .new connection) :
    connection.Lossless := by
  have h := run_invariant hrun
  refine ⟨h.due, h.ready.interest, ?_⟩
  intro chunk later hflight
  obtain ⟨receiver, messages, _, hreceive, _⟩ := receive_due h hflight
  exact ⟨(receiver, messages), hreceive⟩

-- A request for peers, of which the socket has taken three bytes.
theorem connection_lossless_partial :
    ∃ connection : Connection, connection.sent.length = 1 ∧ connection.Lossless := by
  obtain ⟨data, hdata, hsize⟩ : ∃ data, MessageSender.new.message_data 1615757200 7 .GetPeers none = .ok data ∧
      data.length ≤ MAX_MESSAGE_SIZE :=
    ⟨(MessageSender.new.message_data 1615757200 7 .GetPeers none).toOption.getD [], by decide +kernel,
      by decide +kernel⟩
  obtain ⟨sender, hsend⟩ : ∃ sender, MessageSender.new.send_message 1615757200 7 .GetPeers none = .ok sender :=
    ⟨(MessageSender.new.send_message 1615757200 7 .GetPeers none).toOption.getD .new, by decide +kernel⟩
  have hsent : Connection.Step .new { Connection.new with sender, sent := [data] } :=
    .send_message hdata hsize hsend
  have htaken := (Relation.ReflTransGen.single hsent).tail (.handle_can_send (fun _ => 3) fun _ => by decide)
  exact ⟨_, rfl, connection_lossless htaken⟩

end Skepticoin
