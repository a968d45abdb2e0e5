import Skepticoin.Networking.Download
import Skepticoin.Networking.LocalPeer.Greetings
import Skepticoin.Networking.Thread

namespace Skepticoin

open Guard FMap Effect

def Message.is_hello : Message → Bool
  | .Hello _ => true
  | _ => false

-- The block in a message, if there is one.
def Message.block : Message → Option Block
  | .Data message =>
    match message.data with
    | .Block block => some block
    | _ => none
  | _ => none

namespace NetworkingThread

variable {crypto : Crypto} {self : NetworkingThread} {said heard : Nat → Prop} {moment : Moment} {sock : Nat}
  {header : MessageHeader}

-- What has been sent on a connection, in order.
def sent_on (self : NetworkingThread) (sock : Nat) : List Message :=
  self.sent.filterMap fun entry => if entry.1 = sock then some entry.2.2 else none

-- Hello comes first and once, and nothing else before the other end has said
-- hello.
structure Handshake (thread : NetworkingThread) (sock : Nat) : Prop where
  silent : (thread.conversations sock).hello_sent = false → thread.sent_on sock = []
  greeted : (thread.conversations sock).hello_sent = true → ∃ hello rest, thread.sent_on sock = .Hello hello :: rest ∧
    (∀ message ∈ rest, message.is_hello = false) ∧ (rest ≠ [] → thread.local_peer.Received sock)

-- With the connections on which hello has been said, and has been heard, for
-- sure.
structure Orderly (said heard : Nat → Prop) (thread : NetworkingThread) : Prop where
  handshake : ∀ sock, thread.Handshake sock
  said : ∀ sock, said sock → (thread.conversations sock).hello_sent = true
  heard : ∀ sock, heard sock → thread.local_peer.Received sock
  consistent : LocalPeer.Consistent ∅ thread.local_peer

theorem hello_received_iff : self.hello_received sock = true ↔ self.local_peer.Received sock := by
  rw [hello_received, LocalPeer.Received, Option.any_eq_true]

theorem Orderly.weaken {said' heard' : Nat → Prop} (h : Orderly said heard self)
    (hsaid : ∀ sock, said' sock → said sock)
    (hheard : ∀ sock, heard' sock → heard sock) : Orderly said' heard' self :=
  ⟨h.handshake, fun sock hsock => h.said sock (hsaid sock hsock), fun sock hsock => h.heard sock (hheard sock hsock),
    h.consistent⟩

theorem connection_run {remote_peer : ConnectedRemotePeer} (h : self.local_peer.connections[sock]? = some remote_peer) :
    on_local_peer (LocalPeer.connection sock) self = (.ok remote_peer, self) := by
  rw [on_local_peer, within, LocalPeer.connection_run h]

theorem no_connection_run (h : self.local_peer.connections[sock]? = none) :
    on_local_peer (LocalPeer.connection sock) self = (.error .IndexError, self) := by
  rw [on_local_peer, within, LocalPeer.connection, bind_run_ok (read_run _), raw_run, h]

section Sending

theorem on_local_peer_orderly {α : Type} {x : Action LocalPeer PyError α} (hx : LocalPeer.Decent x) :
    Spec (Orderly said heard) (on_local_peer x) fun _ => Orderly said heard := by
  intro self h
  obtain ⟨hconsistent, hreceived⟩ := hx self.local_peer h.consistent
  refine ⟨fun sock => ⟨(h.handshake sock).silent, fun hsent => ?_⟩, h.said,
    fun sock hsock => hreceived sock (h.heard sock hsock), hconsistent⟩
  obtain ⟨hello, rest, hsplit, hrest, hlater⟩ := (h.handshake sock).greeted hsent
  exact ⟨hello, rest, hsplit, hrest, fun hne => hreceived sock (hlater hne)⟩

-- The state in which a message has been handed to the connection.
def sending (self : NetworkingThread) (moment : Moment) (sock : Nat) (message : Message)
    (prev_header : Option MessageHeader) : NetworkingThread :=
  let conversation := self.conversations sock
  let id := conversation.next_msg_id + 1
  { self with
    conversations := Function.update self.conversations sock { conversation with next_msg_id := id }
    sent := self.sent ++
      [(sock, response_header moment.current_time id (moment.new_context self.sent.length) prev_header, message)] }

theorem start_sending_run (self : NetworkingThread) (sock : Nat) : start_sending sock self = (.ok (), self) := by
  by_cases hselected : sock ∈ self.local_peer.selector
  · refine catching_run_ok ?_
    rw [modify, bind_run_ok (read_run _), raw_run, raiseIf, if_neg (not_not_intro hselected)]
  · have hrefused : modify sock self = (.error (.ValueError "Invalid file descriptor: -1"), self) := by
      rw [modify, bind_run_ok (read_run _), raw_run, raiseIf, if_pos hselected]
    exact catching_run_caught hrefused rfl

-- A socket that has been closed is of no consequence.
theorem send_message_run (self : NetworkingThread) (moment : Moment) (sock : Nat) (message : Message)
    (prev_header : Option MessageHeader) :
    send_message moment sock message prev_header self = (.ok (), self.sending moment sock message prev_header) := by
  have hstart : (if moment.idle sock then start_sending sock else pure ())
      (self.sending moment sock message prev_header) = (.ok (), self.sending moment sock message prev_header) := by
    split_ifs
    · exact start_sending_run _ sock
    · rfl
  exact hstart

theorem send_message_state (self : NetworkingThread) (moment : Moment) (sock : Nat) (message : Message)
    (prev_header : Option MessageHeader) :
    (send_message moment sock message prev_header self).2 = self.sending moment sock message prev_header := by
  rw [send_message_run]

theorem send_message_spec {P : NetworkingThread → Prop} {message : Message} {prev_header : Option MessageHeader}
    (h : ∀ self, P self → P (self.sending moment sock message prev_header)) :
    Spec P (send_message moment sock message prev_header) fun _ => P := by
  intro self hP
  rw [send_message_state]
  exact h self hP

theorem sent_on_sending (self : NetworkingThread) (moment : Moment) (sock : Nat) (message : Message)
    (prev_header : Option MessageHeader) (other : Nat) :
    (self.sending moment sock message prev_header).sent_on other =
      self.sent_on other ++ if sock = other then [message] else [] := by
  rw [sent_on, sending, List.filterMap_append]
  congr 1
  by_cases heq : sock = other
  · simp [heq]
  · simp [heq]

theorem hello_sent_sending (self : NetworkingThread) (moment : Moment) (sock : Nat) (message : Message)
    (prev_header : Option MessageHeader) (other : Nat) :
    ((self.sending moment sock message prev_header).conversations other).hello_sent =
      (self.conversations other).hello_sent := by
  rw [sending]
  by_cases heq : other = sock
  · simp [heq]
  · simp [Function.update_of_ne heq]

-- Whatever is not hello may be sent where hello has been said and heard.
theorem send_message_orderly (hsaid : said sock) (hheard : heard sock) {message : Message}
    (hmessage : message.is_hello = false) (prev_header : Option MessageHeader) :
    Spec (Orderly said heard) (send_message moment sock message prev_header) fun _ => Orderly said heard := by
  intro self h
  rw [send_message_state]
  refine ⟨fun other => ⟨fun hsilent => ?_, fun hsent => ?_⟩, fun other hother => ?_, h.heard, h.consistent⟩
  · rw [hello_sent_sending] at hsilent
    rw [sent_on_sending, (h.handshake other).silent hsilent]
    by_cases heq : sock = other
    · rw [← heq, h.said sock hsaid] at hsilent
      cases hsilent
    · rw [if_neg heq]
      rfl
  · rw [hello_sent_sending] at hsent
    obtain ⟨hello, rest, hsplit, hrest, hlater⟩ := (h.handshake other).greeted hsent
    rw [sent_on_sending, hsplit]
    by_cases heq : sock = other
    · rw [if_pos heq]
      refine ⟨hello, rest ++ [message], rfl, ?_, fun _ => heq ▸ h.heard sock hheard⟩
      intro m hm
      cases List.mem_append.mp hm with
      | inl hold => exact hrest m hold
      | inr hnew =>
          rw [List.mem_singleton.mp hnew]
          exact hmessage
    · rw [if_neg heq, List.append_nil]
      exact ⟨hello, rest, rfl, hrest, hlater⟩
  · rw [hello_sent_sending]
    exact h.said other hother

theorem get_active_peers_greeted {order : DictOrder Nat} (h : sock ∈ self.get_active_peers order) :
    (self.conversations sock).hello_sent = true ∧ self.local_peer.Received sock := by
  have hactive := (List.mem_filter.mp h).2
  rw [Bool.and_eq_true, hello_received_iff] at hactive
  exact hactive

theorem Orderly.active (h : Orderly said heard self) (order : DictOrder Nat) :
    Orderly (fun sock => said sock ∨ sock ∈ self.get_active_peers order)
      (fun sock => heard sock ∨ sock ∈ self.get_active_peers order) self := by
  refine ⟨h.handshake, fun sock hsock => ?_, fun sock hsock => ?_, h.consistent⟩
  · cases hsock with
    | inl hbefore => exact h.said sock hbefore
    | inr hactive => exact (get_active_peers_greeted hactive).1
  · cases hsock with
    | inl hbefore => exact h.heard sock hbefore
    | inr hactive => exact (get_active_peers_greeted hactive).2

theorem broadcast_message_orderly (message : DataMessage) :
    Spec (Orderly said heard) (broadcast_message moment message) fun _ => Orderly said heard := by
  refine Spec.read fun before => ?_
  generalize hactive : before.get_active_peers moment.connected_order = active
  have hloop : Spec (Orderly (fun sock => said sock ∨ sock ∈ active) fun sock => heard sock ∨ sock ∈ active)
      (forEach (fun sock => catching (fun error => error.is_value_error || error = .KeyError)
        (send_message moment sock (.Data message) none)) active)
      fun _ => Orderly (fun sock => said sock ∨ sock ∈ active) fun sock => heard sock ∨ sock ∈ active :=
    Spec.forEach_mem fun sock hsock =>
      Spec.catching (send_message_orderly (.inr hsock) (.inr hsock) rfl none)
  refine hloop.mono ?_ fun _ _ h => h.weaken (fun _ => .inl) fun _ => .inl
  rintro self ⟨h, rfl⟩
  rw [← hactive]
  exact h.active moment.connected_order

end Sending

-- Code that works on other parts of the thread.
section Elsewhere

theorem change_orderly {f : NetworkingThread → NetworkingThread} (hsent : ∀ self, (f self).sent = self.sent)
    (hpeer : ∀ self, (f self).local_peer = self.local_peer)
    (hhello : ∀ self sock, ((f self).conversations sock).hello_sent = (self.conversations sock).hello_sent) :
    Spec (Orderly said heard) (change f : Action NetworkingThread PyError Unit) fun _ => Orderly said heard := by
  refine Spec.change fun self h => ?_
  have hon : ∀ sock, (f self).sent_on sock = self.sent_on sock := fun sock => by rw [sent_on, sent_on, hsent]
  refine ⟨fun sock => ⟨fun hsilent => ?_, fun hgreeted => ?_⟩, fun sock hsock => ?_, fun sock hsock => ?_, ?_⟩
  · rw [hon, (h.handshake sock).silent (by rw [← hhello, hsilent])]
  · rw [hon, hpeer]
    exact (h.handshake sock).greeted (by rw [← hhello, hgreeted])
  · rw [hhello]
    exact h.said sock hsock
  · rw [hpeer]
    exact h.heard sock hsock
  · rw [hpeer]
    exact h.consistent

theorem set_inventory_orderly (sock : Nat) (inventory : Inventory) :
    Spec (Orderly said heard) (set_inventory sock inventory) fun _ => Orderly said heard :=
  change_orderly (fun _ => rfl) (fun _ => rfl) fun _ _ => rfl

-- What is written over an entry says as much about hello.
theorem set_conversation_orderly {before : NetworkingThread} {conversation : Conversation}
    (hhello : conversation.hello_sent = (before.conversations sock).hello_sent) :
    Spec (fun self => Orderly said heard self ∧ self = before) (set_conversation sock conversation)
      fun _ => Orderly said heard := by
  refine Spec.change ?_
  rintro self ⟨h, rfl⟩
  have hkept : ∀ other, (Function.update self.conversations sock conversation other).hello_sent =
      (self.conversations other).hello_sent := by
    intro other
    by_cases heq : other = sock
    · rw [heq, Function.update_self, hhello]
    · rw [Function.update_of_ne heq]
  refine ⟨fun other => ⟨fun hsilent => ?_, fun hgreeted => ?_⟩, fun other hother => ?_, h.heard, h.consistent⟩
  · exact (h.handshake other).silent ((hkept other).symm.trans hsilent)
  · exact (h.handshake other).greeted ((hkept other).symm.trans hgreeted)
  · exact (hkept other).trans (h.said other hother)

theorem on_node_orderly {α : Type} (x : Action Node PyError α) :
    Spec (Orderly said heard) (on_node x) fun _ => Orderly said heard :=
  fun _ h => ⟨fun sock => ⟨(h.handshake sock).silent, (h.handshake sock).greeted⟩, h.said, h.heard, h.consistent⟩

end Elsewhere

section Handlers

theorem reply_orderly {α : Type} (hsaid : said sock) (hheard : heard sock) (x : Py α) (message : α → Message)
    (hmessage : ∀ a, (message a).is_hello = false) :
    Spec (Orderly said heard) (do let a ← raw x; send_message moment sock (message a) (some header))
      fun _ => Orderly said heard :=
  Spec.raw_bind (fun a _ => send_message_orderly hsaid hheard (hmessage a) (some header)) fun _ _ _ h => h

theorem handle_get_blocks_message_received_orderly (hsaid : said sock) (hheard : heard sock)
    (message : GetBlocksMessage) :
    Spec (Orderly said heard) (handle_get_blocks_message_received crypto moment sock header message)
      fun _ => Orderly said heard :=
  Spec.read fun _ => (reply_orderly hsaid hheard _ Message.Inventory fun _ => rfl).mono (fun _ h => h.1) fun _ _ h => h

-- What follows an inventory asks for blocks, or for more inventory.
theorem inventory_requests {coinstate : CoinState} {current_time : Nat} {inventory inventory' : Inventory}
    {message : InventoryMessage} {sent : List Sent}
    (h : Skepticoin.handle_inventory_message_received coinstate current_time inventory header message =
      .ok (inventory', sent)) : ∀ entry ∈ sent,
      (∃ message, entry.2 = .GetData message) ∨ ∃ message, entry.2 = .GetBlocks message := by
  obtain ⟨requested, hdata, hsent⟩ := follow_up_sent h
  intro entry hmem
  rw [hsent] at hmem
  cases List.mem_append.mp hmem with
  | inl hrequest => exact .inl (hdata entry hrequest)
  | inr hfollow =>
      obtain ⟨next, _, heq⟩ := List.mem_map.mp hfollow
      rw [← heq]
      exact .inr ⟨next, rfl⟩

theorem handle_inventory_message_received_orderly (hsaid : said sock) (hheard : heard sock)
    (message : InventoryMessage) :
    Spec (Orderly said heard) (handle_inventory_message_received moment sock header message)
      fun _ => Orderly said heard := by
  refine Spec.read_any fun before => ?_
  refine Spec.raw_bind (fun handled hhandled => ?_) fun _ _ _ h => h
  have hrequests : ∀ entry ∈ handled.2, entry.2.is_hello = false := by
    intro entry hentry
    cases inventory_requests hhandled entry hentry with
    | inl hask =>
        obtain ⟨_, hask⟩ := hask
        rw [hask]
        rfl
    | inr hfollow =>
        obtain ⟨_, hfollow⟩ := hfollow
        rw [hfollow]
        rfl
  refine Spec.seq (set_inventory_orderly sock handled.1) fun _ => ?_
  exact Spec.forEach_mem fun entry hentry => send_message_orderly hsaid hheard (hrequests entry hentry) _

theorem handle_get_data_message_received_orderly (hsaid : said sock) (hheard : heard sock)
    (message : GetDataMessage) :
    Spec (Orderly said heard) (handle_get_data_message_received moment sock header message)
      fun _ => Orderly said heard := by
  refine Spec.raw_bind (fun _ _ => ?_) fun _ _ _ h => h
  refine Spec.read_any fun before => ?_
  cases before.node.chain_manager.coinstate.block_by_hash.lookup message.hash with
  | none => exact fun _ h => h
  | some block => exact send_message_orderly hsaid hheard rfl (some header)

theorem handle_block_received_orderly (block : Block) :
    Spec (Orderly said heard) (handle_block_received crypto moment sock header block)
      fun _ => Orderly said heard := by
  refine Spec.read_any fun before => ?_
  refine Spec.raw_bind (fun block_hash _ => ?_) fun _ _ _ h => h
  refine Spec.seq (set_inventory_orderly sock _) fun _ => ?_
  refine Spec.seq (on_node_orderly _) fun _ => ?_
  exact Spec.read_any fun after => Spec.forEach (fun block => broadcast_message_orderly _) _

theorem handle_transaction_received_orderly (transaction : Transaction) :
    Spec (Orderly said heard) (handle_transaction_received crypto moment transaction)
      fun _ => Orderly said heard := by
  refine Spec.read_any fun before => ?_
  refine Spec.ite (fun _ _ h => h) fun _ => ?_
  refine Spec.seq (on_node_orderly _) fun added => ?_
  exact Spec.ite (fun _ => broadcast_message_orderly _) fun _ _ h => h

theorem handle_data_message_received_orderly (message : DataMessage) :
    Spec (Orderly said heard) (handle_data_message_received crypto moment sock header message)
      fun _ => Orderly said heard := by
  unfold handle_data_message_received
  cases message.data with
  | Block block => exact handle_block_received_orderly block
  | Transaction transaction => exact handle_transaction_received_orderly transaction
  | BlockHeader _ => exact fun _ h => h

theorem handle_get_peers_message_received_orderly (hsaid : said sock) (hheard : heard sock) :
    Spec (Orderly said heard) (handle_get_peers_message_received moment sock header)
      fun _ => Orderly said heard := by
  refine Spec.read_any fun before => ?_
  refine Spec.raw_bind (fun con_peers _ => ?_) fun _ _ _ h => h
  exact Spec.raw_bind (fun discon_peers _ => send_message_orderly hsaid hheard rfl (some header)) fun _ _ _ h => h

theorem handle_peers_message_received_orderly (message : PeersMessage) :
    Spec (Orderly said heard) (handle_peers_message_received sock message) fun _ => Orderly said heard := by
  have hpeers : Spec (Orderly said heard) (on_local_peer (LocalPeer.handle_peers_message_received message))
      fun _ => Orderly said heard := on_local_peer_orderly (LocalPeer.handle_peers_message_decent message)
  exact Spec.read fun before => Spec.bind (set_conversation_orderly rfl) (fun _ => hpeers) fun _ _ h => h

theorem handle_message_received_orderly (hsaid : said sock) (message : Message) :
    Spec (Orderly said heard) (handle_message_received crypto moment sock header message)
      fun _ => Orderly said heard := by
  have hlater : ∀ rest : Action NetworkingThread PyError Unit,
      Spec (Orderly said fun other => heard other ∨ other = sock) rest
        (fun _ => Orderly said fun other => heard other ∨ other = sock) →
      Spec (Orderly said heard) (do
        let remote_peer ← on_local_peer (LocalPeer.connection sock)
        raw (raiseIf (remote_peer.hello_received = false) (.Exception "First message must be Hello"))
        rest) fun _ => Orderly said heard := by
    intro rest hrest self h
    cases hpeer : self.local_peer.connections[sock]? with
    | none =>
        rw [bind_run_error (no_connection_run hpeer)]
        exact h
    | some remote_peer =>
        rw [bind_run_ok (connection_run hpeer)]
        cases hreceived : remote_peer.hello_received with
        | false => exact h
        | true =>
            have hnow : Orderly said (fun other => heard other ∨ other = sock) self := by
              refine ⟨h.handshake, h.said, fun other hother => ?_, h.consistent⟩
              cases hother with
              | inl hbefore => exact h.heard other hbefore
              | inr heq => exact heq ▸ ⟨remote_peer, hpeer, hreceived⟩
            exact (hrest self hnow).weaken (fun _ hsock => hsock) fun _ hsock => .inl hsock
  cases message with
  | Hello message => exact on_local_peer_orderly (LocalPeer.handle_hello_message_decent sock message _)
  | GetBlocks message => exact hlater _ (handle_get_blocks_message_received_orderly hsaid (.inr rfl) message)
  | Inventory message => exact hlater _ (handle_inventory_message_received_orderly hsaid (.inr rfl) message)
  | GetData message => exact hlater _ (handle_get_data_message_received_orderly hsaid (.inr rfl) message)
  | Data message => exact hlater _ (handle_data_message_received_orderly message)
  | GetPeers => exact hlater _ (handle_get_peers_message_received_orderly hsaid (.inr rfl))
  | Peers message => exact hlater _ (handle_peers_message_received_orderly message)

theorem handle_remote_peer_message_orderly (hsaid : said sock) (message : Message) :
    Spec (Orderly said heard) (handle_remote_peer_message crypto moment sock header message)
      fun _ => Orderly said heard := by
  intro self h
  have hafter : Orderly said heard (handle_message_received crypto moment sock header message self).2 :=
    handle_message_received_orderly hsaid message self h
  unfold handle_remote_peer_message
  cases hrun : handle_message_received crypto moment sock header message self with
  | mk result after =>
      rw [hrun] at hafter
      cases result with
      | ok _ => exact hafter
      | error _ => exact on_local_peer_orderly (LocalPeer.disconnect_decent sock) after hafter

end Handlers

section Steps

-- The state in which hello is about to be sent.
def greeting (self : NetworkingThread) (sock : Nat) : NetworkingThread :=
  let conversation := { self.conversations sock with hello_sent := true }
  { self with conversations := Function.update self.conversations sock conversation }

-- Hello goes where nothing has been sent before.
theorem send_first_orderly (hello : HelloMessage) :
    Spec (fun self => ∃ before, Orderly said heard before ∧ (before.conversations sock).hello_sent = false ∧
        self = before.greeting sock)
      (send_message moment sock (.Hello hello) none)
      fun _ self => Orderly said heard self ∧ (self.conversations sock).hello_sent = true := by
  rintro self ⟨before, h, hsilent, rfl⟩
  rw [send_message_state]
  generalize hsaying : before.greeting sock = saying
  have hon : ∀ other, saying.sent_on other = before.sent_on other := fun other => by rw [← hsaying]; rfl
  have hpeer : saying.local_peer = before.local_peer := by rw [← hsaying]; rfl
  have hself : (saying.conversations sock).hello_sent = true := by
    simp [← hsaying, greeting]
  have hother : ∀ other, other ≠ sock → saying.conversations other = before.conversations other := by
    intro other hne
    rw [← hsaying]
    exact Function.update_of_ne hne ..
  have hsent : ((saying.sending moment sock (.Hello hello) none).conversations sock).hello_sent = true := by
    rw [hello_sent_sending, hself]
  refine ⟨⟨fun other => ?_, fun other hsaid => ?_, fun other hheard => ?_, ?_⟩, hsent⟩
  · by_cases heq : other = sock
    · subst heq
      refine ⟨fun hno => ?_, fun _ =>
        ⟨hello, [], ?_, fun _ hm => absurd hm List.not_mem_nil, fun hne => absurd rfl hne⟩⟩
      · rw [hsent] at hno
        cases hno
      · rw [sent_on_sending, hon, (h.handshake other).silent hsilent, if_pos rfl, List.nil_append]
    · have hkept : (saying.sending moment sock (.Hello hello) none).sent_on other = before.sent_on other := by
        rw [sent_on_sending, hon, if_neg (Ne.symm heq), List.append_nil]
      refine ⟨fun hno => ?_, fun hyes => ?_⟩
      · rw [hello_sent_sending, hother other heq] at hno
        rw [hkept, (h.handshake other).silent hno]
      · rw [hello_sent_sending, hother other heq] at hyes
        rw [hkept]
        exact hpeer ▸ (h.handshake other).greeted hyes
  · rw [hello_sent_sending]
    by_cases heq : other = sock
    · rw [heq, hself]
    · rw [hother other heq, h.said other hsaid]
  · exact hpeer ▸ h.heard other hheard
  · exact hpeer ▸ h.consistent

theorem send_hello_orderly (remote_peer : ConnectedRemotePeer) :
    Spec (fun self => Orderly said heard self ∧ (self.conversations sock).hello_sent = false)
      (send_hello moment sock remote_peer)
      fun r self => Orderly said heard self ∧ (r = .ok () → (self.conversations sock).hello_sent = true) := by
  refine Spec.read fun before => ?_
  refine Spec.raw_bind (fun ipv4_mapped _ => ?_) fun _ _ self h => ⟨h.1.1, fun hok => by cases hok⟩
  refine Spec.change_bind _ (fun self h => ⟨self, h.1.1, h.1.2, ?_⟩)
    ((send_first_orderly _).mono (fun _ h => h) fun _ _ h => ⟨h.1, fun _ => h.2⟩)
  rw [greeting, h.2]

theorem send_get_peers_orderly (hsaid : said sock) (hheard : heard sock) :
    Spec (Orderly said heard) (send_get_peers moment sock) fun _ => Orderly said heard := by
  refine Spec.bind (send_message_orderly hsaid hheard rfl none) (fun _ => ?_) fun _ _ h => h
  exact Spec.read fun before => set_conversation_orderly rfl

theorem Orderly.saying {other : Nat} (h : Orderly said heard self)
    (hsent : (self.conversations other).hello_sent = true) :
    Orderly (fun sock => said sock ∨ sock = other) heard self := by
  refine ⟨h.handshake, fun sock hsock => ?_, h.heard, h.consistent⟩
  cases hsock with
  | inl hbefore => exact h.said sock hbefore
  | inr heq => exact heq ▸ hsent

theorem ask_for_peers_orderly {remote_peer : ConnectedRemotePeer}
    (hreceived : remote_peer.hello_received = true → heard sock) :
    Spec (fun self => Orderly said heard self ∧ (self.conversations sock).hello_sent = true) (do
      let self ← read
      if remote_peer.hello_received && is_time_to_get_peers (self.conversations sock) moment.current_time then
        send_get_peers moment sock
      else pure ()) fun _ => Orderly (fun other => said other ∨ other = sock) heard := by
  refine Spec.read_any fun before => Spec.ite (fun htime => ?_) fun _ self h => h.1.saying h.2
  have hheard := hreceived (Bool.and_eq_true_iff.mp htime).1
  exact (send_get_peers_orderly (.inr rfl) hheard).mono (fun self h => h.1.saying h.2) fun _ _ h => h

-- Where the step ends normally, hello has been said.
def Greets (said heard : Nat → Prop) (sock : Nat) (r : Except PyError Unit) (self : NetworkingThread) : Prop :=
  Orderly said heard self ∧ (r = .ok () → Orderly (fun other => said other ∨ other = sock) heard self)

theorem remote_peer_step_orderly (sock : Nat) :
    Spec (Orderly said heard) (remote_peer_step moment sock) (Greets said heard sock) := by
  intro self h
  cases hpeer : self.local_peer.connections[sock]? with
  | none =>
      rw [remote_peer_step, bind_run_error (no_connection_run hpeer)]
      exact ⟨h, fun hok => by cases hok⟩
  | some remote_peer =>
      rw [remote_peer_step, bind_run_ok (connection_run hpeer)]
      generalize hheard' : (fun other => heard other ∨ other = sock ∧ remote_peer.hello_received = true) = heard'
      have hless : ∀ other, heard other → heard' other := fun other hother => by rw [← hheard']; exact .inl hother
      have hthis : remote_peer.hello_received = true → heard' sock := fun hother => by
        rw [← hheard']
        exact .inr ⟨rfl, hother⟩
      have hnow : Orderly said heard' self := by
        refine ⟨h.handshake, h.said, fun other hother => ?_, h.consistent⟩
        rw [← hheard'] at hother
        cases hother with
        | inl hbefore => exact h.heard other hbefore
        | inr hthis => exact hthis.1 ▸ ⟨remote_peer, hpeer, hthis.2⟩
      have hpost : ∀ (r : Except PyError Unit) after, Orderly (fun other => said other ∨ other = sock) heard' after →
          Greets said heard sock r after :=
        fun r after hafter => ⟨hafter.weaken (fun _ => .inl) hless, fun _ => hafter.weaken (fun _ h => h) hless⟩
      refine (Spec.read fun before => ?_ : Spec (Orderly said heard') _ (Greets said heard sock)) self hnow
      refine Spec.ite (fun hsent => ?_) fun hsilent => ?_
      · refine (ask_for_peers_orderly hthis).mono ?_ hpost
        rintro after ⟨hafter, rfl⟩
        exact ⟨hafter, hsent⟩
      · refine Spec.bind ((send_hello_orderly remote_peer).mono ?_ fun _ _ h => h)
          (fun _ => (ask_for_peers_orderly hthis).mono (fun _ hafter => ⟨hafter.1, hafter.2 rfl⟩) hpost)
          fun _ after hafter =>
          ⟨hafter.1.weaken (fun _ h => h) hless, fun hok => by cases hok⟩
        rintro after ⟨hafter, rfl⟩
        exact ⟨hafter, by simpa using hsilent⟩

theorem connection_spec {P : NetworkingThread → Prop} (sock : Nat) :
    Spec P (on_local_peer (LocalPeer.connection sock)) fun _ => P := fun _ h => h

-- All that the step does is to send, and to note that.
theorem remote_peer_step_spec {P : NetworkingThread → Prop}
    (hsend : ∀ message, message.block = none → Spec P (send_message moment sock message none) fun _ => P)
    (hset : ∀ conversation, Spec P (set_conversation sock conversation) fun _ => P) :
    Spec P (remote_peer_step moment sock) fun _ => P := by
  have hask : ∀ remote_peer : ConnectedRemotePeer, Spec P (do
      let self ← read
      if remote_peer.hello_received && is_time_to_get_peers (self.conversations sock) moment.current_time then
        send_get_peers moment sock
      else pure ()) fun _ => P := by
    refine fun remote_peer => Spec.read_any fun before => Spec.ite (fun _ => ?_) fun _ _ h => h
    exact Spec.seq (hsend _ rfl) fun _ => Spec.read_any fun _ => hset _
  refine Spec.seq (connection_spec sock) fun remote_peer => Spec.read_any fun before => ?_
  refine Spec.ite (fun _ => hask remote_peer) fun _ => Spec.seq ?_ fun _ => hask remote_peer
  refine Spec.read_any fun greeting => Spec.raw_bind (fun _ _ => ?_) fun _ _ _ h => h
  exact Spec.seq (hset _) fun _ => hsend _ rfl

-- Sending leaves the peers alone.
theorem remote_peer_step_local_peer (local_peer : LocalPeer) (sock : Nat) :
    Spec (fun self => self.local_peer = local_peer) (remote_peer_step moment sock)
      fun _ self => self.local_peer = local_peer :=
  remote_peer_step_spec (fun _ _ => send_message_spec fun _ h => h) fun _ => Spec.change fun _ h => h

-- The loop visits every socket that the selector has.
theorem registered_visited (h : LocalPeer.Consistent ∅ self.local_peer) (hsock : sock ∈ self.local_peer.selector)
    (order : DictOrder Nat) : sock ∈ order.values self.local_peer.connected_peers := by
  obtain ⟨peer, _, hconnected⟩ := h.registered sock hsock (Finset.notMem_empty sock)
  have hkey : peer.key ∈ order.keys self.local_peer.connected_peers :=
    (order.mem _ _).mpr (Finmap.mem_of_lookup_eq_some hconnected)
  exact List.mem_filterMap.mpr ⟨peer.key, hkey, hconnected⟩

-- Hello has been said on the connections that the loop has visited.
def Visited (said heard : Nat → Prop) (local_peer : LocalPeer) (before : List Nat) (thread : NetworkingThread) : Prop :=
  Orderly (fun sock => said sock ∨ sock ∈ before) heard thread ∧ thread.local_peer = local_peer

-- Where the step ends normally, hello has been said on every connection that the
-- selector has.
theorem network_manager_step_orderly :
    Spec (Orderly said heard) (network_manager_step moment) fun r self =>
      Orderly said heard self ∧ (r = .ok () → Orderly (fun sock => sock ∈ self.local_peer.selector) heard self) := by
  refine Spec.read_any fun before => ?_
  refine Spec.bind (on_local_peer_orderly (LocalPeer.step_decent _ _)) (fun _ => ?_) fun _ _ h =>
    ⟨h, fun hok => by cases hok⟩
  refine Spec.read fun connecting => ?_
  generalize hrows : moment.connected_order.values connecting.local_peer.connected_peers = rows
  have hloop : Spec (Visited said heard connecting.local_peer []) (forEach (remote_peer_step moment) rows)
      fun r self => Orderly said heard self ∧
        (r = .ok () → Visited said heard connecting.local_peer ([] ++ rows) self) := by
    refine Spec.forEach_adds (fun before row _ self h => ?_) (fun _ _ h => h.1.weaken (fun _ => .inl) fun _ h => h) []
    have hnext : Greets _ heard row (remote_peer_step moment row self).1 (remote_peer_step moment row self).2 :=
      remote_peer_step_orderly row self h.1
    have hpeer : (remote_peer_step moment row self).2.local_peer = connecting.local_peer :=
      remote_peer_step_local_peer connecting.local_peer row self h.2
    refine ⟨hnext.1.weaken (fun _ => .inl) fun _ h => h, fun hok => ⟨?_, hpeer⟩⟩
    refine (hnext.2 hok).weaken (fun sock hsock => ?_) fun _ h => h
    rw [List.mem_append, List.mem_singleton] at hsock
    exact or_assoc.mpr hsock
  refine hloop.mono ?_ ?_
  · rintro self ⟨h, rfl⟩
    exact ⟨h.weaken (fun sock hsock => hsock.resolve_right List.not_mem_nil) fun _ h => h, rfl⟩
  · rintro r self ⟨hstopped, hdone⟩
    refine ⟨hstopped, fun hok => ?_⟩
    obtain ⟨hall, hpeer⟩ := hdone hok
    refine hall.weaken (fun sock hsock => .inr ?_) fun _ h => h
    rw [List.nil_append, ← hrows, ← hpeer]
    exact registered_visited hall.consistent hsock _

theorem asked_active {coinstate : CoinState} {current_time choice : Nat} {active_peers : List Nat}
    {fetching next : Fetching Nat} {message : GetBlocksMessage}
    (h : fetching.step crypto coinstate current_time active_peers choice = .ok (next, some (sock, message))) :
    sock ∈ active_peers := by
  cases Fetching.step_cases h with
  | inl hnobody => cases hnobody.1
  | inr hasked =>
      obtain ⟨remote_peer, hactive, _, _, hsent, _⟩ := hasked
      obtain ⟨rfl, _⟩ := Prod.mk.inj (Option.some.inj hsent)
      exact hactive

theorem chain_manager_step_orderly (choice : Nat) :
    Spec (Orderly said heard) (chain_manager_step crypto moment choice) fun _ => Orderly said heard := by
  refine Spec.read fun before => ?_
  refine Spec.raw_bind (fun stepped hstepped => ?_) fun _ _ _ h => h.1
  obtain ⟨fetching, asked⟩ := stepped
  have hchange : ∀ said heard : Nat → Prop, Spec (Orderly said heard)
      (change fun self => { self with fetching } : Action NetworkingThread PyError Unit) fun _ => Orderly said heard :=
    fun _ _ => change_orderly (fun _ => rfl) (fun _ => rfl) fun _ _ => rfl
  cases asked with
  | none =>
      refine (?_ : Spec (Orderly said heard) _ _).mono (fun _ h => h.1) fun _ _ h => h
      exact Spec.seq (hchange said heard) fun _ _ h => h
  | some asked =>
      obtain ⟨sock, message⟩ := asked
      have hactive := asked_active hstepped
      have hsend : Spec (Orderly (fun other => said other ∨ other ∈ before.get_active_peers moment.connected_order)
          fun other => heard other ∨ other ∈ before.get_active_peers moment.connected_order) (do
            change fun self => { self with fetching }
            send_message moment sock (.GetBlocks message) none) fun _ => Orderly
              (fun other => said other ∨ other ∈ before.get_active_peers moment.connected_order)
              fun other => heard other ∨ other ∈ before.get_active_peers moment.connected_order :=
        Spec.seq (hchange _ _) fun _ => send_message_orderly (.inr hactive) (.inr hactive) rfl none
      refine hsend.mono ?_ fun _ _ h => h.weaken (fun _ => .inl) fun _ => .inl
      rintro self ⟨h, rfl⟩
      exact h.active moment.connected_order

theorem chain_manager_step_local_peer (local_peer : LocalPeer) (choice : Nat) :
    Spec (fun self => self.local_peer = local_peer) (chain_manager_step crypto moment choice)
      fun _ self => self.local_peer = local_peer := by
  refine Spec.read_any fun before => ?_
  refine Spec.raw_bind (fun stepped hstepped => ?_) fun _ _ _ h => h
  refine Spec.seq (Spec.change fun _ h => h) fun _ => ?_
  cases stepped.2 with
  | none => exact fun _ h => h
  | some asked => exact send_message_spec fun _ h => h

end Steps

section Runs

theorem SelectorEvent.action_orderly (event : SelectorEvent) (hsaid : ∀ sock ∈ event.sock, said sock) :
    Spec (Orderly said heard) (event.action crypto) fun _ => Orderly said heard := by
  cases event with
  | incoming_connection host port => exact on_local_peer_orderly (LocalPeer.handle_incoming_connection_decent host port)
  | message_received moment sock header message => exact handle_remote_peer_message_orderly (hsaid sock rfl) message
  | closed sock => exact on_local_peer_orderly (LocalPeer.disconnect_decent sock)

-- What is known for sure in one turn need not be in the next.
theorem turn_orderly (turn : Turn) :
    Spec (Orderly (fun _ => False) fun _ => False) (turn.action crypto) fun _ =>
      Orderly (fun _ => False) fun _ => False := by
  have hnothing : ∀ {said heard : Nat → Prop} {self : NetworkingThread}, Orderly said heard self →
      Orderly (fun _ => False) (fun _ => False) self := fun h => h.weaken (fun _ hno => hno.elim) fun _ hno => hno.elim
  have hmanagers : Spec (Orderly (fun _ => False) fun _ => False) (step_managers crypto turn.moment turn.choice)
      fun r self => Orderly (fun _ => False) (fun _ => False) self ∧
        (r = .ok () → Orderly (fun sock => sock ∈ self.local_peer.selector) (fun _ => False) self) := by
    refine Spec.bind network_manager_step_orderly (fun _ => ?_) fun e _ h => ⟨h.1, fun hok => by cases hok⟩
    rintro self ⟨_, hgreeted⟩
    have hpeer : (chain_manager_step crypto turn.moment turn.choice self).2.local_peer = self.local_peer :=
      chain_manager_step_local_peer self.local_peer turn.choice self rfl
    have hafter : Orderly (fun sock => sock ∈ self.local_peer.selector) (fun _ => False)
        (chain_manager_step crypto turn.moment turn.choice self).2 :=
      chain_manager_step_orderly turn.choice self (hgreeted rfl)
    exact ⟨hnothing hafter, fun _ => hpeer ▸ hafter⟩
  refine Spec.bind hmanagers (fun _ => ?_) fun _ _ h => h.1
  refine Spec.read fun selected => ?_
  have hevents : Spec (Orderly (fun sock => sock ∈ selected.local_peer.selector) fun _ => False)
      (forEach (SelectorEvent.action crypto) (turn.events.filter fun event => event.sock.all fun sock =>
        sock ∈ selected.local_peer.selector)) fun _ =>
        Orderly (fun sock => sock ∈ selected.local_peer.selector) fun _ => False := by
    refine Spec.forEach_mem fun event hevent => event.action_orderly fun sock hsock => ?_
    have hall := (List.mem_filter.mp hevent).2
    rw [Option.all_eq_true] at hall
    exact of_decide_eq_true (hall sock hsock)
  refine hevents.mono ?_ fun _ _ h => hnothing h
  rintro self ⟨⟨_, hgreeted⟩, rfl⟩
  exact hgreeted rfl

theorem started_orderly (lst : List PeerKey) (nonce max_selector_map_size : Nat) (listening : Bool) (node : Node)
    (port : Option Nat) (version : Bytes) (started_at : Nat) :
    Orderly (fun _ => False) (fun _ => False)
      (started (LocalPeer.loaded lst nonce max_selector_map_size listening) node port version started_at) :=
  ⟨fun sock => ⟨fun _ => rfl, fun hsent => by cases hsent⟩, fun _ hno => hno.elim, fun _ hno => hno.elim,
    LocalPeer.loaded_consistent lst nonce max_selector_map_size listening⟩

-- Whatever happens to the thread, on every connection hello is the first that is
-- sent, it is sent once, and whatever follows it is sent to a peer that has said
-- hello too.
theorem hello_first (crypto : Crypto) (lst : List PeerKey) (nonce max_selector_map_size : Nat) (listening : Bool)
    (node : Node) (port : Option Nat) (version : Bytes) (started_at : Nat) (turns : List Turn) (sock : Nat) :
    let thread := (run crypto turns
      (started (LocalPeer.loaded lst nonce max_selector_map_size listening) node port version started_at)).2
    thread.sent_on sock = [] ∨ ∃ hello rest, thread.sent_on sock = .Hello hello :: rest ∧
      (∀ message ∈ rest, message.is_hello = false) ∧ (rest ≠ [] → thread.local_peer.Received sock) := by
  have hstart := started_orderly lst nonce max_selector_map_size listening node port version started_at
  have hrun : Spec (Orderly (fun _ => False) fun _ => False) (run crypto turns) fun _ =>
      Orderly (fun _ => False) fun _ => False := Spec.forEach turn_orderly turns
  have hhandshake := (hrun _ hstart).handshake sock
  cases hsent : ((run crypto turns (started (LocalPeer.loaded lst nonce max_selector_map_size listening)
    node port version started_at)).2.conversations sock).hello_sent with
  | false => exact .inl (hhandshake.silent hsent)
  | true => exact .inr (hhandshake.greeted hsent)

end Runs

end NetworkingThread

end Skepticoin
