import Skepticoin.Networking.LocalPeer.Theorems

namespace Skepticoin

open Guard FMap Effect

namespace LocalPeer

-- The peer at the other end has said hello.
def Received (self : LocalPeer) (sock : Nat) : Prop :=
  ∃ remote_peer, self.connections[sock]? = some remote_peer ∧ remote_peer.hello_received = true

-- It stays so whatever happens to the peers.
section Received

variable {sock : Nat}

theorem connection_bind {α : Type} {P : LocalPeer → Prop} {f : ConnectedRemotePeer → Action LocalPeer PyError α}
    {post : Except PyError α → LocalPeer → Prop} (other : Nat)
    (hok : ∀ remote_peer, Spec (fun self => P self ∧ self.connections[other]? = some remote_peer) (f remote_peer) post)
    (herror : ∀ error self, P self → post (.error error) self) : Spec P (connection other >>= f) post := by
  intro self hP
  cases hpeer : self.connections[other]? with
  | none =>
      have hrun : connection other self = (.error .IndexError, self) := by
        rw [connection, bind_run_ok (read_run self), raw_run, hpeer]
      rw [bind_run_error hrun]
      exact herror _ _ hP
  | some remote_peer =>
      rw [bind_run_ok (connection_run hpeer)]
      exact hok remote_peer self ⟨hP, hpeer⟩

theorem Received.set {self : LocalPeer} {other : Nat} {old new : ConnectedRemotePeer} (h : self.Received sock)
    (hold : self.connections[other]? = some old) (hnew : old.hello_received = true → new.hello_received = true) :
    ∃ remote_peer, (self.connections.set other new)[sock]? = some remote_peer ∧ remote_peer.hello_received = true := by
  obtain ⟨remote_peer, hpeer, hreceived⟩ := h
  by_cases heq : other = sock
  · subst heq
    have hlt : other < self.connections.length := (List.getElem?_eq_some_iff.mp hpeer).1
    rw [hold] at hpeer
    exact ⟨new, List.getElem?_set_self hlt, hnew (Option.some.inj hpeer ▸ hreceived)⟩
  · exact ⟨remote_peer, by rw [List.getElem?_set_ne heq, hpeer], hreceived⟩

theorem ConnectedRemotePeer.dropped_received (remote_peer : ConnectedRemotePeer) :
    remote_peer.dropped.hello_received = remote_peer.hello_received := by
  unfold Skepticoin.ConnectedRemotePeer.dropped
  split
  · rfl
  · rfl

theorem sanity_check_spec {P : LocalPeer → Prop} : Spec P sanity_check fun _ => P :=
  Spec.read fun _ => Spec.raw fun _ hP => hP.1

theorem keep_outgoing_received (other : Nat) (remote_peer : ConnectedRemotePeer) :
    Spec (fun self => self.Received sock ∧ self.connections[other]? = some remote_peer)
      (keep_outgoing other remote_peer) fun _ self => self.Received sock := by
  rintro self ⟨hreceived, hpeer⟩
  rw [keep_outgoing_run]
  by_cases hout : remote_peer.direction = .OUTGOING
  · simp only [if_pos hout]
    exact hreceived.set hpeer fun h => (ConnectedRemotePeer.dropped_received remote_peer).trans h
  · simp only [if_neg hout]
    exact hreceived

theorem handle_peer_disconnected_received (other : Nat) :
    Spec (fun self => self.Received sock) (handle_peer_disconnected other) fun _ self => self.Received sock := by
  refine connection_bind other (fun remote_peer => ?_) fun _ _ h => h
  refine Spec.bind sanity_check_spec (fun _ => ?_) fun _ _ h => h.1
  refine Spec.read fun before => ?_
  refine Spec.raw_bind (fun connected_peers _ => ?_) fun _ _ _ h => h.1.1
  refine Spec.change_bind (fun self => self.Received sock ∧ self.connections[other]? = some remote_peer)
    (fun _ h => h.1) ?_
  exact Spec.bind (keep_outgoing_received other remote_peer) (fun _ => sanity_check_spec) fun _ _ h => h

theorem except_Exception_spec {P : LocalPeer → Prop} {x : Action LocalPeer PyError Unit}
    {handler : PyError → Action LocalPeer PyError Unit} (hx : Spec P x fun _ => P)
    (hhandler : ∀ error, Spec P (handler error) fun _ => P) : Spec P (except_Exception x handler) fun _ => P := by
  intro self hP
  have hmiddle := hx self hP
  unfold except_Exception
  cases hrun : x self with
  | mk result after =>
      rw [hrun] at hmiddle
      cases result with
      | ok _ => exact hmiddle
      | error error => exact hhandler error after hmiddle

theorem disconnect_received (other : Nat) :
    Spec (fun self => self.Received sock) (disconnect other) fun _ self => self.Received sock := by
  refine except_Exception_spec ?_ fun error => Spec.change fun _ h => h
  refine Spec.seq ?_ fun _ => handle_peer_disconnected_received other
  refine Spec.read fun before => ?_
  exact Spec.raw_bind (fun _ _ => Spec.change fun _ h => h.1) fun _ _ _ h => h.1

theorem handle_peer_connected_received (other : Nat) :
    Spec (fun self => self.Received sock) (handle_peer_connected other) fun _ self => self.Received sock := by
  refine connection_bind other (fun remote_peer => ?_) fun _ _ h => h
  refine (?_ : Spec (fun self => self.Received sock) _ _).mono (fun _ h => h.1) fun _ _ h => h
  refine Spec.seq ?_ fun _ => ?_
  · refine Spec.read_any fun before => ?_
    cases before.connected_peers.lookup remote_peer.key with
    | none => exact fun _ h => h
    | some existing => exact disconnect_received existing
  · refine Spec.bind sanity_check_spec (fun _ => ?_) fun _ _ h => h
    refine Spec.change_bind (fun self => self.Received sock) (fun _ h => h) ?_
    exact Spec.change_bind (fun self => self.Received sock) (fun _ h => h) sanity_check_spec

theorem register_received (remote_peer : ConnectedRemotePeer) :
    Spec (fun self => self.Received sock) (register remote_peer) fun _ self => self.Received sock := by
  rintro self ⟨found, hfound, hreceived⟩
  rw [register_run]
  exact ⟨found, registering_connections hfound remote_peer, hreceived⟩

theorem handle_incoming_connection_received (host : String) (port : Nat) :
    Spec (fun self => self.Received sock) (handle_incoming_connection host port) fun _ self => self.Received sock :=
  Spec.seq (register_received _) fun _ => handle_peer_connected_received _

theorem connect_if_due_received (current_time : Nat) (disconnected_peer : DisconnectedRemotePeer) :
    Spec (fun self => self.Received sock) (connect_if_due current_time disconnected_peer)
      fun _ self => self.Received sock := by
  refine Spec.read_any fun before => ?_
  refine Spec.ite (fun _ => ?_) fun _ _ h => h
  refine Spec.change_bind (fun self => self.Received sock) (fun self h => ?_) ?_
  · split_ifs
    · exact h
    · exact h
  · refine Spec.read fun state => ?_
    refine (?_ : Spec (fun self => self.Received sock) _ _).mono (fun _ h => h.1) fun _ _ h => h
    refine Spec.ite (fun _ _ h => h) fun _ => ?_
    exact Spec.bind (register_received _) (fun _ => handle_peer_connected_received _) fun _ _ h => h

theorem step_received (current_time : Nat) (listing : Listing) :
    Spec (fun self => self.Received sock) (step current_time listing) fun _ self => self.Received sock := by
  refine Spec.seq sanity_check_spec fun _ => ?_
  exact Spec.read_any fun before => Spec.forEach (connect_if_due_received current_time) _

theorem add_announced_peer_received (host : String) (port : Nat) :
    Spec (fun self => self.Received sock) (add_announced_peer host port) fun _ self => self.Received sock := by
  refine Spec.seq sanity_check_spec fun _ => ?_
  refine Spec.change_bind (fun self => self.Received sock) (fun self h => ?_) sanity_check_spec
  split_ifs
  · exact h
  · exact h

theorem handle_peers_message_received_keeps (message : PeersMessage) :
    Spec (fun self => self.Received sock) (handle_peers_message_received message)
      fun _ self => self.Received sock := by
  refine Spec.forEach (fun announced_peer => ?_) message.peers
  cases announced_peer.ip_address.ipv4_mapped with
  | none => exact fun _ h => h
  | some ipv4_mapped => exact add_announced_peer_received _ _

theorem handle_hello_message_received_keeps (other : Nat) (message : HelloMessage) (raises : Bool) :
    Spec (fun self => self.Received sock) (handle_hello_message_received other message raises)
      fun _ self => self.Received sock := by
  refine connection_bind other (fun remote_peer => ?_) fun _ _ h => h
  refine Spec.change_bind (fun self => self.Received sock) ?_ ?_
  · rintro self ⟨hreceived, hpeer⟩
    exact hreceived.set hpeer fun _ => rfl
  · cases remote_peer.direction with
    | INCOMING => exact add_announced_peer_received _ _
    | OUTGOING =>
        refine Spec.seq (Spec.raw fun _ h => h) fun _ => ?_
        refine Spec.read_any fun before => ?_
        refine Spec.ite (fun _ => ?_) fun _ _ h => h
        exact Spec.change_bind (fun self => self.Received sock) (fun _ h => h) (disconnect_received other)

-- What keeps the peers in order, and whoever has said hello.
def Decent {α : Type} (x : Action LocalPeer PyError α) : Prop :=
  ∀ self, Consistent ∅ self → Consistent ∅ (x self).2 ∧ ∀ sock, self.Received sock → (x self).2.Received sock

theorem Keeps.decent {lowered : LocalPeer → PeerKey → Prop} {x : Action LocalPeer PyError Unit}
    (hkeeps : ∀ self, Consistent ∅ self → Keeps (lowered self) ∅ self x)
    (hreceived : ∀ sock, Spec (fun self => self.Received sock) x fun _ self => self.Received sock) : Decent x := by
  intro self h
  obtain ⟨after, hrun, hafter, _⟩ := hkeeps self h
  refine ⟨?_, fun sock hsock => hreceived sock self hsock⟩
  rw [hrun]
  exact hafter

theorem step_decent (current_time : Nat) (listing : Listing) : Decent (step current_time listing) :=
  Keeps.decent (fun _ h => step_keeps h current_time listing) fun _ => step_received current_time listing

theorem handle_incoming_connection_decent (host : String) (port : Nat) :
    Decent (handle_incoming_connection host port) :=
  Keeps.decent (fun _ h => handle_incoming_connection_keeps h host port)
    fun _ => handle_incoming_connection_received host port

theorem disconnect_decent (other : Nat) : Decent (disconnect other) :=
  Keeps.decent (fun _ h => disconnect_keeps h (Finset.notMem_empty other)) fun _ => disconnect_received other

theorem handle_peers_message_decent (message : PeersMessage) : Decent (handle_peers_message_received message) :=
  Keeps.decent (fun _ h => handle_peers_message_keeps h message) fun _ => handle_peers_message_received_keeps message

theorem handle_hello_message_decent (other : Nat) (message : HelloMessage) (raises : Bool) :
    Decent (handle_hello_message_received other message raises) := by
  intro self h
  refine ⟨?_, fun sock hsock => handle_hello_message_received_keeps other message raises self hsock⟩
  cases hpeer : self.connections[other]? with
  | some remote_peer => exact (handle_hello_message_survives h hpeer message raises).2.1
  | none =>
      have hsurvives : Survives (fun _ => False) self (handle_hello_message_received other message raises) :=
        no_connection_survives h hpeer _
      exact hsurvives.2.1

end Received

end LocalPeer

end Skepticoin
