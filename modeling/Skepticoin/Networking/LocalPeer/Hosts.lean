import Skepticoin.Networking.LocalPeer.Greetings

namespace Skepticoin

open Guard FMap Effect

namespace LocalPeer

variable {P : String → Prop} {self : LocalPeer}

-- The hosts of all connections that were ever made, and of the peers that can be
-- dialled.
structure Hosts (P : String → Prop) (state : LocalPeer) : Prop where
  connections : ∀ (sock : Nat) (remote_peer : ConnectedRemotePeer),
    state.connections[sock]? = some remote_peer → P remote_peer.host
  disconnected : ∀ key peer, state.disconnected_peers.lookup key = some peer → P peer.host

section Updates

theorem Hosts.set (h : Hosts P self) {remote_peer : ConnectedRemotePeer} (hhost : P remote_peer.host) (other : Nat) :
    ∀ (sock : Nat) (found : ConnectedRemotePeer),
      (self.connections.set other remote_peer)[sock]? = some found → P found.host := by
  intro sock found hfound
  by_cases heq : other = sock
  · subst heq
    have hlt : other < (self.connections.set other remote_peer).length := (List.getElem?_eq_some_iff.mp hfound).1
    rw [List.length_set] at hlt
    rw [List.getElem?_set_self hlt] at hfound
    rw [← Option.some.inj hfound]
    exact hhost
  · rw [List.getElem?_set_ne heq] at hfound
    exact h.connections sock found hfound

theorem Hosts.insert (h : Hosts P self) (key : PeerKey) {peer : DisconnectedRemotePeer} (hhost : P peer.host) :
    ∀ other found, (self.disconnected_peers.insert key peer).lookup other = some found → P found.host := by
  intro other found hfound
  cases lookup_insert_eq_some.mp hfound with
  | inl hself => exact hself.2 ▸ hhost
  | inr hold => exact h.disconnected other found hold.2

theorem ConnectedRemotePeer.dropped_host (remote_peer : ConnectedRemotePeer) :
    remote_peer.dropped.host = remote_peer.host := by
  unfold Skepticoin.ConnectedRemotePeer.dropped
  split
  · rfl
  · rfl

end Updates

-- Whatever happens to the peers, no other host comes in.
section Actions

theorem keep_outgoing_hosts (sock : Nat) {remote_peer : ConnectedRemotePeer} (hhost : P remote_peer.host) :
    Spec (Hosts P) (keep_outgoing sock remote_peer) fun _ => Hosts P := by
  intro self h
  rw [keep_outgoing_run]
  have hdropped : P remote_peer.dropped.host := (ConnectedRemotePeer.dropped_host remote_peer).symm ▸ hhost
  by_cases hout : remote_peer.direction = .OUTGOING
  · simp only [if_pos hout]
    exact ⟨h.set hdropped sock, h.insert _ hdropped⟩
  · simp only [if_neg hout]
    exact ⟨h.connections, h.disconnected⟩

theorem connection_hosts {f : ConnectedRemotePeer → Action LocalPeer PyError Unit} (sock : Nat)
    (hf : ∀ remote_peer : ConnectedRemotePeer, P remote_peer.host → Spec (Hosts P) (f remote_peer) fun _ => Hosts P) :
    Spec (Hosts P) (connection sock >>= f) fun _ => Hosts P := by
  refine connection_bind sock (fun remote_peer => ?_) fun _ _ h => h
  rintro self ⟨h, hpeer⟩
  exact hf remote_peer (h.connections sock remote_peer hpeer) self h

theorem disconnect_hosts (sock : Nat) : Spec (Hosts P) (disconnect sock) fun _ => Hosts P := by
  refine except_Exception_spec (Spec.seq ?_ fun _ => ?_) fun error =>
    Spec.change fun _ h => ⟨h.connections, h.disconnected⟩
  · refine Spec.read_any fun before => Spec.raw_bind (fun _ _ => ?_) fun _ _ _ h => h
    exact Spec.change fun _ h => ⟨h.connections, h.disconnected⟩
  · refine connection_hosts sock fun remote_peer hhost => Spec.seq sanity_check_spec fun _ => ?_
    refine Spec.read_any fun before => Spec.raw_bind (fun connected_peers _ => ?_) fun _ _ _ h => h
    refine Spec.change_bind (Hosts P) (fun _ h => ⟨h.connections, h.disconnected⟩) ?_
    exact Spec.seq (keep_outgoing_hosts sock hhost) fun _ => sanity_check_spec

theorem handle_peer_connected_hosts (sock : Nat) :
    Spec (Hosts P) (handle_peer_connected sock) fun _ => Hosts P := by
  refine connection_hosts sock fun remote_peer _ => Spec.seq ?_ fun _ => Spec.seq sanity_check_spec fun _ => ?_
  · refine Spec.read_any fun before => ?_
    cases before.connected_peers.lookup remote_peer.key with
    | none => exact fun _ h => h
    | some existing => exact disconnect_hosts existing
  · refine Spec.change_bind (Hosts P) (fun _ h => ⟨h.connections, h.disconnected⟩) ?_
    refine Spec.change_bind (Hosts P) (fun self h => ⟨h.connections, fun key peer hpeer => ?_⟩) sanity_check_spec
    have hold : (self.disconnected_peers.erase remote_peer.key).lookup key = some peer := hpeer
    rw [lookup_erase_eq_ite, Option.ite_none_left_eq_some] at hold
    exact h.disconnected key peer hold.2

theorem register_hosts {remote_peer : ConnectedRemotePeer} (hhost : P remote_peer.host) :
    Spec (Hosts P) (register remote_peer) fun _ => Hosts P := by
  intro self h
  rw [register_run]
  refine ⟨fun sock found hfound => ?_, h.disconnected⟩
  have hfound' : (self.connections ++ [remote_peer])[sock]? = some found := hfound
  cases List.mem_append.mp (List.mem_of_getElem? hfound') with
  | inl hold =>
      obtain ⟨other, hother⟩ := List.getElem?_of_mem hold
      exact h.connections other found hother
  | inr hnew =>
      rw [List.mem_singleton.mp hnew]
      exact hhost

theorem handle_incoming_connection_hosts {host : String} (hhost : P host) (port : Nat) :
    Spec (Hosts P) (handle_incoming_connection host port) fun _ => Hosts P :=
  Spec.seq (register_hosts hhost) fun _ => handle_peer_connected_hosts _

theorem connect_if_due_hosts (current_time : Nat) {disconnected_peer : DisconnectedRemotePeer}
    (hhost : P disconnected_peer.host) :
    Spec (Hosts P) (connect_if_due current_time disconnected_peer) fun _ => Hosts P := by
  refine Spec.read_any fun before => Spec.ite (fun _ => ?_) fun _ _ h => h
  refine Spec.change_bind (Hosts P) (fun self h => ?_) ?_
  · split_ifs
    · exact ⟨h.connections, h.insert _ hhost⟩
    · exact h
  · refine Spec.read_any fun state => Spec.ite (fun _ _ h => h) fun _ => ?_
    exact Spec.seq (register_hosts hhost) fun _ => handle_peer_connected_hosts _

theorem step_hosts (current_time : Nat) (listing : Listing) :
    Spec (Hosts P) (step current_time listing) fun _ => Hosts P := by
  refine Spec.seq sanity_check_spec fun _ => Spec.read fun before => ?_
  rintro self ⟨h, rfl⟩
  refine Spec.forEach_mem (fun disconnected_peer hpeer => ?_) self h
  obtain ⟨key, _, hlookup⟩ := List.mem_filterMap.mp hpeer
  exact connect_if_due_hosts current_time (h.disconnected key disconnected_peer hlookup)

theorem add_announced_peer_hosts {host : String} (hhost : P host) (port : Nat) :
    Spec (Hosts P) (add_announced_peer host port) fun _ => Hosts P := by
  refine Spec.seq sanity_check_spec fun _ => ?_
  refine Spec.change_bind (Hosts P) (fun self h => ?_) sanity_check_spec
  split_ifs
  · exact h
  · exact ⟨h.connections, h.insert _ hhost⟩

theorem handle_peers_message_hosts {message : PeersMessage}
    (hhosts : ∀ peer ∈ message.peers, ∀ ipv4 ∈ peer.ip_address.ipv4_mapped, P (exploded ipv4)) :
    Spec (Hosts P) (handle_peers_message_received message) fun _ => Hosts P := by
  refine Spec.forEach_mem fun announced_peer hpeer => ?_
  cases hmapped : announced_peer.ip_address.ipv4_mapped with
  | none => exact fun _ h => h
  | some ipv4_mapped => exact add_announced_peer_hosts (hhosts announced_peer hpeer ipv4_mapped hmapped) _

theorem handle_hello_message_hosts (sock : Nat) (message : HelloMessage) (raises : Bool) :
    Spec (Hosts P) (handle_hello_message_received sock message raises) fun _ => Hosts P := by
  refine connection_hosts sock fun remote_peer hhost => ?_
  have hgreeted : P ({ remote_peer with hello_received := true, ban_score := 0 } : ConnectedRemotePeer).host := hhost
  refine Spec.change_bind (Hosts P) (fun _ h => ⟨h.set hgreeted sock, h.disconnected⟩) ?_
  cases remote_peer.direction with
  | INCOMING => exact add_announced_peer_hosts hhost _
  | OUTGOING =>
      refine Spec.seq (Spec.raw fun _ h => h) fun _ => Spec.read_any fun before => ?_
      refine Spec.ite (fun _ => ?_) fun _ _ h => h
      exact Spec.change_bind (Hosts P) (fun _ h => ⟨h.connections, h.disconnected⟩) (disconnect_hosts sock)

end Actions

end LocalPeer

end Skepticoin
