import Skepticoin.Lib.Ends
import Skepticoin.Networking.Download
import Skepticoin.Networking.FetchLimit
import Skepticoin.Networking.Gossip
import Skepticoin.Networking.LocalPeer.Hosts
import Skepticoin.Networking.Node.Heights
import Skepticoin.Networking.Thread.Addresses

namespace Skepticoin

open Guard FMap Effect

namespace NetworkingThread

variable {crypto : Crypto} {known : Block → Prop} {self : NetworkingThread} {local_peer : LocalPeer} {node : Node}
  {moment : Moment} {sock : Nat}

-- Nothing that the network manager does by itself can fail then.
structure Peered (thread : NetworkingThread) : Prop where
  consistent : LocalPeer.Consistent ∅ thread.local_peer
  hosts : LocalPeer.Hosts Dotted thread.local_peer

-- Nor what the chain manager does.
structure Alive (crypto : Crypto) (known : Block → Prop) (thread : NetworkingThread) : Prop extends Peered thread where
  level : Node.OnLevel crypto known thread.node

section Kept

theorem Decent.consistent {α : Type} {x : Action LocalPeer PyError α} (hx : LocalPeer.Decent x) :
    Spec (LocalPeer.Consistent ∅) x fun _ => LocalPeer.Consistent ∅ :=
  fun self h => (hx self h).1

theorem consistent_kept {fits_message : Nat → MessageHeader → Message → Prop} {fits_host : String → Prop} :
    Kept crypto (fun self => LocalPeer.Consistent ∅ self.local_peer) fits_message fits_host :=
  kept_of_local_peer
    (fun sock message raises => Decent.consistent (LocalPeer.handle_hello_message_decent sock message raises))
    (fun message => Decent.consistent (LocalPeer.handle_peers_message_decent message))
    (fun sock => Decent.consistent (LocalPeer.disconnect_decent sock))
    (fun host port _ => Decent.consistent (LocalPeer.handle_incoming_connection_decent host port))
    fun current_time listing => Decent.consistent (LocalPeer.step_decent current_time listing)

-- The peers that are told of have hosts in the dotted form.
theorem hosts_kept {fits_message : Nat → MessageHeader → Message → Prop} :
    Kept crypto (fun self => LocalPeer.Hosts Dotted self.local_peer) fits_message Dotted :=
  kept_of_local_peer LocalPeer.handle_hello_message_hosts
    (fun _ => LocalPeer.handle_peers_message_hosts fun _ _ _ hmapped => dotted_exploded hmapped)
    LocalPeer.disconnect_hosts (fun _ port hhost => LocalPeer.handle_incoming_connection_hosts hhost port)
    LocalPeer.step_hosts

theorem peered_kept {fits_message : Nat → MessageHeader → Message → Prop} :
    Kept crypto Peered fits_message Dotted :=
  (consistent_kept.and hosts_kept).congr fun _ => ⟨fun h => ⟨h.1, h.2⟩, fun h => ⟨h.consistent, h.hosts⟩⟩

end Kept

-- While the local peer and the node stay as they are.
structure Sending (local_peer : LocalPeer) (node : Node) (thread : NetworkingThread) : Prop extends Peered thread where
  same_local_peer : thread.local_peer = local_peer
  same_node : thread.node = node

-- What is done outside of the handlers ends normally.
section Steps

theorem set_conversation_ends (conversation : Conversation) :
    Ends (Sending local_peer node) (set_conversation sock conversation) fun _ => Sending local_peer node :=
  Ends.change fun _ h => ⟨⟨h.consistent, h.hosts⟩, h.same_local_peer, h.same_node⟩

theorem send_message_ends (message : Message) (prev_header : Option MessageHeader) :
    Ends (Sending local_peer node) (send_message moment sock message prev_header) fun _ => Sending local_peer node :=
  fun self h => ⟨(), _, send_message_run self moment sock message prev_header, ⟨h.consistent, h.hosts⟩,
    h.same_local_peer, h.same_node⟩

-- A connection in the dictionary has its peer.
theorem connection_ends {key : PeerKey} (hsock : local_peer.connected_peers.lookup key = some sock) :
    Ends (Sending local_peer node) (on_local_peer (LocalPeer.connection sock)) fun remote_peer self =>
      Sending local_peer node self ∧ Dotted remote_peer.host := by
  intro self h
  obtain ⟨_, _, remote_peer, hpeer, _⟩ := h.consistent.connected key sock (h.same_local_peer ▸ hsock)
  exact ⟨remote_peer, self, connection_run hpeer, h, h.hosts.connections sock remote_peer hpeer⟩

theorem send_hello_ends {remote_peer : ConnectedRemotePeer} (hhost : Dotted remote_peer.host) :
    Ends (Sending local_peer node) (send_hello moment sock remote_peer) fun _ => Sending local_peer node := by
  obtain ⟨ipv4, hipv4⟩ := hhost
  obtain ⟨address, haddress, _⟩ := ipv4_mapped_address_eq_ok hipv4
  refine Ends.read_any fun before _ => Ends.raw_bind haddress ?_
  exact Ends.seq (set_conversation_ends _) fun _ => send_message_ends _ none

theorem remote_peer_step_ends {key : PeerKey} (hkey : local_peer.connected_peers.lookup key = some sock) :
    Ends (Sending local_peer node) (remote_peer_step moment sock) fun _ => Sending local_peer node := by
  have hask : ∀ remote_peer : ConnectedRemotePeer, Ends (Sending local_peer node) (do
      let self ← read
      if remote_peer.hello_received && is_time_to_get_peers (self.conversations sock) moment.current_time then
        send_get_peers moment sock
      else pure ()) fun _ => Sending local_peer node := by
    refine fun remote_peer => Ends.read_any fun before _ => Ends.ite (fun _ => ?_) fun _ => Ends.pure fun _ h => h
    refine Ends.seq (send_message_ends _ none) fun _ => Ends.read_any fun after _ => ?_
    exact set_conversation_ends _
  refine Ends.bind (connection_ends hkey) fun remote_peer => ?_
  rintro self ⟨h, hhost⟩
  refine (Ends.read_any fun before _ => ?_ : Ends (Sending local_peer node) _ _) self h
  refine Ends.ite (fun _ => hask remote_peer) fun _ => Ends.seq (send_hello_ends hhost) fun _ => ?_
  exact hask remote_peer

theorem network_manager_step_ends :
    Ends (fun self => Peered self ∧ self.node = node) (network_manager_step moment) fun _ self =>
      Peered self ∧ self.node = node := by
  refine Ends.read_any fun before _ => Ends.seq (?_ : Ends (fun self => Peered self ∧ self.node = node) _ _) fun _ => ?_
  · rintro self ⟨h, hnode⟩
    have hafter : Peered (on_local_peer (LocalPeer.step moment.current_time
        (moment.disconnected_order.listing before.local_peer.disconnected_peers)) self).2 :=
      ⟨Decent.consistent (LocalPeer.step_decent _ _) self.local_peer h.consistent,
        LocalPeer.step_hosts _ _ self.local_peer h.hosts⟩
    obtain ⟨after, hrun, _⟩ := LocalPeer.step_keeps h.consistent moment.current_time
      (moment.disconnected_order.listing before.local_peer.disconnected_peers)
    have hall : on_local_peer (LocalPeer.step moment.current_time
        (moment.disconnected_order.listing before.local_peer.disconnected_peers)) self =
        (.ok (), { self with local_peer := after }) := by
      rw [on_local_peer, within, hrun]
    rw [hall] at hafter
    exact ⟨(), _, hall, hafter, hnode⟩
  · refine Ends.read fun connecting => ?_
    rintro self ⟨⟨h, hnode⟩, rfl⟩
    have hloop : Ends (Sending self.local_peer node) (forEach (remote_peer_step moment)
        (moment.connected_order.values self.local_peer.connected_peers)) fun _ => Sending self.local_peer node := by
      refine Ends.forEach fun sock hmem => ?_
      obtain ⟨key, _, hkey⟩ := List.mem_filterMap.mp hmem
      exact remote_peer_step_ends hkey
    exact (hloop.mono (fun _ hs => hs) fun _ _ hs => ⟨hs.toPeered, hs.same_node⟩) self ⟨h, rfl, hnode⟩

end Steps

section Runs

end Runs

section Sample

theorem sample_host : Dotted "10.0.0.1" := by
  have hexploded : exploded [10, 0, 0, 1] = "10.0.0.1" := by decide +kernel
  rw [← hexploded]
  exact ⟨_, parse_ipv4_exploded rfl⟩

end Sample

end NetworkingThread

end Skepticoin
