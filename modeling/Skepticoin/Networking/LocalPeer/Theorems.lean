import Skepticoin.Networking.LocalPeer

namespace Skepticoin

open Guard FMap Effect

-- Which peer is known under which key, wherever it is kept.
abbrev AddressBook := PeerKey → Option RemotePeer

namespace AddressBook

-- What was known to be outgoing is known still, and its ban score is no lower
-- but at a key where it may have been.
def Advances (lowered : PeerKey → Prop) (before after : AddressBook) : Prop :=
  ∀ key peer, key.2.2 = .OUTGOING → before key = some peer →
    ∃ peer', after key = some peer' ∧ (¬lowered key → peer.ban_score ≤ peer'.ban_score)

variable {lowered lowered' : PeerKey → Prop} {first second third : AddressBook} {key : PeerKey}

theorem advances_refl (lowered : PeerKey → Prop) (book : AddressBook) : Advances lowered book book :=
  fun _ peer _ hpeer => ⟨peer, hpeer, fun _ => Nat.le_refl _⟩

theorem Advances.mono (h : Advances lowered first second) (himp : ∀ key, lowered key → lowered' key) :
    Advances lowered' first second := by
  intro key peer hout hpeer
  obtain ⟨peer', hpeer', hle⟩ := h key peer hout hpeer
  exact ⟨peer', hpeer', fun hnot => hle fun hlowered => hnot (himp key hlowered)⟩

theorem Advances.trans (h : Advances lowered first second) (h' : Advances lowered second third) :
    Advances lowered first third := by
  intro key peer hout hpeer
  obtain ⟨peer', hpeer', hle⟩ := h key peer hout hpeer
  obtain ⟨peer'', hpeer'', hle'⟩ := h' key peer' hout hpeer'
  exact ⟨peer'', hpeer'', fun hnot => (hle hnot).trans (hle' hnot)⟩

-- One entry has changed.
theorem advances_update {value : Option RemotePeer}
    (h : key.2.2 = .OUTGOING → ∀ peer, first key = some peer →
      ∃ peer', value = some peer' ∧ (¬lowered key → peer.ban_score ≤ peer'.ban_score)) :
    Advances lowered first (Function.update first key value) := by
  intro other peer hout hpeer
  by_cases hkey : other = key
  · subst hkey
    rw [Function.update_self]
    exact h hout peer hpeer
  · rw [Function.update_of_ne hkey]
    exact ⟨peer, hpeer, fun _ => Nat.le_refl _⟩

end AddressBook

@[simp] theorem ConnectedRemotePeer.as_disconnected_key (self : ConnectedRemotePeer) :
    self.as_disconnected.key = self.key := rfl

@[simp] theorem DisconnectedRemotePeer.as_connected_key (self : DisconnectedRemotePeer) :
    self.as_connected.key = self.key := rfl

-- The peer as it is when its connection has ended.
def ConnectedRemotePeer.dropped (self : ConnectedRemotePeer) : ConnectedRemotePeer :=
  if self.hello_received then self else { self with ban_score := self.ban_score + 1 }

@[simp] theorem ConnectedRemotePeer.dropped_key (self : ConnectedRemotePeer) : self.dropped.key = self.key := by
  unfold ConnectedRemotePeer.dropped
  split <;> rfl

theorem ConnectedRemotePeer.ban_score_le_dropped (self : ConnectedRemotePeer) :
    self.ban_score ≤ self.dropped.ban_score := by
  unfold ConnectedRemotePeer.dropped
  split
  · exact Nat.le_refl _
  · exact Nat.le_succ _

namespace LocalPeer

variable {self : LocalPeer} {sock : Nat} {remote_peer : ConnectedRemotePeer} {pending : Finset Nat} {key : PeerKey}

def known (self : LocalPeer) : AddressBook := fun key =>
  match self.connected_peers.lookup key with
  | some sock => self.connections[sock]?.map fun peer => peer.toRemotePeer
  | none => (self.disconnected_peers.lookup key).map fun peer => peer.toRemotePeer

-- What holds of the dictionaries, the connections and the selector between two
-- events. In the middle of an event a socket may be pending: the selector has it
-- and no dictionary does yet.
structure Consistent (pending : Finset Nat) (state : LocalPeer) : Prop where
  connected : ∀ key sock, state.connected_peers.lookup key = some sock →
    sock ∈ state.selector ∧ sock ∉ pending ∧ ∃ peer, state.connections[sock]? = some peer ∧ peer.key = key
  registered : ∀ sock ∈ state.selector, sock ∉ pending →
    ∃ peer, state.connections[sock]? = some peer ∧ state.connected_peers.lookup peer.key = some sock
  disconnected : ∀ key peer, state.disconnected_peers.lookup key = some peer → peer.key = key
  disjoint : ∀ key ∈ state.connected_peers, key ∉ state.disconnected_peers
  incoming : ∀ key peer, state.known key = some peer → key.2.2 = .INCOMING → peer.ban_score = 0
  sane : shouldn't_happen ∉ state.logged

theorem incoming_update {known : PeerKey → Option RemotePeer} {remote_peer : RemotePeer}
    (hin : remote_peer.direction = .INCOMING → remote_peer.ban_score = 0)
    (h : ∀ key peer, known key = some peer → key.2.2 = .INCOMING → peer.ban_score = 0) (key : PeerKey)
    (peer : RemotePeer) (hknown : Function.update known remote_peer.key (some remote_peer) key = some peer)
    (hdirection : key.2.2 = .INCOMING) : peer.ban_score = 0 := by
  by_cases heq : key = remote_peer.key
  · rw [heq, Function.update_self] at hknown
    have hown : remote_peer.key.2.2 = .INCOMING := heq ▸ hdirection
    rw [← Option.some.inj hknown]
    exact hin hown
  · rw [Function.update_of_ne heq] at hknown
    exact h key peer hknown hdirection

theorem sanity_check_run (h : ∀ key ∈ self.connected_peers, key ∉ self.disconnected_peers) :
    sanity_check self = (.ok (), self) := by
  have hnone : ¬∃ key ∈ self.connected_peers.keys, key ∈ self.disconnected_peers := by
    intro ⟨key, hkey, hboth⟩
    exact h key (Finmap.mem_keys.mp hkey) hboth
  rw [sanity_check, bind_run_ok (read_run self), raw_run, raiseIf, if_neg hnone]

theorem connection_run (h : self.connections[sock]? = some remote_peer) :
    connection sock self = (.ok remote_peer, self) := by
  rw [connection, bind_run_ok (read_run self), raw_run, h]

-- The state that the end of a connection leaves.
def without (self : LocalPeer) (sock : Nat) (remote_peer : ConnectedRemotePeer) : LocalPeer :=
  { self with
    selector := self.selector.erase sock
    connected_peers := self.connected_peers.erase remote_peer.key
    connections :=
      if remote_peer.direction = .OUTGOING then self.connections.set sock remote_peer.dropped else self.connections
    disconnected_peers :=
      if remote_peer.direction = .OUTGOING then
        self.disconnected_peers.insert remote_peer.key remote_peer.dropped.as_disconnected
      else self.disconnected_peers }

theorem known_without (h : Consistent pending self) (hpeer : self.connections[sock]? = some remote_peer)
    (hkey : self.connected_peers.lookup remote_peer.key = some sock) :
    (self.without sock remote_peer).known = Function.update self.known remote_peer.key
      (if remote_peer.direction = .OUTGOING then some remote_peer.dropped.toRemotePeer else none) := by
  have hfree : remote_peer.key ∉ self.disconnected_peers :=
    h.disjoint _ (Finmap.mem_of_lookup_eq_some hkey)
  funext key
  by_cases heq : key = remote_peer.key
  · subst heq
    rw [Function.update_self]
    simp only [known, without, lookup_erase_eq_ite, if_true]
    by_cases hout : remote_peer.direction = .OUTGOING
    · simp only [if_pos hout, Finmap.lookup_insert]
      rfl
    · simp only [if_neg hout, Finmap.lookup_eq_none.mpr hfree]
      rfl
  · rw [Function.update_of_ne heq]
    simp only [known, without, lookup_erase_eq_ite, if_neg heq]
    cases hconnected : self.connected_peers.lookup key with
    | none =>
        by_cases hout : remote_peer.direction = .OUTGOING
        · simp only [if_pos hout, Finmap.lookup_insert_of_ne _ heq]
        · simp only [if_neg hout]
    | some other =>
        obtain ⟨_, _, peer, hother, hown⟩ := h.connected key other hconnected
        have hne : sock ≠ other := by
          intro hsame
          rw [← hsame, hpeer] at hother
          exact heq (hown ▸ (Option.some.inj hother) ▸ rfl)
        by_cases hout : remote_peer.direction = .OUTGOING
        · simp only [if_pos hout, List.getElem?_set_ne hne]
        · simp only [if_neg hout]

theorem without_consistent (h : Consistent pending self) (hsock : sock ∈ self.selector) (hpending : sock ∉ pending)
    (hpeer : self.connections[sock]? = some remote_peer) : Consistent pending (self.without sock remote_peer) := by
  obtain ⟨_, hpeer', hkey⟩ := h.registered sock hsock hpending
  obtain rfl := Option.some.inj (hpeer.symm.trans hpeer')
  have hknown := known_without h hpeer hkey
  have hother : ∀ other, other ≠ sock →
      (self.without sock remote_peer).connections[other]? = self.connections[other]? := by
    intro other hne
    unfold without
    by_cases hout : remote_peer.direction = .OUTGOING
    · simp only [if_pos hout, List.getElem?_set_ne hne.symm]
    · simp only [if_neg hout]
  constructor
  · intro key other hconnected
    simp only [without, lookup_erase_eq_ite] at hconnected
    by_cases heq : key = remote_peer.key
    · simp [heq] at hconnected
    · rw [if_neg heq] at hconnected
      obtain ⟨hselected, hready, peer, hat, hown⟩ := h.connected key other hconnected
      have hne : other ≠ sock := by
        intro hsame
        rw [hsame, hpeer] at hat
        exact heq (hown ▸ (Option.some.inj hat) ▸ rfl)
      refine ⟨Finset.mem_erase.mpr ⟨hne, hselected⟩, hready, peer, ?_, hown⟩
      rw [hother other hne, hat]
  · intro other hselected hready
    obtain ⟨hne, hselected⟩ := Finset.mem_erase.mp hselected
    obtain ⟨peer, hat, hconnected⟩ := h.registered other hselected hready
    refine ⟨peer, (hother other hne).trans hat, ?_⟩
    have hkeys : peer.key ≠ remote_peer.key := by
      intro hsame
      rw [hsame, hkey] at hconnected
      exact hne (Option.some.inj hconnected).symm
    simp only [without, lookup_erase_eq_ite, if_neg hkeys, hconnected]
  · intro key peer hdisconnected
    by_cases hout : remote_peer.direction = .OUTGOING
    · simp only [without, if_pos hout, lookup_insert_eq_some] at hdisconnected
      cases hdisconnected with
      | inl hself => rw [hself.1, ← hself.2, ConnectedRemotePeer.as_disconnected_key, ConnectedRemotePeer.dropped_key]
      | inr hold => exact h.disconnected key peer hold.2
    · simp only [without, if_neg hout] at hdisconnected
      exact h.disconnected key peer hdisconnected
  · intro key hconnected hdisconnected
    have hne : key ≠ remote_peer.key := by
      intro hsame
      exact Finmap.notMem_erase_self (hsame ▸ hconnected)
    have hbefore : key ∈ self.connected_peers := (Finmap.mem_erase.mp hconnected).2
    by_cases hout : remote_peer.direction = .OUTGOING
    · simp only [without, if_pos hout, Finmap.mem_insert] at hdisconnected
      cases hdisconnected with
      | inl hself => exact hne hself
      | inr hold => exact h.disjoint key hbefore hold
    · simp only [without, if_neg hout] at hdisconnected
      exact h.disjoint key hbefore hdisconnected
  · intro key peer hlookup hin
    rw [hknown] at hlookup
    by_cases heq : key = remote_peer.key
    · have hnot : remote_peer.direction ≠ .OUTGOING := by
        intro hout
        have hdirection : key.2.2 = .OUTGOING := heq ▸ hout
        rw [hdirection] at hin
        cases hin
      rw [heq, Function.update_self, if_neg hnot] at hlookup
      cases hlookup
    · rw [Function.update_of_ne heq] at hlookup
      exact h.incoming key peer hlookup hin
  · exact h.sane

theorem keep_outgoing_run (self : LocalPeer) (sock : Nat) (remote_peer : ConnectedRemotePeer) :
    keep_outgoing sock remote_peer self = (.ok (), { self with
      connections :=
        if remote_peer.direction = .OUTGOING then self.connections.set sock remote_peer.dropped else self.connections
      disconnected_peers :=
        if remote_peer.direction = .OUTGOING then
          self.disconnected_peers.insert remote_peer.key remote_peer.dropped.as_disconnected
        else self.disconnected_peers }) := by
  unfold keep_outgoing
  by_cases hout : remote_peer.direction = .OUTGOING
  · simp only [if_pos hout]
    rw [set_connection, bind_run_ok (change_run _ _), change_run, ← remote_peer.dropped_key]
    rfl
  · simp only [if_neg hout]
    rfl

theorem disconnect_run (h : Consistent pending self) (hsock : sock ∈ self.selector) (hpending : sock ∉ pending)
    (hpeer : self.connections[sock]? = some remote_peer) :
    disconnect sock self = (.ok (), self.without sock remote_peer) := by
  obtain ⟨_, hpeer', hkey⟩ := h.registered sock hsock hpending
  obtain rfl := Option.some.inj (hpeer.symm.trans hpeer')
  have hafter := (without_consistent h hsock hpending hpeer).disjoint
  have hmem : remote_peer.key ∈ self.connected_peers := Finmap.mem_of_lookup_eq_some hkey
  have hrun : (do unregister sock; handle_peer_disconnected sock : Action LocalPeer PyError Unit) self =
      (.ok (), self.without sock remote_peer) := by
    have hunregister : unregister sock self = (.ok (), { self with selector := self.selector.erase sock }) := by
      rw [unregister, bind_run_ok (read_run self), raiseIf, if_neg (not_not.mpr hsock), bind_run_ok (raw_run _ _),
        change_run]
    have hconnection : connection sock { self with selector := self.selector.erase sock } =
        (.ok remote_peer, { self with selector := self.selector.erase sock }) := connection_run hpeer
    have hsane : sanity_check { self with selector := self.selector.erase sock } =
        (.ok (), { self with selector := self.selector.erase sock }) := sanity_check_run h.disjoint
    rw [bind_run_ok hunregister, handle_peer_disconnected, bind_run_ok hconnection, bind_run_ok hsane,
      bind_run_ok (read_run _), FMap.delete, if_pos hmem, bind_run_ok (raw_run _ _), bind_run_ok (change_run _ _),
      bind_run_ok (keep_outgoing_run _ _ _)]
    exact sanity_check_run hafter
  rw [disconnect, except_Exception, hrun]

-- The code ends normally, in a consistent state, and no outgoing peer is
-- forgotten.
def Keeps (lowered : PeerKey → Prop) (pending : Finset Nat) (before : LocalPeer)
    (x : Action LocalPeer PyError Unit) : Prop :=
  ∃ after, x before = (.ok (), after) ∧ Consistent pending after ∧
    AddressBook.Advances lowered before.known after.known

theorem log_consistent (h : Consistent pending self) {error : PyError} (herror : error ≠ shouldn't_happen) :
    Consistent pending { self with logged := self.logged ++ [error] } where
  connected := h.connected
  registered := h.registered
  disconnected := h.disconnected
  disjoint := h.disjoint
  incoming := h.incoming
  sane := by
    intro hmem
    cases List.mem_append.mp hmem with
    | inl hold => exact h.sane hold
    | inr hnew => exact herror (List.mem_singleton.mp hnew).symm

theorem disconnect_keeps (h : Consistent pending self) (hpending : sock ∉ pending) :
    Keeps (fun _ => False) pending self (disconnect sock) := by
  by_cases hsock : sock ∈ self.selector
  · obtain ⟨remote_peer, hpeer, hkey⟩ := h.registered sock hsock hpending
    refine ⟨_, disconnect_run h hsock hpending hpeer, without_consistent h hsock hpending hpeer, ?_⟩
    rw [known_without h hpeer hkey]
    apply AddressBook.advances_update
    intro hout peer hbefore
    have hself : self.known remote_peer.key = some remote_peer.toRemotePeer := by
      simp [known, hkey, hpeer]
    have hdirection : remote_peer.direction = .OUTGOING := hout
    rw [← Option.some.inj (hself.symm.trans hbefore), if_pos hdirection]
    exact ⟨_, rfl, fun _ => remote_peer.ban_score_le_dropped⟩
  · refine ⟨{ self with logged := self.logged ++ [.KeyError] }, ?_, log_consistent h (by decide),
      AddressBook.advances_refl _ _⟩
    have hrun : (do unregister sock; handle_peer_disconnected sock : Action LocalPeer PyError Unit) self =
        (.error .KeyError, self) := by
      have hunregister : unregister sock self = (.error .KeyError, self) := by
        rw [unregister, bind_run_ok (read_run self), raiseIf, if_pos hsock, bind_run_error (raw_run _ _)]
      exact bind_run_error hunregister
    rw [disconnect, except_Exception, hrun]
    rfl

-- The state in which a new connection has its place.
def connecting (self : LocalPeer) (sock : Nat) (remote_peer : ConnectedRemotePeer) : LocalPeer :=
  { self with
    connected_peers := self.connected_peers.insert remote_peer.key sock
    disconnected_peers := self.disconnected_peers.erase remote_peer.key }

theorem known_connecting (hpeer : self.connections[sock]? = some remote_peer) :
    (self.connecting sock remote_peer).known =
      Function.update self.known remote_peer.key (some remote_peer.toRemotePeer) := by
  funext key
  by_cases heq : key = remote_peer.key
  · rw [heq, Function.update_self]
    simp [known, connecting, hpeer]
  · rw [Function.update_of_ne heq]
    simp only [known, connecting, lookup_insert_eq_ite, lookup_erase_eq_ite, if_neg heq]

theorem connecting_consistent (h : Consistent {sock} self) (hsock : sock ∈ self.selector)
    (hpeer : self.connections[sock]? = some remote_peer) (hfree : remote_peer.key ∉ self.connected_peers)
    (hin : remote_peer.direction = .INCOMING → remote_peer.ban_score = 0) :
    Consistent ∅ (self.connecting sock remote_peer) := by
  constructor
  · intro key other hconnected
    simp only [connecting, lookup_insert_eq_some] at hconnected
    cases hconnected with
    | inl hself => exact ⟨hself.2 ▸ hsock, Finset.notMem_empty _, remote_peer, hself.2 ▸ hpeer, hself.1.symm⟩
    | inr hold =>
        obtain ⟨hselected, _, hat⟩ := h.connected key other hold.2
        exact ⟨hselected, Finset.notMem_empty _, hat⟩
  · intro other hselected _
    by_cases heq : other = sock
    · exact ⟨remote_peer, heq ▸ hpeer, heq ▸ Finmap.lookup_insert _⟩
    · obtain ⟨peer, hat, hconnected⟩ := h.registered other hselected (by simpa using heq)
      have hne : peer.key ≠ remote_peer.key := by
        intro hsame
        exact hfree (hsame ▸ Finmap.mem_of_lookup_eq_some hconnected)
      exact ⟨peer, hat, (Finmap.lookup_insert_of_ne _ hne).trans hconnected⟩
  · intro key peer hdisconnected
    simp only [connecting, lookup_erase_eq_ite] at hdisconnected
    by_cases heq : key = remote_peer.key
    · simp [heq] at hdisconnected
    · rw [if_neg heq] at hdisconnected
      exact h.disconnected key peer hdisconnected
  · intro key hconnected hdisconnected
    obtain ⟨hne, hold⟩ := Finmap.mem_erase.mp hdisconnected
    cases Finmap.mem_insert.mp hconnected with
    | inl hself => exact hne hself
    | inr hbefore => exact h.disjoint key hbefore hold
  · intro key peer hknown hdirection
    rw [known_connecting hpeer] at hknown
    exact incoming_update hin h.incoming key peer hknown hdirection
  · exact h.sane

theorem handle_peer_connected_run {middle : LocalPeer} (hpeer : self.connections[sock]? = some remote_peer)
    (hdrop : disconnect_duplicate remote_peer.key self = (.ok (), middle)) (h : Consistent {sock} middle)
    (hsock : sock ∈ middle.selector) (hmiddle : middle.connections[sock]? = some remote_peer)
    (hfree : remote_peer.key ∉ middle.connected_peers)
    (hin : remote_peer.direction = .INCOMING → remote_peer.ban_score = 0) :
    handle_peer_connected sock self = (.ok (), middle.connecting sock remote_peer) := by
  rw [handle_peer_connected, bind_run_ok (connection_run hpeer), bind_run_ok hdrop,
    bind_run_ok (sanity_check_run h.disjoint), bind_run_ok (change_run _ _), bind_run_ok (change_run _ _)]
  exact sanity_check_run (connecting_consistent h hsock hmiddle hfree hin).disjoint

-- The new socket is pending.
def registering (self : LocalPeer) (remote_peer : ConnectedRemotePeer) : LocalPeer :=
  { self with
    connections := self.connections ++ [remote_peer]
    selector := insert self.connections.length self.selector }

theorem register_run (self : LocalPeer) (remote_peer : ConnectedRemotePeer) :
    register remote_peer self = (.ok self.connections.length, self.registering remote_peer) := by
  rw [register, bind_run_ok (read_run self), bind_run_ok (change_run _ _), pure_run]
  rfl

theorem registering_connections (hpeer : self.connections[sock]? = some remote_peer) (other : ConnectedRemotePeer) :
    (self.registering other).connections[sock]? = some remote_peer := by
  have hlt : sock < self.connections.length := (List.getElem?_eq_some_iff.mp hpeer).1
  rw [registering, List.getElem?_append_left hlt, hpeer]

theorem registering_connections_new (self : LocalPeer) (remote_peer : ConnectedRemotePeer) :
    (self.registering remote_peer).connections[self.connections.length]? = some remote_peer :=
  List.getElem?_concat_length

theorem known_registering (h : Consistent ∅ self) (remote_peer : ConnectedRemotePeer) :
    (self.registering remote_peer).known = self.known := by
  funext key
  unfold known
  cases hconnected : self.connected_peers.lookup key with
  | none => simp only [registering, hconnected]
  | some sock =>
      obtain ⟨_, _, peer, hat, _⟩ := h.connected key sock hconnected
      have hnew := registering_connections hat remote_peer
      simp only [registering] at hnew ⊢
      simp only [hconnected, hnew, hat]

theorem registering_consistent (h : Consistent ∅ self) (remote_peer : ConnectedRemotePeer) :
    Consistent {self.connections.length} (self.registering remote_peer) := by
  constructor
  · intro key sock hconnected
    obtain ⟨hselected, _, peer, hat, hown⟩ := h.connected key sock hconnected
    have hlt : sock < self.connections.length := (List.getElem?_eq_some_iff.mp hat).1
    exact ⟨Finset.mem_insert_of_mem hselected, by simp; omega, peer, registering_connections hat _, hown⟩
  · intro sock hselected hpending
    cases Finset.mem_insert.mp hselected with
    | inl hnew => exact absurd (Finset.mem_singleton.mpr hnew) hpending
    | inr hold =>
        obtain ⟨peer, hat, hconnected⟩ := h.registered sock hold (Finset.notMem_empty _)
        exact ⟨peer, registering_connections hat _, hconnected⟩
  · exact h.disconnected
  · exact h.disjoint
  · rw [known_registering h]
    exact h.incoming
  · exact h.sane

-- A connection with a key that is not connected finds its place.
theorem connect_new_run (h : Consistent ∅ self) (hfree : remote_peer.key ∉ self.connected_peers)
    (hin : remote_peer.direction = .INCOMING → remote_peer.ban_score = 0) :
    (do let sock ← register remote_peer; handle_peer_connected sock) self =
      (.ok (), (self.registering remote_peer).connecting self.connections.length remote_peer) := by
  have hdrop : disconnect_duplicate remote_peer.key (self.registering remote_peer) =
      (.ok (), self.registering remote_peer) := by
    have hnone : (self.registering remote_peer).connected_peers.lookup remote_peer.key = none :=
      Finmap.lookup_eq_none.mpr hfree
    rw [disconnect_duplicate, bind_run_ok (read_run _), hnone]
    rfl
  rw [bind_run_ok (register_run self remote_peer)]
  exact handle_peer_connected_run (registering_connections_new self remote_peer) hdrop
    (registering_consistent h remote_peer) (Finset.mem_insert_self _ _) (registering_connections_new self remote_peer)
    hfree hin

theorem connect_new_consistent (h : Consistent ∅ self) (hfree : remote_peer.key ∉ self.connected_peers)
    (hin : remote_peer.direction = .INCOMING → remote_peer.ban_score = 0) :
    Consistent ∅ ((self.registering remote_peer).connecting self.connections.length remote_peer) ∧
      ((self.registering remote_peer).connecting self.connections.length remote_peer).known =
        Function.update self.known remote_peer.key (some remote_peer.toRemotePeer) := by
  have hnew := registering_connections_new self remote_peer
  refine ⟨connecting_consistent (registering_consistent h remote_peer) (Finset.mem_insert_self _ _) hnew hfree hin, ?_⟩
  rw [known_connecting hnew, known_registering h]

-- An incoming connection with the key of another takes the other's place.
theorem connect_duplicate_run {existing : Nat} {old : ConnectedRemotePeer} (h : Consistent ∅ self)
    (hexisting : self.connected_peers.lookup remote_peer.key = some existing)
    (hold : self.connections[existing]? = some old) (hkey : old.key = remote_peer.key)
    (hin : remote_peer.direction = .INCOMING) (hban : remote_peer.ban_score = 0) :
    ∃ after, (do let sock ← register remote_peer; handle_peer_connected sock) self = (.ok (), after) ∧
      Consistent ∅ after ∧
        after.known = Function.update self.known remote_peer.key (some remote_peer.toRemotePeer) := by
  obtain ⟨hselected, _⟩ := h.connected _ existing hexisting
  have hlt : existing < self.connections.length := (List.getElem?_eq_some_iff.mp hold).1
  have hpending : existing ∉ ({self.connections.length} : Finset Nat) := by
    rw [Finset.mem_singleton]
    omega
  have hregistered := registering_consistent h remote_peer
  have hselected' : existing ∈ (self.registering remote_peer).selector := Finset.mem_insert_of_mem hselected
  have hold' := registering_connections hold remote_peer
  have hdisconnect := disconnect_run hregistered hselected' hpending hold'
  have hmiddle := without_consistent hregistered hselected' hpending hold'
  have hconnected : (self.registering remote_peer).connected_peers.lookup old.key = some existing := by
    rw [hkey]
    exact hexisting
  have hout : old.direction ≠ .OUTGOING := by
    have hsame : old.direction = remote_peer.direction := congrArg (fun key : PeerKey => key.2.2) hkey
    rw [hsame, hin]
    decide
  have hdrop : disconnect_duplicate remote_peer.key (self.registering remote_peer) =
      (.ok (), (self.registering remote_peer).without existing old) := by
    rw [disconnect_duplicate, bind_run_ok (read_run _), ← hkey, hconnected]
    exact hdisconnect
  have hsock : self.connections.length ∈ ((self.registering remote_peer).without existing old).selector := by
    refine Finset.mem_erase.mpr ⟨by omega, Finset.mem_insert_self _ _⟩
  have hnew : ((self.registering remote_peer).without existing old).connections[self.connections.length]? =
      some remote_peer := by
    simp only [without, if_neg hout]
    exact registering_connections_new self remote_peer
  have hfree : remote_peer.key ∉ ((self.registering remote_peer).without existing old).connected_peers := by
    rw [← hkey]
    exact Finmap.notMem_erase_self
  refine ⟨_, ?_, connecting_consistent hmiddle hsock hnew hfree fun _ => hban, ?_⟩
  · rw [bind_run_ok (register_run self remote_peer)]
    exact handle_peer_connected_run (registering_connections_new self remote_peer) hdrop hmiddle hsock hnew hfree
      fun _ => hban
  · rw [known_connecting hnew, known_without hregistered hold' hconnected, known_registering h, hkey,
      Function.update_idem]

theorem connect_incoming_keeps (h : Consistent ∅ self) (hin : remote_peer.direction = .INCOMING)
    (hban : remote_peer.ban_score = 0) :
    Keeps (fun _ => False) ∅ self (do let sock ← register remote_peer; handle_peer_connected sock) := by
  have hadvances : ∀ value, AddressBook.Advances (fun _ => False) self.known
      (Function.update self.known remote_peer.key value) := by
    intro value
    apply AddressBook.advances_update
    intro hout
    have hdirection : remote_peer.direction = .OUTGOING := hout
    rw [hin] at hdirection
    cases hdirection
  cases hconnected : self.connected_peers.lookup remote_peer.key with
  | none =>
      have hfree := Finmap.lookup_eq_none.mp hconnected
      obtain ⟨hconsistent, hknown⟩ := connect_new_consistent h hfree fun _ => hban
      exact ⟨_, connect_new_run h hfree fun _ => hban, hconsistent, hknown ▸ hadvances _⟩
  | some existing =>
      obtain ⟨_, _, old, hold, hkey⟩ := h.connected _ existing hconnected
      obtain ⟨after, hrun, hconsistent, hknown⟩ := connect_duplicate_run h hconnected hold hkey hin hban
      exact ⟨after, hrun, hconsistent, hknown ▸ hadvances _⟩

theorem handle_incoming_connection_keeps (h : Consistent ∅ self) (host : String) (port : Nat) :
    Keeps (fun _ => False) ∅ self (handle_incoming_connection host port) := connect_incoming_keeps h rfl rfl

-- Replacing what is kept of a disconnected peer.
theorem known_insert_disconnected {peer : DisconnectedRemotePeer} (hfree : peer.key ∉ self.connected_peers) :
    ({ self with disconnected_peers := self.disconnected_peers.insert peer.key peer } : LocalPeer).known =
      Function.update self.known peer.key (some peer.toRemotePeer) := by
  funext key
  by_cases heq : key = peer.key
  · rw [heq, Function.update_self]
    simp [known, Finmap.lookup_eq_none.mpr hfree]
  · rw [Function.update_of_ne heq]
    simp only [known, lookup_insert_eq_ite, if_neg heq]

theorem insert_disconnected_consistent (h : Consistent ∅ self) {peer : DisconnectedRemotePeer}
    (hfree : peer.key ∉ self.connected_peers) (hin : peer.direction = .INCOMING → peer.ban_score = 0) :
    Consistent ∅ { self with disconnected_peers := self.disconnected_peers.insert peer.key peer } where
  connected := h.connected
  registered := h.registered
  disconnected := by
    intro key other hother
    cases lookup_insert_eq_some.mp hother with
    | inl hself => rw [hself.1, hself.2]
    | inr hold => exact h.disconnected key other hold.2
  disjoint := by
    intro key hconnected hdisconnected
    cases Finmap.mem_insert.mp hdisconnected with
    | inl hself => exact hfree (hself ▸ hconnected)
    | inr hold => exact h.disjoint key hconnected hold
  incoming := by
    rw [known_insert_disconnected hfree]
    intro key other hknown hdirection
    by_cases heq : key = peer.key
    · rw [heq, Function.update_self] at hknown
      have hown : peer.key.2.2 = .INCOMING := heq ▸ hdirection
      rw [← Option.some.inj hknown]
      exact hin hown
    · rw [Function.update_of_ne heq] at hknown
      exact h.incoming key other hknown hdirection
  sane := h.sane

theorem start_outgoing_connection_run (h : Consistent ∅ self) {peer : DisconnectedRemotePeer}
    (hpeer : self.disconnected_peers.lookup peer.key = some peer) (hout : peer.direction = .OUTGOING) :
    ∃ after, start_outgoing_connection peer self = (.ok (), after) ∧ Consistent ∅ after ∧ after.known = self.known ∧
      ∀ key, key ≠ peer.key → after.disconnected_peers.lookup key = self.disconnected_peers.lookup key := by
  have hfree : peer.as_connected.key ∉ self.connected_peers := by
    intro hconnected
    exact h.disjoint _ hconnected (Finmap.mem_of_lookup_eq_some hpeer)
  have hnot : peer.as_connected.direction = .INCOMING → peer.as_connected.ban_score = 0 := by
    intro hin
    have hdirection : peer.direction = .INCOMING := hin
    rw [hout] at hdirection
    cases hdirection
  have hsame : Function.update self.known peer.key (some peer.toRemotePeer) = self.known := by
    apply Function.update_eq_self_iff.mpr
    have hnone : self.connected_peers.lookup peer.key = none := Finmap.lookup_eq_none.mpr hfree
    simp only [known, hnone, hpeer, Option.map_some]
  unfold start_outgoing_connection
  rw [bind_run_ok (read_run self)]
  by_cases hfull : self.max_selector_map_size ≤ self.selector_map_size
  · rw [if_pos hfull]
    exact ⟨self, rfl, h, rfl, fun _ _ => rfl⟩
  · rw [if_neg hfull]
    obtain ⟨hconsistent, hknown⟩ := connect_new_consistent h hfree hnot
    exact ⟨_, connect_new_run h hfree hnot, hconsistent, hknown.trans hsame,
      fun key hne => Finmap.lookup_erase_ne hne⟩

-- A turn of the loop leaves the other disconnected peers alone.
theorem connect_if_due_run (h : Consistent ∅ self) {peer : DisconnectedRemotePeer} (current_time : Nat)
    (hpeer : self.disconnected_peers.lookup peer.key = some peer) :
    ∃ after, connect_if_due current_time peer self = (.ok (), after) ∧ Consistent ∅ after ∧
      AddressBook.Advances (fun _ => False) self.known after.known ∧
      ∀ key, key ≠ peer.key → after.disconnected_peers.lookup key = self.disconnected_peers.lookup key := by
  unfold connect_if_due
  rw [bind_run_ok (read_run self)]
  by_cases hdue : peer.direction = .OUTGOING ∧ (peer.host, peer.port) ∉ self.my_addresses ∧
      peer.is_time_to_connect current_time = true
  · rw [if_pos hdue]
    have hmem : peer.key ∈ self.disconnected_peers := Finmap.mem_of_lookup_eq_some hpeer
    have hfree : peer.key ∉ self.connected_peers := fun hconnected => h.disjoint _ hconnected hmem
    have hself : self.known peer.key = some peer.toRemotePeer := by
      have hnone : self.connected_peers.lookup peer.key = none := Finmap.lookup_eq_none.mpr hfree
      simp only [known, hnone, hpeer, Option.map_some]
    generalize hmarked : ({ peer with last_connection_attempt := some current_time } : DisconnectedRemotePeer) = marked
    have hkey : marked.key = peer.key := by rw [← hmarked]; rfl
    have hban : marked.ban_score = peer.ban_score := by rw [← hmarked]
    have hdirection : marked.direction = .OUTGOING := by rw [← hmarked]; exact hdue.1
    have hconsistent := insert_disconnected_consistent h (hkey ▸ hfree) fun hin => by
      rw [hdirection] at hin
      cases hin
    obtain ⟨after, hrun, hafter, hknown, hothers⟩ :=
      start_outgoing_connection_run hconsistent (Finmap.lookup_insert _) hdirection
    rw [bind_run_ok (change_run _ _)]
    simp only [hkey, if_pos hmem] at hrun hothers ⊢
    refine ⟨after, hrun, hafter, ?_, ?_⟩
    · rw [hknown, known_insert_disconnected (hkey ▸ hfree)]
      apply AddressBook.advances_update
      intro _ old hold
      rw [hkey, hself] at hold
      refine ⟨_, rfl, fun _ => ?_⟩
      rw [hban, ← Option.some.inj hold]
    · intro key hne
      rw [hothers key hne]
      exact Finmap.lookup_insert_of_ne _ hne
  · rw [if_neg hdue]
    exact ⟨self, rfl, h, AddressBook.advances_refl _ _, fun _ _ => rfl⟩

theorem connect_all_due_run (current_time : Nat) {peers : List DisconnectedRemotePeer}
    (hnodup : (peers.map fun peer => peer.key).Nodup) (h : Consistent ∅ self)
    (hpeers : ∀ peer ∈ peers, self.disconnected_peers.lookup peer.key = some peer) :
    Keeps (fun _ => False) ∅ self (forEach (connect_if_due current_time) peers) := by
  induction peers generalizing self with
  | nil => exact ⟨self, rfl, h, AddressBook.advances_refl _ _⟩
  | cons peer peers ih =>
      rw [List.map_cons, List.nodup_cons] at hnodup
      obtain ⟨middle, hfirst, hmiddle, hadvances, hothers⟩ :=
        connect_if_due_run h current_time (hpeers peer List.mem_cons_self)
      have hrest : ∀ other ∈ peers, middle.disconnected_peers.lookup other.key = some other := by
        intro other hother
        have hne : other.key ≠ peer.key := by
          intro hsame
          exact hnodup.1 (hsame ▸ List.mem_map_of_mem hother)
        rw [hothers _ hne]
        exact hpeers other (List.mem_cons_of_mem _ hother)
      obtain ⟨after, hrun, hafter, hadvances'⟩ := ih hnodup.2 hmiddle hrest
      refine ⟨after, ?_, hafter, hadvances.trans hadvances'⟩
      rw [forEach, bind_run_ok hfirst, hrun]

theorem step_keeps (h : Consistent ∅ self) (current_time : Nat) (listing : Listing) :
    Keeps (fun _ => False) ∅ self (step current_time listing) := by
  have hvalues : ∀ peer ∈ listing.values self.disconnected_peers,
      self.disconnected_peers.lookup peer.key = some peer := by
    intro peer hpeer
    obtain ⟨key, _, hlookup⟩ := List.mem_filterMap.mp hpeer
    rw [h.disconnected key peer hlookup]
    exact hlookup
  have hkeys : ((listing.values self.disconnected_peers).map fun peer => peer.key).Nodup := by
    apply List.Nodup.map_on
    · intro peer hpeer other hother hsame
      have hlookup := hvalues peer hpeer
      rw [hsame, hvalues other hother] at hlookup
      exact (Option.some.inj hlookup).symm
    · apply List.Nodup.filterMap _ listing.nodup
      intro key key' peer hpeer hpeer'
      rw [← h.disconnected key peer hpeer, h.disconnected key' peer hpeer']
  obtain ⟨after, hrun, hafter⟩ := connect_all_due_run current_time hkeys h hvalues
  refine ⟨after, ?_, hafter⟩
  rw [step, bind_run_ok (sanity_check_run h.disjoint), bind_run_ok (read_run self), hrun]

theorem add_announced_peer_keeps (h : Consistent ∅ self) (host : String) (port : Nat) :
    Keeps (fun _ => False) ∅ self (add_announced_peer host port) := by
  unfold add_announced_peer
  simp only []
  rw [Keeps, bind_run_ok (sanity_check_run h.disjoint), bind_run_ok (change_run _ _)]
  by_cases hknown : (host, port, .OUTGOING) ∈ self.disconnected_peers ∨ (host, port, .OUTGOING) ∈ self.connected_peers
  · rw [if_pos hknown]
    exact ⟨self, sanity_check_run h.disjoint, h, AddressBook.advances_refl _ _⟩
  · rw [if_neg hknown]
    obtain ⟨hdisconnected, hconnected⟩ := not_or.mp hknown
    generalize hannounced : (⟨⟨host, port, .OUTGOING, none, 0⟩⟩ : DisconnectedRemotePeer) = announced
    have hkey : (host, port, .OUTGOING) = announced.key := by rw [← hannounced]; rfl
    rw [hkey] at hdisconnected hconnected ⊢
    have hconsistent := insert_disconnected_consistent h hconnected fun hin => by
      rw [← hannounced] at hin
      cases hin
    refine ⟨_, sanity_check_run hconsistent.disjoint, hconsistent, ?_⟩
    rw [known_insert_disconnected hconnected]
    apply AddressBook.advances_update
    intro _ peer hpeer
    simp [known, Finmap.lookup_eq_none.mpr hconnected, Finmap.lookup_eq_none.mpr hdisconnected] at hpeer

theorem Keeps.trans {lowered : PeerKey → Prop} {middle : LocalPeer} {x y : Action LocalPeer PyError Unit}
    (hx : x self = (.ok (), middle)) (hadvances : AddressBook.Advances lowered self.known middle.known)
    (hy : Keeps lowered pending middle y) : Keeps lowered pending self (do x; y) := by
  obtain ⟨after, hrun, hafter, hadvances'⟩ := hy
  exact ⟨after, by rw [bind_run_ok hx, hrun], hafter, hadvances.trans hadvances'⟩

theorem Keeps.forEach {α : Type} {lowered : PeerKey → Prop} {body : α → Action LocalPeer PyError Unit}
    (hbody : ∀ x self, Consistent pending self → Keeps lowered pending self (body x)) (h : Consistent pending self)
    (xs : List α) : Keeps lowered pending self (forEach body xs) := by
  induction xs generalizing self with
  | nil => exact ⟨self, rfl, h, AddressBook.advances_refl _ _⟩
  | cons x xs ih =>
      obtain ⟨middle, hrun, hmiddle, hadvances⟩ := hbody x self h
      exact Keeps.trans hrun hadvances (ih hmiddle)

theorem handle_peers_message_keeps (h : Consistent ∅ self) (message : PeersMessage) :
    Keeps (fun _ => False) ∅ self (handle_peers_message_received message) := by
  unfold handle_peers_message_received
  refine Keeps.forEach (fun peer self h => ?_) h message.peers
  cases peer.ip_address.ipv4_mapped with
  | none => exact ⟨self, rfl, h, AddressBook.advances_refl _ _⟩
  | some ipv4_mapped => exact add_announced_peer_keeps h _ _

-- A socket that the selector does not have is in no dictionary.
theorem known_set_connection (h : Consistent ∅ self) {old : ConnectedRemotePeer}
    (hold : self.connections[sock]? = some old) (hkey : remote_peer.key = old.key) :
    ({ self with connections := self.connections.set sock remote_peer } : LocalPeer).known =
      if sock ∈ self.selector then Function.update self.known remote_peer.key (some remote_peer.toRemotePeer)
      else self.known := by
  have hlt : sock < self.connections.length := (List.getElem?_eq_some_iff.mp hold).1
  have hothers : ∀ key, key ≠ remote_peer.key ∨ sock ∉ self.selector →
      ({ self with connections := self.connections.set sock remote_peer } : LocalPeer).known key = self.known key := by
    intro key hcase
    simp only [known]
    cases hconnected : self.connected_peers.lookup key with
    | none => rfl
    | some other =>
        obtain ⟨hselected, _, peer, hat, hown⟩ := h.connected key other hconnected
        have hne : sock ≠ other := by
          intro hsame
          subst hsame
          rw [hold] at hat
          cases hcase with
          | inl hne => exact hne (hown ▸ (Option.some.inj hat) ▸ hkey.symm)
          | inr hnot => exact hnot hselected
        simp only [List.getElem?_set_ne hne]
  by_cases hsock : sock ∈ self.selector
  · rw [if_pos hsock]
    obtain ⟨peer, hat, hconnected⟩ := h.registered sock hsock (Finset.notMem_empty _)
    obtain rfl := Option.some.inj (hold.symm.trans hat)
    rw [← hkey] at hconnected
    funext key
    by_cases heq : key = remote_peer.key
    · rw [heq, Function.update_self]
      simp only [known, hconnected, List.getElem?_set_self hlt, Option.map_some]
    · rw [Function.update_of_ne heq]
      exact hothers key (.inl heq)
  · rw [if_neg hsock]
    funext key
    exact hothers key (.inr hsock)

theorem set_connection_consistent (h : Consistent ∅ self) {old : ConnectedRemotePeer}
    (hold : self.connections[sock]? = some old) (hkey : remote_peer.key = old.key)
    (hin : remote_peer.direction = .INCOMING → remote_peer.ban_score = 0) :
    Consistent ∅ { self with connections := self.connections.set sock remote_peer } := by
  have hlt : sock < self.connections.length := (List.getElem?_eq_some_iff.mp hold).1
  have hat : ∀ (other : Nat) (peer : ConnectedRemotePeer), self.connections[other]? = some peer →
      ∃ peer' : ConnectedRemotePeer,
        (self.connections.set sock remote_peer)[other]? = some peer' ∧ peer'.key = peer.key := by
    intro other peer hpeer
    by_cases heq : sock = other
    · subst heq
      rw [hold] at hpeer
      exact ⟨remote_peer, List.getElem?_set_self hlt, Option.some.inj hpeer ▸ hkey⟩
    · exact ⟨peer, (List.getElem?_set_ne heq).trans hpeer, rfl⟩
  constructor
  · intro key other hconnected
    obtain ⟨hselected, hready, peer, hpeer, hown⟩ := h.connected key other hconnected
    obtain ⟨peer', hpeer', hsame⟩ := hat other peer hpeer
    exact ⟨hselected, hready, peer', hpeer', hsame.trans hown⟩
  · intro other hselected hready
    obtain ⟨peer, hpeer, hconnected⟩ := h.registered other hselected hready
    obtain ⟨peer', hpeer', hsame⟩ := hat other peer hpeer
    exact ⟨peer', hpeer', by rw [hsame]; exact hconnected⟩
  · exact h.disconnected
  · exact h.disjoint
  · rw [known_set_connection h hold hkey]
    intro key peer hknown hdirection
    by_cases hsock : sock ∈ self.selector
    · rw [if_pos hsock] at hknown
      exact incoming_update hin h.incoming key peer hknown hdirection
    · rw [if_neg hsock] at hknown
      exact h.incoming key peer hknown hdirection
  · exact h.sane

-- The code may raise, but not for the sanity check.
def Survives (lowered : PeerKey → Prop) (before : LocalPeer) (x : Action LocalPeer PyError Unit) : Prop :=
  (x before).1 ≠ .error shouldn't_happen ∧ Consistent ∅ (x before).2 ∧
    AddressBook.Advances lowered before.known (x before).2.known

theorem Keeps.survives {lowered : PeerKey → Prop} {x : Action LocalPeer PyError Unit} (h : Keeps lowered ∅ self x) :
    Survives lowered self x := by
  obtain ⟨after, hrun, hafter, hadvances⟩ := h
  rw [Survives, hrun]
  exact ⟨by simp, hafter, hadvances⟩

theorem Keeps.mono {lowered lowered' : PeerKey → Prop} {x : Action LocalPeer PyError Unit}
    (h : Keeps lowered pending self x) (himp : ∀ key, lowered key → lowered' key) : Keeps lowered' pending self x := by
  obtain ⟨after, hrun, hafter, hadvances⟩ := h
  exact ⟨after, hrun, hafter, hadvances.mono himp⟩

theorem Survives.bind {lowered : PeerKey → Prop} {middle : LocalPeer} {x y : Action LocalPeer PyError Unit}
    (hx : x self = (.ok (), middle)) (hadvances : AddressBook.Advances lowered self.known middle.known)
    (hy : Survives lowered middle y) : Survives lowered self (do x; y) := by
  rw [Survives, bind_run_ok hx]
  exact ⟨hy.1, hy.2.1, hadvances.trans hy.2.2⟩

theorem rest_of_handler_run (self : LocalPeer) (raises : Bool) :
    rest_of_handler raises self = (.ok (), self) ∨ ∃ error, error ≠ shouldn't_happen ∧
      rest_of_handler raises self = (.error error, self) := by
  cases raises with
  | false => exact .inl rfl
  | true => exact .inr ⟨.Exception "not about peers", by decide, rfl⟩

theorem handle_hello_message_survives (h : Consistent ∅ self) (hpeer : self.connections[sock]? = some remote_peer)
    (message : HelloMessage) (raises : Bool) :
    Survives (fun key => key = remote_peer.key) self (handle_hello_message_received sock message raises) := by
  generalize hgreeted :
    ({ remote_peer with hello_received := true, ban_score := 0 } : ConnectedRemotePeer) = greeted
  have hkey : greeted.key = remote_peer.key := by rw [← hgreeted]; rfl
  have hban : greeted.ban_score = 0 := by rw [← hgreeted]
  have hset : set_connection sock greeted self =
      (.ok (), { self with connections := self.connections.set sock greeted }) := change_run _ _
  have hconsistent := set_connection_consistent h hpeer hkey fun _ => hban
  have hadvances : AddressBook.Advances (fun key => key = remote_peer.key) self.known
      ({ self with connections := self.connections.set sock greeted } : LocalPeer).known := by
    rw [known_set_connection h hpeer hkey]
    by_cases hsock : sock ∈ self.selector
    · rw [if_pos hsock]
      apply AddressBook.advances_update
      intro _ old _
      exact ⟨_, rfl, fun hnot => absurd hkey hnot⟩
    · rw [if_neg hsock]
      exact AddressBook.advances_refl _ _
  generalize hmiddle : ({ self with connections := self.connections.set sock greeted } : LocalPeer) = middle
    at hset hconsistent hadvances
  unfold handle_hello_message_received
  rw [Survives, bind_run_ok (connection_run hpeer), hgreeted]
  refine Survives.bind hset hadvances ?_
  cases remote_peer.direction with
  | INCOMING => exact ((add_announced_peer_keeps hconsistent _ _).mono fun _ => False.elim).survives
  | OUTGOING =>
      simp only []
      cases rest_of_handler_run middle raises with
      | inr hraise =>
          obtain ⟨error, herror, hrun⟩ := hraise
          rw [Survives, bind_run_error hrun]
          exact ⟨fun heq => herror (Except.error.inj heq), hconsistent, AddressBook.advances_refl _ _⟩
      | inl hrun =>
          refine Survives.bind hrun (AddressBook.advances_refl _ _) ?_
          rw [Survives, bind_run_ok (read_run middle)]
          by_cases hnonce : message.nonce = middle.nonce
          · rw [if_pos hnonce]
            have hself : Consistent ∅ { middle with
                my_addresses := insert (remote_peer.host, remote_peer.port) middle.my_addresses } := {
              connected := hconsistent.connected
              registered := hconsistent.registered
              disconnected := hconsistent.disconnected
              disjoint := hconsistent.disjoint
              incoming := hconsistent.incoming
              sane := hconsistent.sane }
            have hkeeps := disconnect_keeps hself (Finset.notMem_empty sock)
            exact Survives.bind (change_run _ _) (AddressBook.advances_refl _ _)
              (hkeeps.mono fun _ => False.elim).survives
          · rw [if_neg hnonce]
            exact ⟨by simp, hconsistent, AddressBook.advances_refl _ _⟩

-- The connections on which a Hello may lower a ban score.
def greets (self : LocalPeer) (sock : Nat) (message : Message) (key : PeerKey) : Prop :=
  match message with
  | .Hello _ => ∃ remote_peer, self.connections[sock]? = some remote_peer ∧ remote_peer.key = key
  | _ => False

-- A handler raises where there has been no such connection.
theorem no_connection_survives {lowered : PeerKey → Prop} (h : Consistent ∅ self)
    (hnone : self.connections[sock]? = none) (x : ConnectedRemotePeer → Action LocalPeer PyError Unit) :
    Survives lowered self (do
      let remote_peer ← connection sock
      x remote_peer) := by
  have hrun : connection sock self = (.error .IndexError, self) := by
    rw [connection, bind_run_ok (read_run self), hnone, raw_run]
  rw [Survives, bind_run_error hrun]
  exact ⟨by simp [shouldn't_happen], h, AddressBook.advances_refl _ _⟩

-- The other messages are only handled after a Hello.
theorem after_hello_survives {lowered : PeerKey → Prop} {x : Action LocalPeer PyError Unit} (h : Consistent ∅ self)
    (hx : Survives lowered self x) :
    Survives lowered self (do
      let remote_peer ← connection sock
      raw (raiseIf (remote_peer.hello_received = false) (.Exception "First message must be Hello"))
      x) := by
  cases hpeer : self.connections[sock]? with
  | none => exact no_connection_survives h hpeer _
  | some remote_peer =>
      rw [Survives, bind_run_ok (connection_run hpeer), raiseIf]
      by_cases hhello : remote_peer.hello_received = false
      · rw [if_pos hhello, bind_run_error (raw_run _ _)]
        exact ⟨by simp [shouldn't_happen], h, AddressBook.advances_refl _ _⟩
      · rw [if_neg hhello, bind_run_ok (raw_run _ _)]
        exact hx

theorem rest_of_handler_survives {lowered : PeerKey → Prop} (h : Consistent ∅ self) (raises : Bool) :
    Survives lowered self (rest_of_handler raises) := by
  cases rest_of_handler_run self raises with
  | inl hrun =>
      rw [Survives, hrun]
      exact ⟨by simp, h, AddressBook.advances_refl _ _⟩
  | inr hraise =>
      obtain ⟨error, herror, hrun⟩ := hraise
      rw [Survives, hrun]
      exact ⟨fun heq => herror (Except.error.inj heq), h, AddressBook.advances_refl _ _⟩

theorem handle_message_survives (h : Consistent ∅ self) (sock : Nat) (message : Message) (raises : Bool) :
    Survives (self.greets sock message) self (handle_message_received sock message raises) := by
  cases message with
  | Hello message =>
      cases hpeer : self.connections[sock]? with
      | none => exact no_connection_survives h hpeer _
      | some remote_peer =>
          obtain ⟨hraise, hafter, hadvances⟩ := handle_hello_message_survives h hpeer message raises
          exact ⟨hraise, hafter, hadvances.mono fun key hkey => ⟨remote_peer, hpeer, hkey.symm⟩⟩
  | Peers message =>
      exact after_hello_survives h ((handle_peers_message_keeps h message).mono fun _ => False.elim).survives
  | GetBlocks _ => exact after_hello_survives h (rest_of_handler_survives h raises)
  | Inventory _ => exact after_hello_survives h (rest_of_handler_survives h raises)
  | GetData _ => exact after_hello_survives h (rest_of_handler_survives h raises)
  | Data _ => exact after_hello_survives h (rest_of_handler_survives h raises)
  | GetPeers => exact after_hello_survives h (rest_of_handler_survives h raises)

-- What the handler raises is caught, and the connection ends.
theorem except_Exception_keeps {lowered : PeerKey → Prop} {x : Action LocalPeer PyError Unit}
    (hx : Survives lowered self x) (sock : Nat) :
    Keeps lowered ∅ self (except_Exception x fun error => do log error; disconnect sock) := by
  obtain ⟨hraise, hafter, hadvances⟩ := hx
  cases hrun : x self with
  | mk result middle =>
      rw [hrun] at hraise hafter hadvances
      cases result with
      | ok u => exact ⟨middle, by rw [except_Exception, hrun], hafter, hadvances⟩
      | error error =>
          have hlogged : Consistent ∅ { middle with logged := middle.logged ++ [error] } :=
            log_consistent hafter fun heq => hraise (congrArg Except.error heq)
          obtain ⟨after, hend, hconsistent, hadvances'⟩ := disconnect_keeps hlogged (Finset.notMem_empty sock)
          refine ⟨after, ?_, hconsistent, hadvances.trans (hadvances'.mono fun _ => False.elim)⟩
          rw [except_Exception, hrun]
          exact hend

def Event.greets (self : LocalPeer) (key : PeerKey) : Event → Prop
  | .message_received sock message _ => self.greets sock message key
  | _ => False

-- The step lemma: what an event keeps.
theorem Event.keeps (h : Consistent ∅ self) (event : Event) :
    Keeps (fun key => event.greets self key) ∅ self event.action := by
  cases event with
  | step current_time listing => exact step_keeps h current_time listing
  | incoming_connection host port => exact handle_incoming_connection_keeps h host port
  | message_received sock message raises =>
      exact except_Exception_keeps (handle_message_survives h sock message raises) sock
  | connection_closed sock => exact disconnect_keeps h (Finset.notMem_empty sock)

-- A Hello comes in on a connection with the key.
def Greeted (key : PeerKey) : List Event → LocalPeer → Prop
  | [], _ => False
  | event :: events, self => event.greets self key ∨ Greeted key events (event.action self).2

theorem run_keeps (h : Consistent ∅ self) (events : List Event) :
    Consistent ∅ (run events self) ∧
      AddressBook.Advances (fun key => Greeted key events self) self.known (run events self).known := by
  induction events generalizing self with
  | nil => exact ⟨h, AddressBook.advances_refl _ _⟩
  | cons event events ih =>
      obtain ⟨middle, hrun, hmiddle, hadvances⟩ := Event.keeps h event
      obtain ⟨hafter, hadvances'⟩ := ih hmiddle
      have hsplit : run (event :: events) self = run events middle := by
        rw [run, List.map_cons, calls, List.foldl_cons, hrun]
        rfl
      rw [hsplit]
      refine ⟨hafter, (hadvances.mono fun key => .inl).trans (hadvances'.mono fun key hkey => .inr ?_)⟩
      rw [hrun]
      exact hkey

theorem load_peers_own_key (lst : List PeerKey) {peer : DisconnectedRemotePeer}
    (h : (load_peers_from_list lst).lookup key = some peer) : peer.key = key ∧ peer.ban_score = 0 := by
  have hgeneral : ∀ (lst : List PeerKey) (peers : Map PeerKey DisconnectedRemotePeer),
      (∀ key peer, peers.lookup key = some peer → peer.key = key ∧ peer.ban_score = 0) →
      ∀ key peer, (lst.foldl (fun peers key => peers.insert key ⟨⟨key.1, key.2.1, key.2.2, none, 0⟩⟩) peers).lookup
        key = some peer → peer.key = key ∧ peer.ban_score = 0 := by
    intro lst
    induction lst with
    | nil => exact fun peers hpeers => hpeers
    | cons first lst ih =>
        intro peers hpeers
        apply ih
        intro key peer hlookup
        cases lookup_insert_eq_some.mp hlookup with
        | inl hself => rw [hself.1, ← hself.2]; exact ⟨rfl, rfl⟩
        | inr hold => exact hpeers key peer hold.2
  exact hgeneral lst ∅ (fun key peer hnone => by rw [Finmap.lookup_empty] at hnone; cases hnone) key peer h

theorem loaded_consistent (lst : List PeerKey) (nonce max_selector_map_size : Nat) (listening : Bool) :
    Consistent ∅ (loaded lst nonce max_selector_map_size listening) where
  connected := fun _ _ hnone => by simp [loaded] at hnone
  registered := fun _ hnone => absurd hnone (Finset.notMem_empty _)
  disconnected := fun _ _ hlookup => (load_peers_own_key lst hlookup).1
  disjoint := fun _ hnone => absurd hnone (Finmap.notMem_empty)
  incoming := by
    intro key peer hknown _
    simp only [known, loaded, Finmap.lookup_empty, Option.map_eq_some_iff] at hknown
    obtain ⟨disconnected, hlookup, hpeer⟩ := hknown
    rw [← hpeer]
    exact (load_peers_own_key lst hlookup).2
  sane := List.not_mem_nil

theorem known_eq_some (h : Consistent ∅ self) :
    (∃ peer, self.known key = some peer) ↔ key ∈ self.connected_peers ∨ key ∈ self.disconnected_peers := by
  unfold known
  cases hconnected : self.connected_peers.lookup key with
  | some sock =>
      obtain ⟨_, _, peer, hat, _⟩ := h.connected key sock hconnected
      simp [hat, Finmap.mem_of_lookup_eq_some hconnected]
  | none =>
      simp only [Option.map_eq_some_iff, Finmap.mem_iff, hconnected, reduceCtorEq, exists_false,
        false_or]
      constructor
      · intro hpeer
        obtain ⟨_, peer, hpeer, _⟩ := hpeer
        exact ⟨peer, hpeer⟩
      · intro hpeer
        obtain ⟨peer, hpeer⟩ := hpeer
        exact ⟨_, peer, hpeer, rfl⟩

-- Every entry is stored under its own key.
def OwnKeys (self : LocalPeer) : Prop :=
  (∀ key sock, self.connected_peers.lookup key = some sock →
    ∃ peer, self.connections[sock]? = some peer ∧ peer.key = key) ∧
  ∀ key peer, self.disconnected_peers.lookup key = some peer → peer.key = key

-- From what was loaded, whatever happens: between any two moments no outgoing
-- peer is forgotten, and no ban score is lowered without a Hello.
theorem peer_bookkeeping (lst : List PeerKey) (nonce max_selector_map_size : Nat) (listening : Bool)
    (earlier later : List Event) :
    let before := run earlier (loaded lst nonce max_selector_map_size listening)
    let after := run later before
    OwnKeys after ∧
    (∀ key ∈ after.connected_peers, key ∉ after.disconnected_peers) ∧
    sanity_check after = (.ok (), after) ∧
    shouldn't_happen ∉ after.logged ∧
    (∀ event : Event, (event.action after).1 = .ok ()) ∧
    (∀ key : PeerKey, key.2.2 = .OUTGOING → key ∈ before.connected_peers ∨ key ∈ before.disconnected_peers →
      Xor (key ∈ after.connected_peers) (key ∈ after.disconnected_peers)) ∧
    ∀ key peer peer', before.known key = some peer → after.known key = some peer' → ¬Greeted key later before →
      peer.ban_score ≤ peer'.ban_score := by
  intro before after
  have hbefore : Consistent ∅ before := (run_keeps (loaded_consistent lst nonce _ listening) earlier).1
  obtain ⟨hafter, hadvances⟩ : Consistent ∅ after ∧ AddressBook.Advances _ before.known after.known :=
    run_keeps hbefore later
  refine ⟨⟨?_, hafter.disconnected⟩, hafter.disjoint, sanity_check_run hafter.disjoint, hafter.sane, ?_, ?_, ?_⟩
  · intro key sock hconnected
    exact (hafter.connected key sock hconnected).2.2
  · intro event
    obtain ⟨_, hrun, _⟩ := Event.keeps hafter event
    rw [hrun]
  · intro key hout hknown
    obtain ⟨peer, hpeer⟩ := (known_eq_some hbefore).mpr hknown
    obtain ⟨peer', hpeer', _⟩ := hadvances key peer hout hpeer
    cases (known_eq_some hafter).mp ⟨peer', hpeer'⟩ with
    | inl hconnected => exact .inl ⟨hconnected, hafter.disjoint key hconnected⟩
    | inr hdisconnected => exact .inr ⟨hdisconnected, fun hconnected => hafter.disjoint key hconnected hdisconnected⟩
  · intro key peer peer' hpeer hpeer' hnot
    cases hdirection : key.2.2 with
    | INCOMING =>
        rw [hbefore.incoming key peer hpeer hdirection]
        exact Nat.zero_le _
    | OUTGOING =>
        obtain ⟨kept, hkept, hle⟩ := hadvances key peer hdirection hpeer
        rw [← Option.some.inj (hkept.symm.trans hpeer')]
        exact hle hnot

end LocalPeer

end Skepticoin
