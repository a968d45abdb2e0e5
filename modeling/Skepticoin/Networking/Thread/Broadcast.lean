import Skepticoin.Networking.Node.Announcement
import Skepticoin.Networking.Thread.Invariants

namespace Skepticoin

open Guard FMap Effect

namespace NetworkingThread

variable {crypto : Crypto} {self : NetworkingThread} {moment : Moment} {sock : Nat} {header : MessageHeader}

-- What a broadcast sends.
section Sending

def broadcasting (self : NetworkingThread) (moment : Moment) (message : DataMessage) : NetworkingThread :=
  (self.get_active_peers moment.connected_order).foldl (fun self sock => self.sending moment sock (.Data message) none)
    self

theorem broadcast_message_run (self : NetworkingThread) (moment : Moment) (message : DataMessage) :
    broadcast_message moment message self = (.ok (), self.broadcasting moment message) := by
  rw [broadcast_message, bind_run_ok (read_run self)]
  exact forEach_run_ok (fun thread sock => sending thread moment sock (.Data message) none)
    fun _ sock _ _ => catching_run_ok (send_message_run _ moment sock _ none)

def broadcasting_all (self : NetworkingThread) (moment : Moment) (blocks : List Block) : NetworkingThread :=
  blocks.foldl (fun self block => self.broadcasting moment ⟨DATA_BLOCK, .Block block⟩) self

@[simp] theorem broadcasting_all_nil (self : NetworkingThread) (moment : Moment) :
    self.broadcasting_all moment [] = self := rfl

theorem broadcast_all_run (self : NetworkingThread) (moment : Moment) (blocks : List Block) :
    forEach (fun block => broadcast_message moment ⟨DATA_BLOCK, .Block block⟩) blocks self =
      (.ok (), self.broadcasting_all moment blocks) :=
  forEach_run_ok (fun thread block => broadcasting thread moment ⟨DATA_BLOCK, .Block block⟩)
    fun _ _ _ _ => broadcast_message_run _ moment _

-- The peers, and to whom hello has been said.
structure SamePeers (before after : NetworkingThread) : Prop where
  local_peer : after.local_peer = before.local_peer
  hello_sent : ∀ sock, (after.conversations sock).hello_sent = (before.conversations sock).hello_sent

-- Sending leaves most of the thread alone.
structure Beside (before after : NetworkingThread) : Prop extends SamePeers before after where
  node : after.node = before.node
  fetching : after.fetching = before.fetching

theorem SamePeers.trans {first second third : NetworkingThread} (h : SamePeers first second)
    (h' : SamePeers second third) : SamePeers first third :=
  ⟨h'.local_peer.trans h.local_peer, fun sock => (h'.hello_sent sock).trans (h.hello_sent sock)⟩

theorem Beside.trans {first second third : NetworkingThread} (h : Beside first second) (h' : Beside second third) :
    Beside first third :=
  ⟨h.toSamePeers.trans h'.toSamePeers, h'.node.trans h.node, h'.fetching.trans h.fetching⟩

theorem Beside.refl (self : NetworkingThread) : Beside self self := ⟨⟨rfl, fun _ => rfl⟩, rfl, rfl⟩

theorem beside_sending (self : NetworkingThread) (moment : Moment) (sock : Nat) (message : Message)
    (prev_header : Option MessageHeader) : Beside self (self.sending moment sock message prev_header) :=
  ⟨⟨rfl, fun other => hello_sent_sending self moment sock message prev_header other⟩, rfl, rfl⟩

theorem beside_broadcasting (self : NetworkingThread) (moment : Moment) (message : DataMessage) :
    Beside self (self.broadcasting moment message) := by
  rw [broadcasting]
  generalize self.get_active_peers moment.connected_order = active
  induction active generalizing self with
  | nil => exact .refl self
  | cons sock active ih => exact (beside_sending self moment sock (.Data message) none).trans (ih _)

theorem beside_broadcasting_all (self : NetworkingThread) (moment : Moment) (blocks : List Block) :
    Beside self (self.broadcasting_all moment blocks) := by
  induction blocks generalizing self with
  | nil => exact .refl self
  | cons block blocks ih => exact (beside_broadcasting self moment ⟨DATA_BLOCK, .Block block⟩).trans (ih _)

end Sending

-- A connection is in the dictionary once.
theorem active_nodup (hconsistent : LocalPeer.Consistent ∅ self.local_peer) (order : DictOrder Nat) :
    (self.get_active_peers order).Nodup := by
  refine List.Nodup.filter _ (List.Nodup.filterMap ?_ (order.nodup _))
  intro key other sock hkey hother
  obtain ⟨_, _, peer, hpeer, hown⟩ := hconsistent.connected key sock hkey
  obtain ⟨_, _, peer', hpeer', hown'⟩ := hconsistent.connected other sock hother
  rw [hpeer] at hpeer'
  rw [← hown, ← hown', Option.some.inj hpeer']

-- The blocks that a peer has been sent without having asked.
def unasked (self : NetworkingThread) (sock : Nat) : List Block :=
  self.sent.filterMap fun entry =>
    if entry.1 = sock ∧ entry.2.1.in_response_to = 0 then entry.2.2.block else none

section Unasked

theorem unasked_sending (self : NetworkingThread) (moment : Moment) (sock : Nat) (message : Message)
    (prev_header : Option MessageHeader) (other : Nat) :
    (self.sending moment sock message prev_header).unasked other = self.unasked other ++
      if sock = other ∧ prev_header.all (fun header => header.id = 0) then message.block.toList else [] := by
  rw [unasked, sending, List.filterMap_append, unasked]
  congr 1
  cases prev_header with
  | none =>
      by_cases heq : sock = other
      · cases hblock : message.block with
        | none => simp [heq, response_header, hblock]
        | some block => simp [heq, response_header, hblock]
      · simp [heq]
  | some header =>
      by_cases hboth : sock = other ∧ header.id = 0
      · cases hblock : message.block with
        | none => simp [hboth, response_header, hblock]
        | some block => simp [hboth, response_header, hblock]
      · simp only [Option.all_some, decide_eq_true_eq, response_header, if_neg hboth, List.filterMap_cons,
          List.filterMap_nil]

theorem unasked_silent (self : NetworkingThread) (moment : Moment) (sock other : Nat) {message : Message}
    {prev_header : Option MessageHeader} (hnone : message.block = none) :
    (self.sending moment sock message prev_header).unasked other = self.unasked other := by
  rw [unasked_sending]
  simp [hnone]

-- An answer names the message that it answers.
theorem unasked_answer (self : NetworkingThread) (moment : Moment) {sock other : Nat} (header : MessageHeader)
    (block : Block) (hid : sock = other → header.id ≠ 0) :
    (self.sending moment sock (.Data ⟨DATA_BLOCK, .Block block⟩) (some header)).unasked other =
      self.unasked other := by
  rw [unasked_sending, if_neg, List.append_nil]
  rintro ⟨heq, hzero⟩
  exact hid heq (of_decide_eq_true hzero)

-- A block goes to each of the active peers, and a transaction is not a block.
theorem unasked_broadcasting (hactive : (self.get_active_peers moment.connected_order).Nodup) (message : DataMessage)
    (other : Nat) : (self.broadcasting moment message).unasked other = self.unasked other ++
      if other ∈ self.get_active_peers moment.connected_order then (Message.Data message).block.toList else [] := by
  rw [broadcasting]
  generalize self.get_active_peers moment.connected_order = active at hactive
  induction active generalizing self with
  | nil => simp
  | cons sock active ih =>
      obtain ⟨hfirst, hrest⟩ := List.nodup_cons.mp hactive
      rw [List.foldl_cons, ih hrest, unasked_sending, List.append_assoc]
      congr 1
      by_cases heq : sock = other
      · subst heq
        simp [hfirst]
      · simp [heq, Ne.symm heq]

theorem unasked_broadcasting_all (hconsistent : LocalPeer.Consistent ∅ self.local_peer) (blocks : List Block)
    (other : Nat) : ((self.broadcasting_all moment blocks).unasked other).Sublist (self.unasked other ++ blocks) := by
  induction blocks generalizing self with
  | nil => exact List.sublist_append_left _ _
  | cons block blocks ih =>
      have hbeside := beside_broadcasting self moment ⟨DATA_BLOCK, .Block block⟩
      have hafter : LocalPeer.Consistent ∅
          (self.broadcasting moment ⟨DATA_BLOCK, .Block block⟩).local_peer := hbeside.local_peer ▸ hconsistent
      have hnext := ih hafter
      refine List.Sublist.trans hnext ?_
      rw [unasked_broadcasting (active_nodup hconsistent _), List.append_assoc]
      refine List.Sublist.append (List.Sublist.refl _) ?_
      split_ifs
      · exact List.Sublist.refl _
      · exact List.sublist_cons_self _ _

end Unasked

-- What a peer is sent without having asked is what the node tells to others.
structure Relaying (sock : Nat) (thread : NetworkingThread) : Prop where
  unasked : (thread.unasked sock).Sublist thread.node.broadcast
  consistent : LocalPeer.Consistent ∅ thread.local_peer

section Relaying

theorem on_local_peer_relaying {α : Type} {x : Action LocalPeer PyError α} (hx : LocalPeer.Decent x) :
    Spec (Relaying sock) (on_local_peer x) fun _ => Relaying sock :=
  fun self h => ⟨h.unasked, (hx self.local_peer h.consistent).1⟩

theorem handle_block_received_relaying (moment : Moment) (other : Nat) (header : MessageHeader) (block : Block) :
    Spec (Relaying sock) (handle_block_received crypto moment other header block) fun _ => Relaying sock := by
  refine Spec.read fun before => Spec.raw_bind (fun block_hash _ => ?_) fun _ _ _ h => h.1
  refine Spec.change_bind (fun thread => Relaying sock thread ∧ thread.node = before.node) ?_ ?_
  · rintro thread ⟨h, rfl⟩
    exact ⟨⟨h.unasked, h.consistent⟩, rfl⟩
  rintro self ⟨h, hbefore⟩
  rw [← hbefore]
  have hgrows : ∃ extra,
      (Node.handle_block_received crypto ⟨moment.current_time, header, block⟩ self.node).2.broadcast =
      self.node.broadcast ++ extra := Node.broadcast_grows _ _
  obtain ⟨extra, hextra⟩ := hgrows
  cases hnode : Node.handle_block_received crypto ⟨moment.current_time, header, block⟩ self.node with
  | mk result node =>
      rw [hnode] at hextra
      have hrun : on_node (Node.handle_block_received crypto ⟨moment.current_time, header, block⟩) self =
          (result, { self with node }) := by
        rw [on_node, within, hnode]
      have hafter : Relaying sock { self with node } :=
        ⟨h.unasked.trans (hextra ▸ List.sublist_append_left _ _), h.consistent⟩
      cases result with
      | error e =>
          rw [bind_run_error hrun]
          exact hafter
      | ok _ =>
          rw [bind_run_ok hrun, bind_run_ok (read_run _), broadcast_all_run, hextra, List.drop_left]
          have hbeside := beside_broadcasting_all { self with node } moment extra
          refine ⟨(unasked_broadcasting_all hafter.consistent _ sock).trans ?_, ?_⟩
          · rw [hbeside.node, hextra]
            exact h.unasked.append (List.Sublist.refl _)
          · rw [hbeside.local_peer]
            exact h.consistent

theorem handle_transaction_received_relaying (moment : Moment) (transaction : Transaction) :
    Spec (Relaying sock) (handle_transaction_received crypto moment transaction) fun _ => Relaying sock := by
  refine Spec.read_any fun before => Spec.ite (fun _ _ h => h) fun _ => Spec.seq ?_ fun added => ?_
  · exact fun self h => ⟨h.unasked, h.consistent⟩
  · refine Spec.ite (fun _ self h => ?_) fun _ _ h => h
    have hbeside := beside_broadcasting self moment ⟨DATA_TRANSACTION, .Transaction transaction⟩
    rw [broadcast_message_run]
    refine ⟨?_, ?_⟩
    · rw [unasked_broadcasting (active_nodup h.consistent _), hbeside.node]
      simpa [Message.block] using h.unasked
    · rw [hbeside.local_peer]
      exact h.consistent

-- A peer that asks for a block gives an id, which is not 0.
def AsksWithId (sock other : Nat) (header : MessageHeader) (message : Message) : Prop :=
  other = sock → ∀ request, message = .GetData request → header.id ≠ 0

theorem relaying_kept : Kept crypto (Relaying sock) (AsksWithId sock) fun _ => True where
  hello sock message raises := on_local_peer_relaying (LocalPeer.handle_hello_message_decent sock message raises)
  peers message := on_local_peer_relaying (LocalPeer.handle_peers_message_decent message)
  disconnect sock := on_local_peer_relaying (LocalPeer.disconnect_decent sock)
  incoming host port _ := on_local_peer_relaying (LocalPeer.handle_incoming_connection_decent host port)
  step current_time listing := on_local_peer_relaying (LocalPeer.step_decent current_time listing)
  inventory _ _ := fun _ h => ⟨h.unasked, h.consistent⟩
  conversation _ _ := fun _ h => ⟨h.unasked, h.consistent⟩
  fetching _ := fun _ h => ⟨h.unasked, h.consistent⟩
  send moment other _ _ hnone := send_message_spec fun self h =>
    ⟨(unasked_silent self moment other sock hnone).symm ▸ h.unasked, h.consistent⟩
  answer moment _ block header request hid := send_message_spec fun self h =>
    ⟨(unasked_answer self moment header block fun heq => hid heq request rfl).symm ▸ h.unasked, h.consistent⟩
  block moment other header _ block _ := handle_block_received_relaying moment other header block
  transaction moment transaction := handle_transaction_received_relaying moment transaction

end Relaying

-- What the handlers of the node keep, the thread keeps.
section Node

variable {P : Node → Prop} {fits_message : Nat → MessageHeader → Message → Prop}

theorem handle_block_received_node {block : Block} (hblock : Spec P (Node.handle_block_received crypto
      ⟨moment.current_time, header, block⟩) fun _ => P) (sock : Nat) :
    Spec (fun self => P self.node) (handle_block_received crypto moment sock header block)
      fun _ self => P self.node := by
  refine Spec.read_any fun before => Spec.raw_bind (fun block_hash _ => ?_) fun _ _ _ h => h
  refine Spec.change_bind (fun self => P self.node) (fun _ h => h) ?_
  refine Spec.seq (fun self h => hblock self.node h) fun _ => Spec.read_any fun after self h => ?_
  rw [broadcast_all_run]
  exact (beside_broadcasting_all self moment _).node ▸ h

theorem handle_transaction_received_node {transaction : Transaction} (htransaction : Spec P (Node.on_chain_manager
      (ChainManager.add_transaction_to_pool crypto transaction)) fun _ => P) :
    Spec (fun self => P self.node) (handle_transaction_received crypto moment transaction)
      fun _ self => P self.node := by
  refine Spec.read_any fun before => Spec.ite (fun _ _ h => h) fun _ => ?_
  refine Spec.seq (fun self h => htransaction self.node h) fun added => Spec.ite (fun _ self h => ?_) fun _ _ h => h
  rw [broadcast_message_run]
  exact (beside_broadcasting self moment _).node ▸ h

theorem kept_of_node {fits_host : String → Prop}
    (hblock : ∀ (moment : Moment) sock header data_type block,
      fits_message sock header (.Data ⟨data_type, .Block block⟩) →
      Spec P (Node.handle_block_received crypto ⟨moment.current_time, header, block⟩) fun _ => P)
    (htransaction : ∀ transaction,
      Spec P (Node.on_chain_manager (ChainManager.add_transaction_to_pool crypto transaction)) fun _ => P) :
    Kept crypto (fun self => P self.node) fits_message fits_host where
  hello _ _ _ := fun _ h => h
  peers _ := fun _ h => h
  disconnect _ := fun _ h => h
  incoming _ _ _ := fun _ h => h
  step _ _ := fun _ h => h
  inventory _ _ := fun _ h => h
  conversation _ _ := fun _ h => h
  fetching _ := fun _ h => h
  send _ _ _ _ _ := send_message_spec fun _ h => h
  answer _ _ _ _ _ _ := send_message_spec fun _ h => h
  block moment sock header data_type block hfits :=
    handle_block_received_node (hblock moment sock header data_type block hfits) sock
  transaction _ transaction := handle_transaction_received_node (htransaction transaction)

end Node

-- The same for the local peer, which blocks and transactions are no matter of.
section LocalPeer

variable {P : LocalPeer → Prop} {fits_message : Nat → MessageHeader → Message → Prop} {fits_host : String → Prop}

theorem handle_block_received_local_peer (moment : Moment) (sock : Nat) (header : MessageHeader) (block : Block) :
    Spec (fun self => P self.local_peer) (handle_block_received crypto moment sock header block)
      fun _ self => P self.local_peer := by
  refine Spec.read_any fun before => Spec.raw_bind (fun block_hash _ => ?_) fun _ _ _ h => h
  refine Spec.change_bind (fun self => P self.local_peer) (fun _ h => h) ?_
  refine Spec.seq (fun self h => h) fun _ => Spec.read_any fun after self h => ?_
  rw [broadcast_all_run]
  exact (beside_broadcasting_all self moment _).local_peer ▸ h

theorem handle_transaction_received_local_peer (moment : Moment) (transaction : Transaction) :
    Spec (fun self => P self.local_peer) (handle_transaction_received crypto moment transaction)
      fun _ self => P self.local_peer := by
  refine Spec.read_any fun before => Spec.ite (fun _ _ h => h) fun _ => ?_
  refine Spec.seq (fun self h => h) fun added => Spec.ite (fun _ self h => ?_) fun _ _ h => h
  rw [broadcast_message_run]
  exact (beside_broadcasting self moment _).local_peer ▸ h

theorem kept_of_local_peer
    (hhello : ∀ sock message raises, Spec P (LocalPeer.handle_hello_message_received sock message raises) fun _ => P)
    (hpeers : ∀ message, Spec P (LocalPeer.handle_peers_message_received message) fun _ => P)
    (hdisconnect : ∀ sock, Spec P (LocalPeer.disconnect sock) fun _ => P)
    (hincoming : ∀ host port, fits_host host → Spec P (LocalPeer.handle_incoming_connection host port) fun _ => P)
    (hstep : ∀ current_time listing, Spec P (LocalPeer.step current_time listing) fun _ => P) :
    Kept crypto (fun self => P self.local_peer) fits_message fits_host where
  hello sock message raises := fun self h => hhello sock message raises self.local_peer h
  peers message := fun self h => hpeers message self.local_peer h
  disconnect sock := fun self h => hdisconnect sock self.local_peer h
  incoming host port hhost := fun self h => hincoming host port hhost self.local_peer h
  step current_time listing := fun self h => hstep current_time listing self.local_peer h
  inventory _ _ := fun _ h => h
  conversation _ _ := fun _ h => h
  fetching _ := fun _ h => h
  send _ _ _ _ _ := send_message_spec fun _ h => h
  answer _ _ _ _ _ _ := send_message_spec fun _ h => h
  block moment sock header _ block _ := handle_block_received_local_peer moment sock header block
  transaction moment transaction := handle_transaction_received_local_peer moment transaction

end LocalPeer

section Relayed

-- A transaction that is offered changes the pool at most.
theorem add_transaction_to_pool_state (crypto : Crypto) (transaction : Transaction) (manager : ChainManager) :
    ∃ transaction_pool, (ChainManager.add_transaction_to_pool crypto transaction manager).2 =
      { manager with transaction_pool } := by
  have hspec : Spec (fun after => ∃ transaction_pool, after = { manager with transaction_pool })
      (ChainManager.add_transaction_to_pool crypto transaction)
      fun _ after => ∃ transaction_pool, after = { manager with transaction_pool } := by
    refine Spec.read_any fun before => Spec.raw_bind (fun _ _ => ?_) fun _ _ _ h => h
    refine Spec.raw_bind (fun valid _ => Spec.ite (fun _ => ?_) fun _ => ?_) fun _ _ _ h => h
    · rintro _ ⟨transaction_pool, rfl⟩
      exact ⟨transaction_pool ++ [transaction], rfl⟩
    · exact Spec.raw_bind (fun _ _ _ h => h) fun _ _ _ h => h
  exact hspec manager ⟨manager.transaction_pool, rfl⟩

theorem add_transaction_kept {P : Node → Prop} (hpool : ∀ (node : Node) (transaction_pool : List Transaction), P node →
      P { node with chain_manager := { node.chain_manager with transaction_pool } }) (transaction : Transaction) :
    Spec P (Node.on_chain_manager (ChainManager.add_transaction_to_pool crypto transaction)) fun _ => P := by
  intro node h
  obtain ⟨transaction_pool, hafter⟩ := add_transaction_to_pool_state crypto transaction node.chain_manager
  have hnode : (Node.on_chain_manager (ChainManager.add_transaction_to_pool crypto transaction) node).2 =
      { node with chain_manager := { node.chain_manager with transaction_pool } } := by
    rw [Node.on_chain_manager, within, hafter]
  rw [hnode]
  exact hpool node transaction_pool h

-- A peer that asks with an id is not sent a block twice without having asked for
-- it, and whatever it is sent unasked has been validated and is kept for good.
theorem relayed_once (lst : List PeerKey) (nonce max_selector_map_size : Nat) (listening : Bool) {node : Node}
    (hlast : node.chain_manager.last_known_valid_coinstate = some node.chain_manager.coinstate)
    (hsilent : node.broadcast = []) (port : Option Nat) (version : Bytes) (started_at : Nat) {turns : List Turn}
    {sock : Nat} (hids : ∀ turn ∈ turns, turn.Fits (AsksWithId sock) fun _ => True) :
    let thread := (run crypto turns
      (started (LocalPeer.loaded lst nonce max_selector_map_size listening) node port version started_at)).2
    (thread.unasked sock).Pairwise (fun first second => first.hash crypto ≠ second.hash crypto) ∧
      ∀ block ∈ thread.unasked sock, thread.node.Told crypto block := by
  have hannouncing : Node.Announcing crypto node := by
    refine ⟨⟨node.chain_manager.coinstate, hlast, fun _ _ hb => hb⟩, ?_, ?_⟩
    · rw [hsilent]
      exact fun _ hmem => absurd hmem List.not_mem_nil
    · rw [hsilent]
      exact .nil
  have hrelaying : Relaying sock
      (started (LocalPeer.loaded lst nonce max_selector_map_size listening) node port version started_at) :=
    ⟨List.nil_sublist _, LocalPeer.loaded_consistent lst nonce max_selector_map_size listening⟩
  have hrelayed : Relaying sock (run crypto turns
      (started (LocalPeer.loaded lst nonce max_selector_map_size listening) node port version started_at)).2 :=
    run_kept relaying_kept hids _ hrelaying
  have hsent := hrelayed.unasked
  have htold : Node.Announcing crypto (run crypto turns
      (started (LocalPeer.loaded lst nonce max_selector_map_size listening) node port version started_at)).2.node :=
    run_kept (kept_of_node (fun _ _ _ _ _ _ => Node.handle_block_received_announcing _)
      (add_transaction_kept fun _ transaction_pool h => h.pool transaction_pool)) hids
      (started (LocalPeer.loaded lst nonce max_selector_map_size listening) node port version started_at) hannouncing
  exact ⟨htold.once.sublist hsent, fun block hblock => htold.told block (hsent.subset hblock)⟩

-- A peer connects, says hello, sends a block, and asks for it.
def sentHello : HelloMessage := ⟨[⟨0⟩], reserved 16, 2412, reserved 16, 2412, 1, []⟩

noncomputable def relayedTurns : List Turn :=
  let moment := quietMoment 1700000000
  [⟨moment, 0, [.incoming_connection "10.0.0.1" 2412]⟩,
    ⟨moment, 0, [.message_received moment 0 ⟨0, 1, 0, 0⟩ (.Hello sentHello)]⟩,
    ⟨moment, 0, [.message_received moment 0 ⟨0, 2, 0, 0⟩ (.Data ⟨DATA_BLOCK, .Block BlockStore.firstSibling⟩)]⟩,
    ⟨moment, 0, [.message_received moment 0 ⟨0, 3, 0, 0⟩
      (.GetData ⟨DATA_BLOCK, BlockStore.residueHash BlockStore.firstSibling⟩)]⟩]

theorem relayed_once_first :
    let thread := (run .residue relayedTurns
      (started (LocalPeer.loaded [] 0 512 true) Node.genesisNode none [] 0)).2
    (thread.unasked 0).Pairwise (fun first second => first.hash .residue ≠ second.hash .residue) ∧
      ∀ block ∈ thread.unasked 0, thread.node.Told .residue block := by
  have hlast : Node.genesisNode.chain_manager.last_known_valid_coinstate =
      some Node.genesisNode.chain_manager.coinstate := by simp only [Node.genesisNode]
  have hsilent : Node.genesisNode.broadcast = [] := by simp only [Node.genesisNode]
  refine relayed_once [] 0 512 true hlast hsilent none [] 0 fun turn hturn event hevent => ?_
  simp only [relayedTurns, List.mem_cons, List.not_mem_nil, or_false] at hturn
  obtain rfl | rfl | rfl | rfl := hturn
  · rw [List.mem_singleton.mp hevent]
    trivial
  · rw [List.mem_singleton.mp hevent]
    exact fun _ request hrequest => by cases hrequest
  · rw [List.mem_singleton.mp hevent]
    exact fun _ request hrequest => by cases hrequest
  · rw [List.mem_singleton.mp hevent]
    exact fun _ _ _ => Nat.succ_ne_zero 2

end Relayed

end NetworkingThread

end Skepticoin
