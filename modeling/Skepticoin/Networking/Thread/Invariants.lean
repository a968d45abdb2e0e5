import Skepticoin.Networking.Thread.Handshake

namespace Skepticoin

open Guard FMap Effect

namespace NetworkingThread

variable {crypto : Crypto} {I : NetworkingThread → Prop} {fits_message : Nat → MessageHeader → Message → Prop}
  {fits_host : String → Prop} {moment : Moment} {sock : Nat} {header : MessageHeader}

-- An invariant of the thread, by what its actions are made of. The messages that
-- arrive, and the hosts that connect, are as they should be.
structure Kept (crypto : Crypto) (I : NetworkingThread → Prop) (fits_message : Nat → MessageHeader → Message → Prop)
    (fits_host : String → Prop) : Prop where
  hello : ∀ sock message raises,
    Spec I (on_local_peer (LocalPeer.handle_hello_message_received sock message raises)) fun _ => I
  peers : ∀ message, Spec I (on_local_peer (LocalPeer.handle_peers_message_received message)) fun _ => I
  disconnect : ∀ sock, Spec I (on_local_peer (LocalPeer.disconnect sock)) fun _ => I
  incoming : ∀ host port, fits_host host →
    Spec I (on_local_peer (LocalPeer.handle_incoming_connection host port)) fun _ => I
  step : ∀ current_time listing, Spec I (on_local_peer (LocalPeer.step current_time listing)) fun _ => I
  inventory : ∀ sock inventory, Spec I (set_inventory sock inventory) fun _ => I
  conversation : ∀ sock conversation, Spec I (set_conversation sock conversation) fun _ => I
  fetching : ∀ fetching,
    Spec I (change fun self => { self with fetching } : Action NetworkingThread PyError Unit) fun _ => I
  send : ∀ moment sock message prev_header, message.block = none →
    Spec I (send_message moment sock message prev_header) fun _ => I
  answer : ∀ moment sock block header request, fits_message sock header (.GetData request) →
    Spec I (send_message moment sock (.Data ⟨DATA_BLOCK, .Block block⟩) (some header)) fun _ => I
  block : ∀ moment sock header data_type block, fits_message sock header (.Data ⟨data_type, .Block block⟩) →
    Spec I (handle_block_received crypto moment sock header block) fun _ => I
  transaction : ∀ moment transaction, Spec I (handle_transaction_received crypto moment transaction) fun _ => I

theorem Kept.congr {J : NetworkingThread → Prop} (hI : Kept crypto I fits_message fits_host)
    (h : ∀ self, I self ↔ J self) : Kept crypto J fits_message fits_host := by
  have heq : I = J := funext fun self => propext (h self)
  exact heq ▸ hI

-- Two invariants at once.
theorem Kept.and {J : NetworkingThread → Prop} (hI : Kept crypto I fits_message fits_host)
    (hJ : Kept crypto J fits_message fits_host) :
    Kept crypto (fun self => I self ∧ J self) fits_message fits_host where
  hello sock message raises := fun _ h => ⟨hI.hello sock message raises _ h.1, hJ.hello sock message raises _ h.2⟩
  peers message := fun _ h => ⟨hI.peers message _ h.1, hJ.peers message _ h.2⟩
  disconnect sock := fun _ h => ⟨hI.disconnect sock _ h.1, hJ.disconnect sock _ h.2⟩
  incoming host port hhost := fun _ h => ⟨hI.incoming host port hhost _ h.1, hJ.incoming host port hhost _ h.2⟩
  step current_time listing := fun _ h => ⟨hI.step current_time listing _ h.1, hJ.step current_time listing _ h.2⟩
  inventory sock inventory := fun _ h => ⟨hI.inventory sock inventory _ h.1, hJ.inventory sock inventory _ h.2⟩
  conversation sock conversation := fun _ h =>
    ⟨hI.conversation sock conversation _ h.1, hJ.conversation sock conversation _ h.2⟩
  fetching fetching := fun _ h => ⟨hI.fetching fetching _ h.1, hJ.fetching fetching _ h.2⟩
  send moment sock message prev_header hnone := fun _ h =>
    ⟨hI.send moment sock message prev_header hnone _ h.1, hJ.send moment sock message prev_header hnone _ h.2⟩
  answer moment sock block header request hfits := fun _ h =>
    ⟨hI.answer moment sock block header request hfits _ h.1, hJ.answer moment sock block header request hfits _ h.2⟩
  block moment sock header data_type block hfits := fun _ h =>
    ⟨hI.block moment sock header data_type block hfits _ h.1, hJ.block moment sock header data_type block hfits _ h.2⟩
  transaction moment transaction := fun _ h =>
    ⟨hI.transaction moment transaction _ h.1, hJ.transaction moment transaction _ h.2⟩

section Handlers

theorem handle_get_blocks_message_received_kept (hkept : Kept crypto I fits_message fits_host)
    (message : GetBlocksMessage) :
    Spec I (handle_get_blocks_message_received crypto moment sock header message) fun _ => I :=
  Spec.read_any fun _ => Spec.raw_bind (fun _ _ => hkept.send _ _ _ _ rfl) fun _ _ _ h => h

theorem handle_inventory_message_received_kept (hkept : Kept crypto I fits_message fits_host)
    (message : InventoryMessage) :
    Spec I (handle_inventory_message_received moment sock header message) fun _ => I := by
  refine Spec.read_any fun before => Spec.raw_bind (fun handled hhandled => ?_) fun _ _ _ h => h
  refine Spec.seq (hkept.inventory sock handled.1) fun _ => Spec.forEach_mem fun entry hentry => ?_
  cases inventory_requests hhandled entry hentry with
  | inl hask =>
      obtain ⟨asked, hasked⟩ := hask
      exact hasked ▸ hkept.send _ _ _ _ rfl
  | inr hfollow =>
      obtain ⟨follow, hfollow⟩ := hfollow
      exact hfollow ▸ hkept.send _ _ _ _ rfl

theorem handle_get_data_message_received_kept (hkept : Kept crypto I fits_message fits_host) {message : GetDataMessage}
    (hfits : fits_message sock header (.GetData message)) :
    Spec I (handle_get_data_message_received moment sock header message) fun _ => I := by
  refine Spec.raw_bind (fun _ _ => Spec.read_any fun before => ?_) fun _ _ _ h => h
  cases before.node.chain_manager.coinstate.block_by_hash.lookup message.hash with
  | none => exact fun _ h => h
  | some block => exact hkept.answer _ _ block header _ hfits

theorem handle_data_message_received_kept (hkept : Kept crypto I fits_message fits_host) {message : DataMessage}
    (hfits : fits_message sock header (.Data message)) :
    Spec I (handle_data_message_received crypto moment sock header message) fun _ => I := by
  obtain ⟨data_type, data⟩ := message
  cases data with
  | Block block => exact hkept.block moment sock header data_type block hfits
  | Transaction transaction => exact hkept.transaction moment transaction
  | BlockHeader _ => exact fun _ h => h

theorem handle_get_peers_message_received_kept (hkept : Kept crypto I fits_message fits_host) :
    Spec I (handle_get_peers_message_received moment sock header) fun _ => I := by
  refine Spec.read_any fun before => Spec.raw_bind (fun con_peers _ => ?_) fun _ _ _ h => h
  exact Spec.raw_bind (fun discon_peers _ => hkept.send _ _ _ _ rfl) fun _ _ _ h => h

theorem handle_peers_message_received_kept (hkept : Kept crypto I fits_message fits_host) (message : PeersMessage) :
    Spec I (handle_peers_message_received sock message) fun _ => I :=
  Spec.read_any fun _ => Spec.seq (hkept.conversation sock _) fun _ => hkept.peers message

theorem handle_message_received_kept (hkept : Kept crypto I fits_message fits_host) {message : Message}
    (hfits : fits_message sock header message) :
    Spec I (handle_message_received crypto moment sock header message) fun _ => I := by
  have hlater : ∀ rest : Action NetworkingThread PyError Unit, Spec I rest (fun _ => I) →
      Spec I (do
        let remote_peer ← on_local_peer (LocalPeer.connection sock)
        raw (raiseIf (remote_peer.hello_received = false) (.Exception "First message must be Hello"))
        rest) fun _ => I :=
    fun rest hrest => Spec.seq (connection_spec sock) fun _ => Spec.raw_bind (fun _ _ => hrest) fun _ _ _ h => h
  cases message with
  | Hello message => exact hkept.hello sock message _
  | GetBlocks message => exact hlater _ (handle_get_blocks_message_received_kept hkept message)
  | Inventory message => exact hlater _ (handle_inventory_message_received_kept hkept message)
  | GetData message => exact hlater _ (handle_get_data_message_received_kept hkept hfits)
  | Data message => exact hlater _ (handle_data_message_received_kept hkept hfits)
  | GetPeers => exact hlater _ (handle_get_peers_message_received_kept hkept)
  | Peers message => exact hlater _ (handle_peers_message_received_kept hkept message)

-- Whatever is raised, the connection is closed.
theorem handle_remote_peer_message_kept (hkept : Kept crypto I fits_message fits_host) {message : Message}
    (hfits : fits_message sock header message) :
    Spec I (handle_remote_peer_message crypto moment sock header message) fun _ => I := by
  intro self h
  have hafter : I (handle_message_received crypto moment sock header message self).2 :=
    handle_message_received_kept hkept hfits self h
  unfold handle_remote_peer_message
  cases hrun : handle_message_received crypto moment sock header message self with
  | mk result after =>
      rw [hrun] at hafter
      cases result with
      | ok _ => exact hafter
      | error _ => exact hkept.disconnect sock after hafter

end Handlers

section Steps

theorem remote_peer_step_kept (hkept : Kept crypto I fits_message fits_host) (sock : Nat) :
    Spec I (remote_peer_step moment sock) fun _ => I :=
  remote_peer_step_spec (fun message hnone => hkept.send moment sock message none hnone) (hkept.conversation sock)

theorem network_manager_step_kept (hkept : Kept crypto I fits_message fits_host) :
    Spec I (network_manager_step moment) fun _ => I :=
  Spec.read_any fun _ => Spec.seq (hkept.step _ _) fun _ =>
    Spec.read_any fun _ => Spec.forEach (remote_peer_step_kept hkept) _

theorem chain_manager_step_kept (hkept : Kept crypto I fits_message fits_host) (choice : Nat) :
    Spec I (chain_manager_step crypto moment choice) fun _ => I := by
  refine Spec.read_any fun before => Spec.raw_bind (fun stepped _ => ?_) fun _ _ _ h => h
  refine Spec.seq (hkept.fetching stepped.1) fun _ => ?_
  cases stepped.2 with
  | none => exact fun _ h => h
  | some asked => exact hkept.send _ _ _ _ rfl

end Steps

section Runs

def SelectorEvent.Fits (fits_message : Nat → MessageHeader → Message → Prop) (fits_host : String → Prop) :
    SelectorEvent → Prop
  | .incoming_connection host _ => fits_host host
  | .message_received _ sock header message => fits_message sock header message
  | .closed _ => True

def Turn.Fits (fits_message : Nat → MessageHeader → Message → Prop) (fits_host : String → Prop) (turn : Turn) : Prop :=
  ∀ event ∈ turn.events, event.Fits fits_message fits_host

theorem SelectorEvent.action_kept (hkept : Kept crypto I fits_message fits_host) {event : SelectorEvent}
    (hfits : event.Fits fits_message fits_host) : Spec I (event.action crypto) fun _ => I := by
  cases event with
  | incoming_connection host port => exact hkept.incoming host port hfits
  | message_received moment sock header message => exact handle_remote_peer_message_kept hkept hfits
  | closed sock => exact hkept.disconnect sock

theorem turn_kept (hkept : Kept crypto I fits_message fits_host) {turn : Turn}
    (hfits : turn.Fits fits_message fits_host) : Spec I (turn.action crypto) fun _ => I := by
  refine Spec.seq (Spec.seq (network_manager_step_kept hkept) fun _ => chain_manager_step_kept hkept turn.choice)
    fun _ => Spec.read_any fun before => Spec.forEach_mem fun event hevent => ?_
  exact event.action_kept hkept (hfits event (List.mem_filter.mp hevent).1)

-- An invariant that the actions keep holds after every run.
theorem run_kept (hkept : Kept crypto I fits_message fits_host) {turns : List Turn}
    (hfits : ∀ turn ∈ turns, turn.Fits fits_message fits_host) : Spec I (run crypto turns) fun _ => I :=
  Spec.forEach_mem fun turn hturn => turn_kept hkept (hfits turn hturn)

end Runs

end NetworkingThread

end Skepticoin
