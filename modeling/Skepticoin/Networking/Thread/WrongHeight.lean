import Skepticoin.Networking.Node.Named
import Skepticoin.Networking.Thread.Survival

namespace Skepticoin

open Guard FMap Effect

-- The blocks in messages are the ones that their hashes name.
def NamedMessage (crypto : Crypto) (names : Hash → Block) (message : Message) : Prop :=
  ∀ block, message.block = some block → WellNamed crypto names block

namespace NetworkingThread

variable {crypto : Crypto} {names : Hash → Block} {self : NetworkingThread} {moment : Moment} {sock : Nat}
  {header : MessageHeader} {block head : Block} {hash : Hash} {next : CoinState}

-- What is left of a turn, and the turns after it.
def remaining (crypto : Crypto) (events : List SelectorEvent) (turns : List Turn) :
    Action NetworkingThread PyError Unit := do
  forEach (SelectorEvent.action crypto) events
  run crypto turns

-- The peers are in order, and the coinstates are built of the blocks that hashes
-- name, however high these claim to stand.
structure OfNamed (crypto : Crypto) (names : Hash → Block) (thread : NetworkingThread) : Prop
    extends Peered thread where
  node : Node.OfNamed crypto names thread.node

section Kept

theorem of_named_kept : Kept crypto (OfNamed crypto names) (fun _ _ => NamedMessage crypto names) Dotted := by
  have hnode : Kept crypto (fun self => Node.OfNamed crypto names self.node) (fun _ _ => NamedMessage crypto names)
      Dotted :=
    kept_of_node (fun _ _ _ _ _ hfits => Node.handle_block_received_of_named (hfits _ rfl))
      (add_transaction_kept fun _ _ h => ⟨h.coinstate, h.last⟩)
  exact (peered_kept.and hnode).congr fun _ => ⟨fun h => ⟨h.1, h.2⟩, fun h => ⟨h.toPeered, h.node⟩⟩

theorem Alive.of_named (h : Alive crypto (WellNamed crypto names) self) : OfNamed crypto names self :=
  ⟨h.toPeered, h.level.of_named⟩

theorem remaining_of_named {events : List SelectorEvent} {turns : List Turn}
    (hevents : ∀ event ∈ events, event.Fits (fun _ _ => NamedMessage crypto names) Dotted)
    (hturns : ∀ turn ∈ turns, turn.Fits (fun _ _ => NamedMessage crypto names) Dotted) :
    Spec (OfNamed crypto names) (remaining crypto events turns) fun _ => OfNamed crypto names :=
  Spec.seq (Spec.forEach_mem fun event hevent => event.action_kept of_named_kept (hevents event hevent))
    fun _ => run_kept of_named_kept hturns

end Kept

-- The block that arrives.
section Arrival

theorem handle_block_received_after (hhash : block.hash crypto = .ok hash) :
    (handle_block_received crypto moment sock header block self).2.node =
      (Node.handle_block_received crypto ⟨moment.current_time, header, block⟩ self.node).2 := by
  generalize hinventory : (self.fetching.inventories sock).without hash = inventory
  have hset : set_inventory sock inventory self = (.ok (), (set_inventory sock inventory self).2) := rfl
  rw [handle_block_received, bind_run_ok (read_run _), hhash, bind_run_ok (raw_run _ _)]
  rw [← Inventory.without, hinventory, bind_run_ok hset]
  cases hnode : Node.handle_block_received crypto ⟨moment.current_time, header, block⟩ self.node with
  | mk result node =>
      have hrun : on_node (Node.handle_block_received crypto ⟨moment.current_time, header, block⟩)
          (set_inventory sock inventory self).2 =
            (result, { (set_inventory sock inventory self).2 with node := node }) := by
        have hsame : (set_inventory sock inventory self).2.node = self.node := rfl
        rw [on_node, within, hsame, hnode]
      cases result with
      | error e => rw [bind_run_error hrun]
      | ok _ =>
          rw [bind_run_ok hrun, bind_run_ok (read_run _), broadcast_all_run]
          exact (beside_broadcasting_all _ moment _).node

theorem handle_block_message_after (hreceived : self.local_peer.Received sock) (hhash : block.hash crypto = .ok hash)
    (data_type : FixedBytes 2) :
    (handle_remote_peer_message crypto moment sock header (.Data ⟨data_type, .Block block⟩) self).2.node =
      (Node.handle_block_received crypto ⟨moment.current_time, header, block⟩ self.node).2 := by
  obtain ⟨remote_peer, hpeer, hgreeted⟩ := hreceived
  have hrun : handle_message_received crypto moment sock header (.Data ⟨data_type, .Block block⟩) self =
      handle_block_received crypto moment sock header block self := by
    show (do
      let remote_peer ← on_local_peer (LocalPeer.connection sock)
      raw (raiseIf (remote_peer.hello_received = false) (.Exception "First message must be Hello"))
      handle_block_received crypto moment sock header block : Action NetworkingThread PyError Unit) self = _
    rw [bind_run_ok (connection_run hpeer), hgreeted]
    rfl
  rw [← handle_block_received_after hhash, handle_remote_peer_message, hrun]
  cases handle_block_received crypto moment sock header block self with
  | mk result after =>
      cases result with
      | ok _ => rfl
      | error _ => rfl

end Arrival

-- The turn in which a peer would be asked for blocks.
section Turns

theorem chain_manager_step_raises {choice : Nat}
    (hrequest : get_get_blocks_message crypto self.node.chain_manager.coinstate = .error .KeyError)
    (hchooses : self.fetching.Chooses self.node.chain_manager.coinstate moment.current_time
      (self.get_active_peers moment.connected_order))
    (hroom : (self.fetching.still_fetching moment.current_time).length ≤ MAX_IBD_PEERS) :
    (chain_manager_step crypto moment choice self).1 = .error .KeyError := by
  obtain ⟨remote_peer, hchoice⟩ := Fetching.choice_of_candidates hchooses.2 choice
  have hstep : self.fetching.step crypto self.node.chain_manager.coinstate moment.current_time
      (self.get_active_peers moment.connected_order) choice = .error .KeyError := by
    rw [Fetching.step, hchooses.1]
    simp only [bind, Except.bind, Bool.true_eq_false, if_false, hchoice, if_neg (Nat.not_lt.mpr hroom), hrequest]
  have hraise : raw (self.fetching.step crypto self.node.chain_manager.coinstate moment.current_time
      (self.get_active_peers moment.connected_order) choice) self = (.error .KeyError, self) := by
    rw [raw_run, hstep]
  rw [chain_manager_step, bind_run_ok (read_run _), bind_run_error hraise]

theorem turn_raises {turn : Turn} {e : PyError} {middle : NetworkingThread}
    (hstep : network_manager_step turn.moment self = (.ok (), middle))
    (hraises : (chain_manager_step crypto turn.moment turn.choice middle).1 = .error e) :
    (turn.action crypto self).1 = .error e := by
  have hmanagers : step_managers crypto turn.moment turn.choice self =
      (.error e, (chain_manager_step crypto turn.moment turn.choice middle).2) := by
    rw [step_managers, bind_run_ok hstep]
    exact Prod.ext hraises rfl
  rw [Turn.action, bind_run_error hmanagers]

-- Sending leaves alone what is being fetched.
theorem network_manager_step_fetching (fetching : Fetching Nat) :
    Spec (fun self => self.fetching = fetching) (network_manager_step moment) fun _ self =>
      self.fetching = fetching := by
  have hstep : ∀ sock, Spec (fun self => self.fetching = fetching) (remote_peer_step moment sock) fun _ self =>
      self.fetching = fetching := fun sock =>
    remote_peer_step_spec (fun _ _ => send_message_spec fun _ h => h) fun _ => Spec.change fun _ h => h
  refine Spec.read_any fun before => Spec.seq (fun _ h => h) fun _ => ?_
  exact Spec.read_any fun connecting => Spec.forEach hstep _

-- The turns after that do not come about.
theorem remaining_raises {events : List SelectorEvent} {turns rest : List Turn} {turn : Turn} {e : PyError}
    {later : NetworkingThread} (hrun : remaining crypto events turns self = (.ok (), later))
    (hraises : (turn.action crypto later).1 = .error e) :
    (remaining crypto events (turns ++ turn :: rest) self).1 = .error e := by
  obtain ⟨_, between, hevents, hturns⟩ := bind_run_eq_ok.mp hrun
  have hturn : turn.action crypto later = (.error e, (turn.action crypto later).2) := Prod.ext hraises rfl
  rw [remaining, bind_run_ok hevents, run, forEach_append_run hturns, forEach, bind_run_error hturn]

end Turns

-- A block on top of the head that claims to stand more than one height above it
-- is taken if it is not checked, or if it is below the checkpoints. However the
-- loop goes on then, it ends as soon as a peer is to be asked for blocks while
-- this block is the head.
theorem wrong_height_ends_loop (halive : Alive crypto (WellNamed crypto names) self)
    (hreceived : self.local_peer.Received sock) (hhead : self.node.chain_manager.coinstate.head = .ok head)
    (hcurrent : self.node.chain_manager.coinstate.current_chain_hash = some block.previous_block_hash)
    (hgap : head.height + 1 < block.height) (hnamed : WellNamed crypto names block)
    (htaken : Node.Taken crypto self.node ⟨moment.current_time, header, block⟩ hash next)
    (hverdict : Node.ToValidate ⟨moment.current_time, header, block⟩ →
      validate_block_in_coinstate crypto block self.node.chain_manager.coinstate = .ok ()) (data_type : FixedBytes 2) :
    let taken := (handle_remote_peer_message crypto moment sock header (.Data ⟨data_type, .Block block⟩) self).2
    taken.node.chain_manager.coinstate.current_chain_hash = some hash ∧
      ∀ (events : List SelectorEvent) (turns rest : List Turn) (turn : Turn) (later : NetworkingThread),
        (∀ event ∈ events, event.Fits (fun _ _ => NamedMessage crypto names) Dotted) →
        (∀ turn ∈ turns, turn.Fits (fun _ _ => NamedMessage crypto names) Dotted) →
        remaining crypto events turns taken = (.ok (), later) →
        later.node.chain_manager.coinstate.current_chain_hash = some hash →
        later.fetching.Chooses later.node.chain_manager.coinstate turn.moment.current_time
          ((network_manager_step turn.moment later).2.get_active_peers turn.moment.connected_order) →
        (later.fetching.still_fetching turn.moment.current_time).length ≤ MAX_IBD_PEERS →
        (remaining crypto events (turns ++ turn :: rest) taken).1 = .error .KeyError := by
  intro taken
  have hbuilt := halive.level.of_named.coinstate
  refine ⟨?_, fun events turns rest turn later hevents hturns hrun hagain hchooses hroom => ?_⟩
  · have hnode : taken.node.chain_manager.coinstate = next := by
      rw [handle_block_message_after hreceived htaken.hash data_type]
      exact htaken.coinstate_after hverdict
    rw [hnode]
    exact htaken.on_head hbuilt hcurrent
  · have hgapped : Gapped names hash :=
      gapped_on_head halive.level.coinstate.consistent hbuilt hhead hcurrent hgap (hnamed hash htaken.hash)
    have hfits : NamedMessage crypto names (.Data ⟨data_type, .Block block⟩) :=
      fun other hother => Option.some.inj hother ▸ hnamed
    have hafter : OfNamed crypto names taken := handle_remote_peer_message_kept of_named_kept hfits self halive.of_named
    have hlater : OfNamed crypto names later := by
      have hend := remaining_of_named hevents hturns taken hafter
      rwa [hrun] at hend
    obtain ⟨_, middle, hstep, _, hnode⟩ := network_manager_step_ends later ⟨hlater.toPeered, rfl⟩
    have hfetching : (network_manager_step turn.moment later).2.fetching = later.fetching :=
      network_manager_step_fetching later.fetching later rfl
    rw [hstep] at hfetching hchooses
    rw [← hfetching] at hchooses hroom
    rw [← hnode] at hchooses
    have hrequest : get_get_blocks_message crypto middle.node.chain_manager.coinstate = .error .KeyError := by
      rw [hnode]
      exact hlater.node.coinstate.request_raises hagain hgapped
    exact remaining_raises hrun (turn_raises hstep (chain_manager_step_raises hrequest hchooses hroom))

section Sample

-- A connection on which both ends have said hello.
def greetedThread (node : Node) : NetworkingThread :=
  { paired node with
    conversations := Function.update (fun _ => .new) 0 ⟨true, 1, none, false⟩
    sent := [(0, ⟨0, 1, 0, 0⟩, .Hello sentHello)] }

theorem paired_connected {key : PeerKey} {sock : Nat} (h : pairedPeer.connected_peers.lookup key = some sock) :
    key = ("10.0.0.1", 2412, .OUTGOING) ∧ sock = 0 := by
  cases lookup_insert_eq_some.mp h with
  | inl hself => exact ⟨hself.1, hself.2.symm⟩
  | inr hnone => cases hnone.2

theorem paired_consistent : LocalPeer.Consistent ∅ pairedPeer := by
  refine ⟨fun key sock hkey => ?_, fun sock hsock _ => ?_, fun key peer hnone => (by cases hnone),
    fun key hkey => Finmap.notMem_empty, fun key peer hknown hincoming => ?_, List.not_mem_nil⟩
  · obtain ⟨rfl, rfl⟩ := paired_connected hkey
    exact ⟨Finset.mem_singleton_self 0, Finset.notMem_empty 0, _, rfl, rfl⟩
  · rw [Finset.mem_singleton.mp hsock]
    exact ⟨_, rfl, Finmap.lookup_insert _⟩
  · rw [LocalPeer.known] at hknown
    cases hkey : pairedPeer.connected_peers.lookup key with
    | none =>
        rw [hkey] at hknown
        cases hknown
    | some sock =>
        rw [(paired_connected hkey).1] at hincoming
        cases hincoming

theorem greeted_open (node : Node) : (greetedThread node).Open 0 :=
  ⟨(paired_open node).selected, (paired_open node).received⟩

theorem greeted_orderly (node : Node) : Orderly (fun sock => sock = 0) (fun sock => sock = 0) (greetedThread node) := by
  have hreceived := (greeted_open node).received
  refine ⟨fun sock => ?_, fun sock hsock => hsock ▸ rfl, fun sock hsock => hsock ▸ hreceived, paired_consistent⟩
  by_cases heq : sock = 0
  · subst heq
    exact ⟨fun hno => (by cases hno),
      fun _ => ⟨_, [], rfl, fun _ hnone => absurd hnone List.not_mem_nil, fun _ => hreceived⟩⟩
  · have hconversation : (greetedThread node).conversations sock = .new := by
      exact Function.update_of_ne heq _ fun _ => Conversation.new
    refine ⟨fun _ => ?_, fun hyes => ?_⟩
    · simp [sent_on, greetedThread, Ne.symm heq]
    · rw [hconversation] at hyes
      cases hyes

theorem greeted_alive {known : Block → Prop} {node : Node} (hlevel : node.OnLevel .residue known) :
    Alive .residue known (greetedThread node) := by
  refine ⟨⟨paired_consistent, fun sock remote_peer hpeer => ?_, fun key peer hnone => by cases hnone⟩, hlevel⟩
  cases sock with
  | zero =>
      rw [← Option.some.inj hpeer]
      exact sample_host
  | succ n => cases hpeer

-- The network manager has nobody to connect to.
theorem greeted_asks {thread : NetworkingThread} (hpeer : thread.local_peer = pairedPeer)
    (horderly : Orderly (fun sock => sock = 0) (fun sock => sock = 0) thread) (moment : Moment) :
    0 ∈ (network_manager_step moment thread).2.get_active_peers moment.connected_order := by
  have hafter : Orderly (fun sock => sock = 0) (fun sock => sock = 0) (network_manager_step moment thread).2 :=
    (network_manager_step_orderly thread horderly).1
  have hnobody : ∀ listing : Listing, listing.values pairedPeer.disconnected_peers = [] := fun listing =>
    List.filterMap_eq_nil_iff.mpr fun _ _ => rfl
  have hstep : ∀ listing, Spec (fun self => self.local_peer = pairedPeer)
      (on_local_peer (LocalPeer.step moment.current_time listing)) fun _ self => self.local_peer = pairedPeer := by
    intro listing self hself
    have hsane : LocalPeer.sanity_check pairedPeer = (.ok (), pairedPeer) := by
      have hdisjoint : ¬∃ key ∈ pairedPeer.connected_peers.keys, key ∈ pairedPeer.disconnected_peers :=
        fun ⟨key, _, hin⟩ => Finmap.notMem_empty hin
      rw [LocalPeer.sanity_check, bind_run_ok (read_run _), raw_run, raiseIf, if_neg hdisjoint]
    have hrun : LocalPeer.step moment.current_time listing pairedPeer = (.ok (), pairedPeer) := by
      rw [LocalPeer.step, bind_run_ok hsane, bind_run_ok (read_run _), hnobody]
      rfl
    rw [on_local_peer, within, hself, hrun]
  have hsame : (network_manager_step moment thread).2.local_peer = pairedPeer := by
    refine (Spec.read_any fun before => Spec.seq (hstep _) fun _ => Spec.read_any fun connecting => ?_ :
      Spec (fun self => self.local_peer = pairedPeer) (network_manager_step moment) fun _ self =>
        self.local_peer = pairedPeer) thread hpeer
    exact Spec.forEach (remote_peer_step_local_peer pairedPeer) _
  refine mem_active.mpr ⟨⟨("10.0.0.1", 2412, .OUTGOING), ?_⟩, hafter.said 0 rfl, hafter.heard 0 rfl⟩
  rw [hsame]
  exact Finmap.lookup_insert _

def highNames (h : Hash) : Block := if h = lowBlock.previous_block_hash then highBlock else genesis_block .residue

theorem high_well_named : WellNamed .residue highNames highBlock ∧
    WellNamed .residue highNames (genesis_block .residue) := by
  have hfacts : highBlock.hash .residue = .ok lowBlock.previous_block_hash ∧ lowBlock.previous_block_hash ≠ zero_hash ∧
      (genesis_block .residue).hash .residue = .ok (BlockStore.residueHash (genesis_block .residue)) ∧
      BlockStore.residueHash (genesis_block .residue) ≠ zero_hash ∧
      BlockStore.residueHash (genesis_block .residue) ≠ lowBlock.previous_block_hash := by
    decide +kernel
  obtain ⟨hhigh, hne, hgenesis, hne', hother⟩ := hfacts
  refine ⟨fun h hhash => ?_, fun h hhash => ?_⟩
  · obtain rfl := Except.ok.inj (hhigh.symm.trans hhash)
    have hnames : highNames lowBlock.previous_block_hash = highBlock := if_pos rfl
    exact ⟨hne, by rw [hnames], by rw [hnames]⟩
  · obtain rfl := Except.ok.inj (hgenesis.symm.trans hhash)
    have hnames : highNames (BlockStore.residueHash (genesis_block .residue)) = genesis_block .residue := if_neg hother
    exact ⟨hne', by rw [hnames], by rw [hnames]⟩

theorem high_taken {node : Node} {header : MessageHeader} (hnode : node.chain_manager.coinstate = zeroCoinstate) :
    Node.Taken .residue node ⟨1615757200, header, highBlock⟩ lowBlock.previous_block_hash highCoinstate := by
  obtain ⟨hself, _, hadd⟩ := CoinState.add_block_eq_ok.mp high_runs.2.1
  have hfacts : highBlock.hash .residue = .ok lowBlock.previous_block_hash ∧
      lowBlock.previous_block_hash ∉ zeroCoinstate.block_by_hash ∧
      highBlock.previous_block_hash ∈ zeroCoinstate.block_by_hash := by
    decide +kernel
  rw [← hnode] at hfacts hadd
  exact ⟨⟨hfacts.1, hfacts.2.1, hfacts.2.2, hself⟩, hadd⟩

theorem high_handled : ∃ node,
    Node.handle_block_received .residue ⟨1615757200, ⟨0, 2, 1, 0⟩, highBlock⟩ Node.genesisNode = (.ok (), node) ∧
    node.chain_manager.coinstate.head = .ok highBlock ∧ node.broadcast = Node.genesisNode.broadcast := by
  have hfacts : (Node.handle_block_received .residue ⟨1615757200, ⟨0, 2, 1, 0⟩, highBlock⟩ Node.genesisNode).1 =
      .ok () ∧ (Node.handle_block_received .residue ⟨1615757200, ⟨0, 2, 1, 0⟩, highBlock⟩
        Node.genesisNode).2.chain_manager.coinstate.head = .ok highBlock ∧
      (Node.handle_block_received .residue ⟨1615757200, ⟨0, 2, 1, 0⟩, highBlock⟩ Node.genesisNode).2.broadcast =
        Node.genesisNode.broadcast := by
    decide +kernel
  generalize Node.handle_block_received .residue ⟨1615757200, ⟨0, 2, 1, 0⟩, highBlock⟩ Node.genesisNode = handled
    at hfacts ⊢
  exact ⟨handled.2, Prod.ext hfacts.1 rfl, hfacts.2⟩

-- On top of the genesis block, a block that claims a height of 7, sent in
-- response. The next turn of the loop is the last.
theorem wrong_height_ends_loop_high :
    let taken := (handle_remote_peer_message .residue (quietMoment 1615757200) 0 ⟨0, 2, 1, 0⟩
      (.Data ⟨DATA_BLOCK, .Block highBlock⟩) (greetedThread Node.genesisNode)).2
    taken.node.chain_manager.coinstate.current_chain_hash = some lowBlock.previous_block_hash ∧
      (remaining .residue [] [⟨quietMoment 1700000040, 0, []⟩] taken).1 = .error .KeyError := by
  have hfacts : zeroCoinstate.head = .ok (genesis_block .residue) ∧
      zeroCoinstate.current_chain_hash = some highBlock.previous_block_hash ∧
      (genesis_block .residue).height + 1 < highBlock.height ∧
      ¬Node.ToValidate ⟨1615757200, ⟨0, 2, 1, 0⟩, highBlock⟩ := by
    decide +kernel
  obtain ⟨hnamed, hgenesis⟩ := high_well_named
  obtain ⟨node, hhandled, hlater, hbroadcast⟩ := high_handled
  have hnode : Node.genesisNode.chain_manager.coinstate = zeroCoinstate := by simp only [Node.genesisNode]
  have halive := greeted_alive (genesis_on_level hgenesis)
  have htaken : Node.Taken .residue (greetedThread Node.genesisNode).node
      ⟨(quietMoment 1615757200).current_time, ⟨0, 2, 1, 0⟩, highBlock⟩ lowBlock.previous_block_hash highCoinstate :=
    high_taken hnode
  rw [← hnode] at hfacts
  obtain ⟨hhead, hcurrent, hgap, hunchecked⟩ := hfacts
  -- The states themselves are too large to look into.
  generalize Node.genesisNode = genesis, highBlock = block, highCoinstate = next, lowBlock.previous_block_hash = hash
    at *
  intro taken
  obtain ⟨hagain, hends⟩ := wrong_height_ends_loop halive (greeted_open genesis).received hhead hcurrent hgap hnamed
    htaken (fun hchecked => absurd hchecked hunchecked) DATA_BLOCK
  have hrun : Node.handle_block_received .residue ⟨(quietMoment 1615757200).current_time, ⟨0, 2, 1, 0⟩, block⟩
      (greetedThread genesis).node = (.ok (), node) := hhandled
  have htold : node.broadcast = (greetedThread genesis).node.broadcast ++ [] :=
    hbroadcast.trans (List.append_nil _).symm
  have htaken_eq : taken = { (set_inventory 0 (Inventory.new.without hash) (greetedThread genesis)).2 with node } :=
    congrArg Prod.snd (block_run (greeted_open genesis) htaken.hash hrun htold DATA_BLOCK)
  have horderly : Spec (Orderly (fun sock => sock = 0) fun sock => sock = 0)
      (handle_remote_peer_message .residue (quietMoment 1615757200) 0 ⟨0, 2, 1, 0⟩ (.Data ⟨DATA_BLOCK, .Block block⟩))
      fun _ => Orderly (fun sock => sock = 0) fun sock => sock = 0 := by
    apply handle_remote_peer_message_orderly
    rfl
  have hasks := greeted_asks (congrArg NetworkingThread.local_peer htaken_eq) (horderly _ (greeted_orderly genesis))
    (quietMoment 1700000040)
  refine ⟨hagain, hends [] [] [] ⟨quietMoment 1700000040, 0, []⟩ taken (fun _ hnone => absurd hnone List.not_mem_nil)
    (fun _ hnone => absurd hnone List.not_mem_nil) rfl hagain ?_ ?_⟩
  · refine ⟨?_, List.ne_nil_of_mem (List.mem_filter.mpr ⟨hasks, ?_⟩)⟩
    · rw [htaken_eq, Fetching.should_actively_fetch_blocks, hlater]
      exact congrArg Except.ok (decide_eq_true (.inr (.inr rfl)))
    · have hlong : 0 + EMPTY_INVENTORY_BACKOFF < 1700000040 := by decide
      rw [htaken_eq]
      exact decide_eq_true hlong
  · rw [htaken_eq]
    exact Nat.zero_le _

end Sample

end NetworkingThread

end Skepticoin
