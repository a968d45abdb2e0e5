import Skepticoin.Datatypes.Equality
import Skepticoin.Lib.Flood
import Skepticoin.Networking.Gossip
import Skepticoin.Networking.InitialDownload
import Skepticoin.Networking.Node.Announcement

namespace Skepticoin

open Guard FMap Effect

variable {crypto : Crypto} {theirs : CoinState} {head : Block} {index : Map Nat Block} {m k : Nat}
  {start thread : NetworkingThread} {moment : Moment} {sock : Nat} {header : MessageHeader}

-- At which height of the new part of a chain the block of a message is, if
-- nobody has asked for it.
def told_height (index : Map Nat Block) (m : Nat) (envelope : Envelope) : Option Nat :=
  if envelope.1.in_response_to = 0 then
    envelope.2.block.bind fun block =>
      if m < block.height ∧ index.lookup block.height = some block then some block.height else none
  else none

section Messages

variable {envelope : Envelope} {i : Nat}

theorem Message.block_eq_some {message : Message} {block : Block} (h : message.block = some block) :
    ∃ data_type, message = .Data ⟨data_type, .Block block⟩ := by
  cases message with
  | Data message =>
      obtain ⟨data_type, data⟩ := message
      cases data with
      | Block other => exact ⟨data_type, by rw [Option.some.inj (h : some other = some block)]⟩
      | BlockHeader _ => cases h
      | Transaction _ => cases h
  | Hello _ => cases h
  | GetBlocks _ => cases h
  | Inventory _ => cases h
  | GetData _ => cases h
  | GetPeers => cases h
  | Peers _ => cases h

theorem told_height_eq_some (h : told_height index m envelope = some i) :
    m < i ∧ envelope.1.in_response_to = 0 ∧ ∃ block data_type, index.lookup i = some block ∧
      envelope.2 = .Data ⟨data_type, .Block block⟩ := by
  rw [told_height, Option.ite_none_right_eq_some] at h
  obtain ⟨hunasked, hblock⟩ := h
  obtain ⟨block, hmessage, hheight⟩ := Option.bind_eq_some_iff.mp hblock
  obtain ⟨hnew, hi⟩ := Option.ite_none_right_eq_some.mp hheight
  obtain ⟨data_type, hdata⟩ := Message.block_eq_some hmessage
  rw [← Option.some.inj hi]
  exact ⟨hnew.1, hunasked, block, data_type, hnew.2, hdata⟩

theorem told_height_block (hunasked : header.in_response_to = 0) {block : Block} (hlt : m < i)
    (hblock : index.lookup i = some block) (hheight : block.height = i) (data_type : FixedBytes 2) :
    told_height index m (header, .Data ⟨data_type, .Block block⟩) = some i := by
  subst hheight
  rw [told_height, if_pos hunasked]
  simp [Message.block, hlt, hblock]

end Messages

-- A chain whose blocks above a height are valid where they are.
structure NewBlocks (crypto : Crypto) (theirs : CoinState) (head : Block) (index : Map Nat Block) (m : Nat) : Prop where
  grown : ∃ entries, CoinState.Grown crypto entries theirs
  chain : ActiveChain crypto theirs head index
  zero : zero_hash ∉ theirs.block_by_hash
  valid : ∀ block ∈ chain_above index head m, validate_block_in_coinstate crypto block theirs = .ok ()

-- A thread that started with the chain up to one height, and has it up to
-- another one now.
structure Following (crypto : Crypto) (theirs : CoinState) (head : Block) (index : Map Nat Block) (m : Nat)
    (start : NetworkingThread) (k : Nat) (thread : NetworkingThread) : Prop where
  caught_up : CaughtUp crypto theirs m k thread.node.chain_manager.coinstate
  low : m ≤ k
  high : k ≤ head.height
  pool : PoolOrderly thread.node.chain_manager
  peers : NetworkingThread.SamePeers start thread
  writes : Node.WritesGo crypto true thread.node.block_store (chain_above index head k)
  on_disk : ∀ i, m < i → i ≤ k → ∀ block, index.lookup i = some block →
    BlockStore.OnDisk crypto thread.node.block_store.committed block

def Knows (crypto : Crypto) (theirs : CoinState) (m : Nat) (thread : NetworkingThread) (i : Nat) : Prop :=
  m < i ∧ ∃ h, AtHeight crypto theirs i h ∧ h ∈ thread.node.chain_manager.coinstate.block_by_hash

section Following

theorem Following.knows_iff (h : Following crypto theirs head index m start k thread)
    (hchain : ActiveChain crypto theirs head index) {i : Nat} : Knows crypto theirs m thread i ↔ m < i ∧ i ≤ k := by
  refine and_congr_right fun _ => ⟨?_, fun hle => ?_⟩
  · rintro ⟨hash, hat, hknown⟩
    by_contra habove
    exact h.caught_up.above i (Nat.not_le.mp habove) hash hat hknown
  · obtain ⟨hash, hat⟩ := hchain.exists_at (hle.trans h.high)
    exact ⟨hash, hat, h.caught_up.below i hle hash hat⟩

theorem mem_chain_above {i : Nat} (hlt : k < i) (hle : i ≤ head.height) {block : Block}
    (hblock : index.lookup i = some block) : block ∈ chain_above index head k :=
  List.mem_filterMap.mpr ⟨i, List.mem_range'_1.mpr (by omega), hblock⟩

-- The next block goes to everybody.
theorem Following.next (h : Following crypto theirs head index m start k thread)
    (hnew : NewBlocks crypto theirs head index m) (hverify : VerifyAnswers crypto) (hopen : start.Open sock)
    {block : Block} (hblock : index.lookup (k + 1) = some block) (hunasked : header.in_response_to = 0)
    (hself : validate_block_by_itself crypto block moment.current_time = .ok ()) (data_type : FixedBytes 2) :
    ∃ after sent, NetworkingThread.handles crypto moment sock (header, .Data ⟨data_type, .Block block⟩) thread =
        (after, sent) ∧ Following crypto theirs head index m start (k + 1) after ∧
      start.Tells ⟨DATA_BLOCK, .Block block⟩ sent := by
  obtain ⟨entries, htheirs⟩ := hnew.grown
  have hlt : k < head.height := (hnew.chain.heights _).mp (Finmap.mem_of_lookup_eq_some hblock)
  obtain ⟨hash, coinstate, hhash, hfresh, hparent, hverdict, hadd, hnext⟩ :=
    h.caught_up.next htheirs hnew.chain hnew.zero hblock
  obtain ⟨entries', hgrown⟩ := hnext.grown
  have hhead := hnext.head_at hnew.chain hblock (Nat.lt_succ_of_le h.low)
  have hwrites := h.writes
  rw [chain_above_next hlt hblock] at hwrites
  have htodo : Node.ToValidate ⟨moment.current_time, header, block⟩ := .inl hunasked
  have hgood : Node.Good crypto thread.node ⟨moment.current_time, header, block⟩ hash coinstate block := by
    refine ⟨⟨⟨hhash, hfresh, hparent, hself⟩, hadd⟩, hverdict.trans (hnew.valid block ?_), fun _ => ?_,
      hgrown.built, hhead⟩
    · exact mem_chain_above (Nat.lt_succ_of_le h.low) hlt hblock
    · exact hwrites.1 (.inl rfl)
  obtain ⟨transaction_pool, horderly, hrun⟩ := hgood.run hverify h.pool
  have htold : Node.announced ⟨moment.current_time, header, block⟩ block = [block] :=
    if_pos ⟨block_eq_iff.mpr rfl, hunasked⟩
  rw [htold] at hrun
  obtain ⟨after, sent, hhandles, hpeers, hnode, htells⟩ :=
    NetworkingThread.handles_told (h.peers.opened hopen) hhash hrun rfl data_type
  have hstored : after.node.block_store = (BlockStore.flush_blocks_to_disk crypto (thread.node.buffered block)).2 := by
    rw [hnode]
    exact Node.stored_checked htodo
  refine ⟨after, sent, hhandles, ⟨?_, by have := h.low; omega, hlt, ?_, h.peers.trans hpeers, ?_, ?_⟩, ?_⟩
  · rw [hnode]
    exact hnext
  · rw [hnode]
    exact ⟨horderly.by_itself, horderly.distinct⟩
  · have hunasked' : decide (header.in_response_to = 0) = true := decide_eq_true hunasked
    rw [hnode]
    show Node.WritesGo crypto true
      (Node.take_block crypto (decide (header.in_response_to = 0)) thread.node.block_store block) _
    rw [hunasked']
    exact hwrites.2
  · intro i hi hle other hother
    rw [hstored]
    cases Nat.lt_or_eq_of_le hle with
    | inl hbefore =>
        exact Node.flush_keeps ((h.on_disk i hi (Nat.le_of_lt_succ hbefore) other hother : BlockStore.OnDisk crypto
          (thread.node.buffered block).committed other))
    | inr heq =>
        rw [heq, hblock] at hother
        rw [← Option.some.inj hother]
        exact (Node.kept_received thread.node block).flush (hgood.written htodo)
  · refine ⟨fun other => (htells.sock other).trans (NetworkingThread.active_congr h.peers), ?_, htells.message⟩
    have hcount := htells.count
    rw [NetworkingThread.degree, h.peers.local_peer] at hcount
    exact hcount

-- A block that comes again goes nowhere.
theorem Following.again (h : Following crypto theirs head index m start k thread)
    (hchain : ActiveChain crypto theirs head index) (hopen : start.Open sock) {i : Nat} (hle : i ≤ k) {block : Block}
    (hblock : index.lookup i = some block) (data_type : FixedBytes 2) :
    ∃ after, NetworkingThread.handles crypto moment sock (header, .Data ⟨data_type, .Block block⟩) thread =
        (after, []) ∧ Following crypto theirs head index m start k after := by
  obtain ⟨_, hash, hhash, _⟩ := hchain.known i block hblock
  have hat : AtHeight crypto theirs i hash := hchain.at_height_iff.mpr ⟨block, hblock, hhash⟩
  have hrun : Node.handle_block_received crypto ⟨moment.current_time, header, block⟩ thread.node =
      (.ok (), thread.node) :=
    NetworkingThread.known_block_run hhash (h.caught_up.below i hle hash hat) moment.current_time
  obtain ⟨after, hhandles, hpeers, hnode⟩ :=
    NetworkingThread.handles_silent (h.peers.opened hopen) hhash hrun rfl data_type
  refine ⟨after, hhandles, ?_, h.low, h.high, ?_, h.peers.trans hpeers, ?_, ?_⟩
  · rw [hnode]
    exact h.caught_up
  · rw [hnode]
    exact h.pool
  · rw [hnode]
    exact h.writes
  · rw [hnode]
    exact h.on_disk

end Following

-- The flood of the new blocks, by their heights.
section Flood

variable {ι : Type} {starts : ι → NetworkingThread} {wire : ι → Nat → Option (ι × Nat)}

-- A block needs the one below it.
def Rests (m i j : Nat) : Prop := m < j ∧ j + 1 = i

-- The clock lets the blocks pass.
def LateEnough (crypto : Crypto) (head : Block) (index : Map Nat Block) (m : Nat) (moment : Moment) : Prop :=
  ∀ block ∈ chain_above index head m, validate_block_by_itself crypto block moment.current_time = .ok ()

def waiting (crypto : Crypto) (head : Block) (index : Map Nat Block) (start thread : NetworkingThread) : Nat :=
  (missing crypto thread.node.chain_manager.coinstate head index).length * start.degree

theorem chain_above_length (hchain : ActiveChain crypto theirs head index) :
    (chain_above index head k).length = head.height - k := by
  have hall : ∀ n i, i + n ≤ head.height + 1 → ((List.range' i n).filterMap index.lookup).length = n := by
    intro n
    induction n with
    | zero => exact fun _ _ => rfl
    | succ n ih =>
        intro i hi
        obtain ⟨block, hblock⟩ := Finmap.mem_iff.mp ((hchain.heights i).mpr (by omega))
        rw [List.range'_succ, List.filterMap_cons, hblock, List.length_cons, ih (i + 1) (by omega)]
  by_cases hle : k ≤ head.height
  · exact hall (head.height - k) (k + 1) (by omega)
  · have hnone : head.height - k = 0 := by omega
    rw [chain_above, hnone]
    rfl

theorem Following.waiting_eq (h : Following crypto theirs head index m start k thread)
    (hchain : ActiveChain crypto theirs head index) :
    waiting crypto head index start thread = (head.height - k) * start.degree := by
  rw [waiting, h.caught_up.missing_eq hchain h.high, chain_above_length hchain]

theorem following_takes (hnew : NewBlocks crypto theirs head index m) (hverify : VerifyAnswers crypto)
    (hlate : LateEnough crypto head index m moment) (hopen : start.Open sock) {envelope : Envelope} {i : Nat}
    (hitem : told_height index m envelope = some i) (h : Following crypto theirs head index m start k thread)
    (hneeds : ∀ j, Rests m i j → Knows crypto theirs m thread j) :
    Flood.Takes (told_height index m) (fun thread => ∃ k, Following crypto theirs head index m start k thread)
      (Knows crypto theirs m) start.Active (waiting crypto head index start) i thread
      (NetworkingThread.handles crypto moment sock envelope thread) := by
  obtain ⟨hlt, hunasked, block, data_type, hblock, hmessage⟩ := told_height_eq_some hitem
  obtain ⟨hheight, _⟩ := hnew.chain.known i block hblock
  have hhigh : i ≤ head.height := Nat.le_of_lt_succ (by
    have := (hnew.chain.heights i).mp (Finmap.mem_of_lookup_eq_some hblock)
    omega)
  obtain ⟨header, message⟩ := envelope
  subst hmessage
  by_cases hknown : i ≤ k
  · obtain ⟨after, hhandles, hafter⟩ := h.again hnew.chain hopen hknown hblock data_type
    rw [hhandles]
    refine ⟨⟨k, hafter⟩, fun j => ?_, fun _ hmem => absurd hmem List.not_mem_nil, fun hunknown => ?_, ?_⟩
    · rw [hafter.knows_iff hnew.chain, h.knows_iff hnew.chain]
      refine ⟨.inl, fun hj => hj.elim id fun heq => heq ▸ ⟨hlt, hknown⟩⟩
    · exact absurd ((h.knows_iff hnew.chain).mpr ⟨hlt, hknown⟩) hunknown
    · rw [hafter.waiting_eq hnew.chain, h.waiting_eq hnew.chain]
      exact (Nat.zero_add _).le
  · have hnext : i = k + 1 := by
      by_cases hbase : i = m + 1
      · have := h.low
        omega
      · have hbelow := (h.knows_iff hnew.chain).mp (hneeds (i - 1) ⟨by omega, by omega⟩)
        omega
    subst hnext
    obtain ⟨after, sent, hhandles, hafter, htells⟩ :=
      h.next hnew hverify hopen hblock hunasked (hlate block (mem_chain_above hlt hhigh hblock)) data_type
    rw [hhandles]
    refine ⟨⟨k + 1, hafter⟩, fun j => ?_, fun entry hentry => ⟨?_, ?_⟩, fun _ other hother => ?_, ?_⟩
    · rw [hafter.knows_iff hnew.chain, h.knows_iff hnew.chain]
      omega
    · exact (htells.sock entry.1).mp (List.mem_map_of_mem hentry)
    · obtain ⟨hresponse, hdata⟩ := htells.message entry hentry
      have hpair : entry.2 = (entry.2.1, .Data ⟨DATA_BLOCK, .Block block⟩) := Prod.ext rfl hdata
      rw [hpair]
      exact told_height_block hresponse hlt hblock hheight DATA_BLOCK
    · obtain ⟨entry, hentry, rfl⟩ := List.mem_map.mp ((htells.sock other).mpr hother)
      exact ⟨entry.2, hentry⟩
    · rw [hafter.waiting_eq hnew.chain, h.waiting_eq hnew.chain]
      have hcount := htells.count
      have hfewer : head.height - k = head.height - (k + 1) + 1 := by omega
      rw [hfewer, Nat.add_mul, Nat.one_mul]
      show sent.length + _ ≤ _
      omega

theorem flooding_takes (hnew : NewBlocks crypto theirs head index m) (hverify : VerifyAnswers crypto) :
    ∀ (i : ι) moment sock envelope thread x, (∃ k, Following crypto theirs head index m (starts i) k thread) →
      LateEnough crypto head index m moment → (starts i).Open sock → told_height index m envelope = some x →
      (∀ y, Rests m x y → Knows crypto theirs m thread y) →
      Flood.Takes (told_height index m) (fun thread => ∃ k, Following crypto theirs head index m (starts i) k thread)
        (Knows crypto theirs m) (starts i).Active (waiting crypto head index (starts i)) x thread
        (NetworkingThread.handles crypto moment sock envelope thread) := by
  rintro i moment sock envelope thread x ⟨k, h⟩ hlate hopen hitem hneeds
  exact following_takes hnew hverify hlate hopen hitem h hneeds

def flooding (hnew : NewBlocks crypto theirs head index m) (hverify : VerifyAnswers crypto)
    (hwired : ∀ i sock port, wire i sock = some port → (starts port.1).Open port.2) :
    Flood.Flooding ι Moment NetworkingThread Envelope Nat where
  handle := NetworkingThread.handles crypto
  wire := wire
  item := told_height index m
  needs := Rests m
  inv i thread := ∃ k, Following crypto theirs head index m (starts i) k thread
  has := Knows crypto theirs m
  linked i sock := (starts i).Active sock
  listens i sock := (starts i).Open sock
  cost i := waiting crypto head index (starts i)
  fits := LateEnough crypto head index m
  wired := hwired
  takes := flooding_takes hnew hverify

-- A chain that comes from the bottom comes in order.
theorem chain_in_order (hchain : ActiveChain crypto theirs head index) (hm : m ≤ k) {headers : Block → MessageHeader}
    (hunasked : ∀ block, (headers block).in_response_to = 0) (hk : k ≤ head.height) :
    Flood.InOrder (told_height index m) (Rests m) (fun i => m < i ∧ i ≤ k)
      ((chain_above index head k).map fun block => (headers block, .Data ⟨DATA_BLOCK, .Block block⟩)) := by
  induction hdepth : head.height - k generalizing k with
  | zero =>
      rw [chain_above, hdepth]
      trivial
  | succ depth ih =>
      obtain ⟨block, hblock⟩ := Finmap.mem_iff.mp ((hchain.heights (k + 1)).mpr (by omega))
      obtain ⟨hheight, _⟩ := hchain.known (k + 1) block hblock
      rw [chain_above_next (by omega) hblock, List.map_cons]
      refine ⟨k + 1, told_height_block (hunasked block) (by omega) hblock hheight DATA_BLOCK, ?_, ?_⟩
      · rintro j ⟨hj, hnext⟩
        omega
      · refine (ih (by omega) (by omega) (by omega)).mono fun i hi => ?_
        omega

-- A node at the start knows nothing of the new blocks.
theorem following_start (hcaught : CaughtUp crypto theirs m m start.node.chain_manager.coinstate)
    (hm : m ≤ head.height) (hpool : PoolOrderly start.node.chain_manager)
    (hwrites : Node.WritesGo crypto true start.node.block_store (chain_above index head m)) :
    Following crypto theirs head index m start m start :=
  ⟨hcaught, Nat.le_refl m, hm, hpool, ⟨rfl, fun _ => rfl⟩, hwrites, fun _ hlt hle => absurd hlt (Nat.not_lt.mpr hle)⟩

-- What is to come when blocks are sent to nodes that have none of them.
theorem flooding_load [Fintype ι] [DecidableEq ι] (hnew : NewBlocks crypto theirs head index m)
    (hverify : VerifyAnswers crypto)
    (hwired : ∀ i sock port, wire i sock = some port → (starts port.1).Open port.2)
    (hstart : ∀ i, Following crypto theirs head index m (starts i) m (starts i)) (port : ι × Nat)
    (sent : List Envelope) :
    Flood.load (flooding hnew hverify hwired) ⟨starts, sent.map fun envelope => (port, envelope)⟩ =
      sent.length + (head.height - m) * ∑ i, (starts i).degree := by
  have hsum : ∑ i, waiting crypto head index (starts i) (starts i) =
      (head.height - m) * ∑ i, (starts i).degree := by
    rw [Finset.mul_sum]
    exact Finset.sum_congr rfl fun i _ => (hstart i).waiting_eq hnew.chain
  rw [← hsum]
  show (sent.map _).length + _ = _
  rw [List.length_map]
  rfl

end Flood

-- What a node has at the end.
structure Reached (crypto : Crypto) (head : Block) (blocks : List Block) (node : Node) : Prop where
  head : node.chain_manager.coinstate.head = .ok head
  on_disk : ∀ block ∈ blocks, BlockStore.OnDisk crypto node.block_store.committed block

theorem Following.reached (h : Following crypto theirs head index m start k thread)
    (hconsistent : Consistent crypto theirs) (hchain : ActiveChain crypto theirs head index) (hm : m < head.height)
    (hknows : Knows crypto theirs m thread head.height) :
    Reached crypto head (chain_above index head m) thread.node := by
  have htop : k = head.height := Nat.le_antisymm h.high ((h.knows_iff hchain).mp hknows).2
  subst htop
  refine ⟨h.caught_up.head_at hchain (hconsistent.head_at hchain) hm, fun block hblock => ?_⟩
  obtain ⟨i, hi, hlookup⟩ := List.mem_filterMap.mp hblock
  have hrange := List.mem_range'_1.mp hi
  exact h.on_disk i (by omega) (by omega) block hlookup

-- Some peer sends a node new blocks on top of a chain that all nodes have, one
-- after another. However the nodes are connected, and in whatever order the
-- messages arrive on different connections, the flood comes to an end, and then
-- every node that there is a way to has the new head, and the blocks on disk.
theorem blocks_gossip {ι : Type} [Fintype ι] [DecidableEq ι] {starts : ι → NetworkingThread}
    {wire : ι → Nat → Option (ι × Nat)} {entries : List (Hash × Block)}
    (htheirs : CoinState.Grown crypto entries theirs) (hconsistent : Consistent crypto theirs)
    (hhead : theirs.head = .ok head) (hindex : theirs.by_height_at_head = .ok index) (hm : m < head.height)
    (hvalid : ∀ block ∈ chain_above index head m, validate_block_in_coinstate crypto block theirs = .ok ())
    (hverify : VerifyAnswers crypto)
    (hcaught : ∀ i, CaughtUp crypto theirs m m (starts i).node.chain_manager.coinstate)
    (hpool : ∀ i, PoolOrderly (starts i).node.chain_manager)
    (hwrites : ∀ i, Node.WritesGo crypto true (starts i).node.block_store (chain_above index head m))
    (hwired : ∀ i sock port, wire i sock = some port → (starts port.1).Open port.2) {origin : ι}
    (hopen : (starts origin).Open sock) {headers : Block → MessageHeader}
    (hunasked : ∀ block, (headers block).in_response_to = 0) {schedule : List ((ι × Nat) × Moment)}
    (hlate : ∀ arrival ∈ schedule, LateEnough crypto head index m arrival.2)
    {reached : Flood.Network ι NetworkingThread Envelope}
    (hrun : Duplex.run (Flood.step (NetworkingThread.handles crypto) wire) schedule ⟨starts,
      (chain_above index head m).map fun block =>
        ((origin, sock), (headers block, .Data ⟨DATA_BLOCK, .Block block⟩))⟩ = some reached) :
    schedule.length ≤ (head.height - m) * (1 + ∑ i, (starts i).degree) ∧
      (reached.flight = [] → ∀ j, Relation.ReflTransGen (TellsOn starts wire) origin j →
        Reached crypto head (chain_above index head m) (reached.node j).node) := by
  obtain ⟨index', hchain⟩ := hconsistent.active_chain_of_head hhead
  rw [← Except.ok.inj (hindex.symm.trans hchain.by_height)] at hchain
  have hnew : NewBlocks crypto theirs head index m := ⟨⟨entries, htheirs⟩, hchain, hconsistent.indexed.1, hvalid⟩
  have hstart : ∀ i, Following crypto theirs head index m (starts i) m (starts i) :=
    fun i => following_start (hcaught i) (Nat.le_of_lt hm) (hpool i) (hwrites i)
  have hnothing : ∀ i j, ¬Knows crypto theirs m (starts i) j := by
    intro i j hknows
    have hrange := ((hstart i).knows_iff hchain).mp hknows
    omega
  have hflight : ((chain_above index head m).map fun block =>
      ((origin, sock), (headers block, Message.Data ⟨DATA_BLOCK, .Block block⟩))) =
      ((chain_above index head m).map fun block => (headers block, Message.Data ⟨DATA_BLOCK, .Block block⟩)).map
        fun envelope => ((origin, sock), envelope) := by
    rw [List.map_map]
    rfl
  rw [hflight] at hrun
  generalize hsent : ((chain_above index head m).map fun block =>
    (headers block, Message.Data ⟨DATA_BLOCK, .Block block⟩)) = sent at hrun
  have horder : Flood.InOrder (told_height index m) (Rests m) (fun i => m < i ∧ i ≤ m) sent :=
    hsent ▸ chain_in_order hchain (Nat.le_refl m) hunasked (Nat.le_of_lt hm)
  have hflooded : Flood.Flooded (flooding hnew hverify hwired)
      ⟨starts, sent.map fun envelope => ((origin, sock), envelope)⟩ := by
    refine ⟨fun i => ⟨m, hstart i⟩, fun entry hentry => ?_, fun port => ?_, fun i _ _ _ _ j hknows => ?_⟩
    · obtain ⟨envelope, _, rfl⟩ := List.mem_map.mp hentry
      exact hopen
    · rw [Flood.channel_map]
      split_ifs
      · exact horder.mono fun i hi => absurd hi.1 (Nat.not_lt.mpr hi.2)
      · trivial
    · exact absurd hknows (hnothing i j)
  have hran := hflooded.run hlate hrun
  refine ⟨?_, fun hend j hway => ?_⟩
  · have hload := hran.load
    have hcount : sent.length = head.height - m := by
      rw [← hsent, List.length_map, chain_above_length hchain]
    rw [flooding_load hnew hverify hwired hstart (origin, sock) sent, hcount] at hload
    rw [Nat.mul_add, Nat.mul_one]
    omega
  · have hdue : Flood.Due (flooding hnew hverify hwired)
        ⟨starts, sent.map fun envelope => ((origin, sock), envelope)⟩ (origin, sock) head.height := by
      obtain ⟨block, hblock⟩ := Finmap.mem_iff.mp ((hchain.heights head.height).mpr (Nat.le_refl _))
      obtain ⟨hheight, _⟩ := hchain.known head.height block hblock
      refine .inr ⟨(headers block, .Data ⟨DATA_BLOCK, .Block block⟩), ?_,
        told_height_block (hunasked block) hm hblock hheight DATA_BLOCK⟩
      rw [Flood.channel_map, if_pos rfl, ← hsent]
      exact List.mem_map_of_mem (mem_chain_above hm (Nat.le_refl _) hblock)
    have horigin := Flood.due_nothing hend (hran.due _ _ hdue)
    obtain ⟨k, hfollowing⟩ := hran.flooded.inv j
    exact hfollowing.reached hconsistent hchain hm (hran.flooded.reaches hend hway horigin)

section Sample

def pairedStart (_ : Bool) : NetworkingThread := paired Node.genesisNode

theorem genesis_coinstate : Node.genesisNode.chain_manager.coinstate = zeroCoinstate := by
  simp only [Node.genesisNode]

-- Only the genesis block is known.
theorem genesis_caught_up {coinstate : CoinState} {h : Hash}
    (hgrown : CoinState.Grown .residue [(h, genesis_block .residue)] coinstate)
    (hnames : CoinState.Compatible coinstate BlockStore.firstCoinstate)
    (hhead : coinstate.head = .ok (genesis_block .residue)) (hat : AtHeight .residue BlockStore.firstCoinstate 0 h) :
    CaughtUp .residue BlockStore.firstCoinstate 0 0 coinstate := by
  obtain ⟨_, hhead', hhigher, _⟩ := zero_first_heads
  have hheights : (genesis_block .residue).height = 0 ∧ BlockStore.firstSibling.height = 1 := by decide +kernel
  have hknown : h ∈ coinstate.block_by_hash := hgrown.represents.mem_known.mpr (List.mem_singleton_self h)
  obtain ⟨m, hm, hcaught⟩ :=
    caught_up_start hgrown zero_first_consistent.2 hnames hhead hhead' hhigher hknown hat
  rw [hheights.1] at hcaught
  rw [hheights.2, Nat.lt_one_iff] at hm
  exact hm ▸ hcaught

theorem paired_caught_up (i : Bool) :
    CaughtUp .residue BlockStore.firstCoinstate 0 0 (pairedStart i).node.chain_manager.coinstate := by
  rw [pairedStart, paired_node, genesis_coinstate]
  exact genesis_caught_up genesis_grown zero_first_compatible zero_first_heads.1 zero_first_bottom.2

theorem paired_writes (i : Bool) :
    Node.WritesGo .residue true (pairedStart i).node.block_store [BlockStore.firstSibling] := by
  have hwrite : (BlockStore.flush_blocks_to_disk .residue
      { BlockStore.newStore with
        write_buffer := BlockStore.newStore.write_buffer ++ [BlockStore.firstSibling] }).1 = .ok () := by
    decide +kernel
  exact ⟨fun _ => hwrite, trivial⟩

theorem blocks_gossip_pair :
    ∃ most ≤ 3, ∀ schedule reached, (∀ arrival ∈ schedule, arrival.2.current_time = 1700000000) →
      Duplex.run (Flood.step (NetworkingThread.handles .residue) pairedWire) schedule ⟨pairedStart,
        [((false, 0), (⟨0, 1, 0, 0⟩, .Data ⟨DATA_BLOCK, .Block BlockStore.firstSibling⟩))]⟩ = some reached →
      schedule.length ≤ most ∧ (reached.flight = [] →
        Reached .residue BlockStore.firstSibling [BlockStore.firstSibling] (reached.node true).node) := by
  refine ⟨3, Nat.le_refl 3, fun schedule reached htimes hrun => ?_⟩
  obtain ⟨_, hhead, _, hindex⟩ := zero_first_heads
  have hheight : BlockStore.firstSibling.height = 1 := by decide +kernel
  have habove : chain_above firstIndex BlockStore.firstSibling 0 = [BlockStore.firstSibling] := by decide +kernel
  have hverdicts : validate_block_by_itself .residue BlockStore.firstSibling 1700000000 = .ok () ∧
      validate_block_in_coinstate .residue BlockStore.firstSibling BlockStore.firstCoinstate = .ok () := by
    decide +kernel
  have hvalid : ∀ block ∈ chain_above firstIndex BlockStore.firstSibling 0,
      validate_block_in_coinstate .residue block BlockStore.firstCoinstate = .ok () := by
    rw [habove]
    exact List.forall_mem_singleton.mpr hverdicts.2
  have hlate : ∀ arrival ∈ schedule, LateEnough .residue BlockStore.firstSibling firstIndex 0 arrival.2 := by
    intro arrival harrival
    rw [LateEnough, habove, htimes arrival harrival]
    exact List.forall_mem_singleton.mpr hverdicts.1
  have hwrites : ∀ i, Node.WritesGo .residue true (pairedStart i).node.block_store
      (chain_above firstIndex BlockStore.firstSibling 0) := by
    rw [habove]
    exact paired_writes
  have hpool : ∀ i, PoolOrderly (pairedStart i).node.chain_manager := by
    have hvalid : PoolValid .residue Node.genesisNode.chain_manager := pool_valid_empty rfl
    exact fun _ => hvalid.toPoolOrderly
  have hpositive : 0 < BlockStore.firstSibling.height := by
    rw [hheight]
    exact Nat.one_pos
  have hrun' : Duplex.run (Flood.step (NetworkingThread.handles .residue) pairedWire) schedule ⟨pairedStart,
      (chain_above firstIndex BlockStore.firstSibling 0).map fun block =>
        ((false, 0), (⟨0, 1, 0, 0⟩, .Data ⟨DATA_BLOCK, .Block block⟩))⟩ = some reached := by
    rw [habove]
    exact hrun
  have hdegree : ∀ i, (pairedStart i).degree = 1 := fun _ => paired_degree Node.genesisNode
  have hdegrees : ∑ i, (pairedStart i).degree = 2 := by
    rw [Finset.sum_congr rfl fun i _ => hdegree i]
    rfl
  have hactive : (pairedStart false).Active 0 := paired_active Node.genesisNode
  have hwired : ∀ i sock port, pairedWire i sock = some port → (pairedStart port.1).Open port.2 :=
    paired_wired Node.genesisNode
  have hcaught := paired_caught_up
  -- The states themselves are too large to look into.
  generalize pairedStart = starts, firstIndex = index, BlockStore.firstSibling = sibling at *
  have hgossip := blocks_gossip BlockStore.first_validated.grown zero_first_consistent.2 hhead hindex hpositive hvalid
    residue_answers hcaught hpool hwrites hwired (hwired true 0 (false, 0) rfl) (fun _ => rfl) hlate hrun'
  rw [habove, hheight, hdegrees] at hgossip
  exact ⟨hgossip.1, fun hend => hgossip.2 hend true (.single ⟨0, 0, hactive, rfl⟩)⟩

end Sample

end Skepticoin
