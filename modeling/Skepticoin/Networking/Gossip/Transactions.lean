import Skepticoin.Lib.Flood
import Skepticoin.Networking.Gossip

namespace Skepticoin

open Guard FMap Effect

def Message.transaction : Message → Option Transaction
  | .Data message =>
    match message.data with
    | .Transaction transaction => some transaction
    | _ => none
  | _ => none

variable {crypto : Crypto} {transactions taken : List Transaction} {transaction : Transaction}
  {start thread : NetworkingThread} {moment : Moment} {sock : Nat} {header : MessageHeader}

theorem Message.transaction_eq_some {message : Message} (h : message.transaction = some transaction) :
    ∃ data_type, message = .Data ⟨data_type, .Transaction transaction⟩ := by
  cases message with
  | Data message =>
      obtain ⟨data_type, data⟩ := message
      cases data with
      | Transaction other => exact ⟨data_type, by rw [Option.some.inj (h : some other = some transaction)]⟩
      | BlockHeader _ => cases h
      | Block _ => cases h
  | Hello _ => cases h
  | GetBlocks _ => cases h
  | Inventory _ => cases h
  | GetData _ => cases h
  | GetPeers => cases h
  | Peers _ => cases h

-- Which of some transactions a message tells of.
def told_transaction (transactions : List Transaction) (envelope : Envelope) : Option Transaction :=
  envelope.2.transaction.filter fun transaction => decide (transaction ∈ transactions)

theorem told_transaction_eq_some {envelope : Envelope} :
    told_transaction transactions envelope = some transaction ↔
      envelope.2.transaction = some transaction ∧ transaction ∈ transactions := by
  rw [told_transaction, Option.filter_eq_some_iff, decide_eq_true_iff]

-- Transactions that a node can take in any order: each is valid at its head,
-- and none spends what another one, or one in the pool, spends.
structure Takable (crypto : Crypto) (transactions : List Transaction) (manager : ChainManager) : Prop where
  by_itself : ∀ t ∈ transactions, validate_non_coinbase_transaction_by_itself t = .ok ()
  in_coinstate : ∀ t ∈ transactions, manager.validate_in_current_coinstate crypto t = .ok ()
  distinct : ((manager.transaction_pool ++ transactions).flatMap output_references).Nodup

-- A thread that has taken some of them.
structure Pooling (transactions : List Transaction) (start : NetworkingThread) (taken : List Transaction)
    (thread : NetworkingThread) : Prop where
  coinstate : thread.node.chain_manager.coinstate = start.node.chain_manager.coinstate
  pool : thread.node.chain_manager.transaction_pool = start.node.chain_manager.transaction_pool ++ taken
  once : taken.Nodup
  subset : taken ⊆ transactions
  peers : NetworkingThread.SamePeers start thread

section Taking

theorem references_of_eq {a b : Transaction} (h : a.eq b = true) : output_references a = output_references b := by
  have hinputs : a.inputs.map Input.forget_height = b.inputs.map Input.forget_height :=
    congrArg Transaction.inputs ((transaction_eq_iff a b).mp h)
  have hreferences := congrArg (List.map Input.output_reference) hinputs
  rw [List.map_map, List.map_map] at hreferences
  exact hreferences

theorem some_reference (h : validate_non_coinbase_transaction_by_itself transaction = .ok ()) :
    ∃ reference, reference ∈ output_references transaction := by
  obtain ⟨hinputs, _⟩ := validate_non_coinbase_transaction_by_itself_eq_ok.mp h
  obtain ⟨input, hinput⟩ := List.exists_mem_of_ne_nil _ hinputs
  exact ⟨_, List.mem_map_of_mem hinput⟩

theorem transaction_hash_ok (h : validate_non_coinbase_transaction_by_itself transaction = .ok ()) :
    ∃ hash, transaction.hash crypto = .ok hash := by
  obtain ⟨_, _, ⟨bytes, hbytes, _⟩, _⟩ := validate_non_coinbase_transaction_by_itself_eq_ok.mp h
  rw [Transaction.hash]
  cases transaction.cached_hash with
  | some hash => exact ⟨hash, rfl⟩
  | none => exact ⟨crypto.sha256d bytes, by rw [hbytes]; rfl⟩

-- What spends the same output is the same transaction.
theorem Takable.unique {manager : ChainManager} (h : Takable crypto transactions manager) {a b : Transaction}
    (ha : a ∈ transactions) (hb : b ∈ transactions) {reference : OutputReference}
    (hreference : reference ∈ output_references a) (hreference' : reference ∈ output_references b) : a = b := by
  have hdistinct := h.distinct
  rw [List.flatMap_append] at hdistinct
  have hpairwise := (List.nodup_flatMap.mp (List.Nodup.of_append_right hdistinct)).2
  by_contra hne
  have hsymm : Std.Symm (Function.onFun List.Disjoint output_references) := ⟨fun _ _ hdisjoint => hdisjoint.symm⟩
  exact hpairwise.forall ha hb hne hreference hreference'

theorem Pooling.mem_iff (h : Pooling transactions start taken thread)
    (hnew : Takable crypto transactions start.node.chain_manager) {t : Transaction} (ht : t ∈ transactions) :
    t ∈ thread.node.chain_manager.transaction_pool ↔ t ∈ taken := by
  rw [h.pool, List.mem_append]
  refine or_iff_right fun hold => ?_
  obtain ⟨reference, hreference⟩ := some_reference (hnew.by_itself t ht)
  have hdistinct := hnew.distinct
  rw [List.flatMap_append] at hdistinct
  exact List.disjoint_of_nodup_append hdistinct (List.mem_flatMap.mpr ⟨t, hold, hreference⟩)
    (List.mem_flatMap.mpr ⟨t, ht, hreference⟩)

-- What is new is not equal to anything in the pool.
theorem Pooling.unequal (h : Pooling transactions start taken thread)
    (hnew : Takable crypto transactions start.node.chain_manager) (ht : transaction ∈ transactions)
    (hnot : transaction ∉ taken) :
    ∀ pooled ∈ thread.node.chain_manager.transaction_pool, pooled.eq transaction = false := by
  intro pooled hpooled
  rw [← Bool.not_eq_true]
  intro heq
  obtain ⟨reference, hreference⟩ := some_reference (hnew.by_itself transaction ht)
  have hpooled' : reference ∈ output_references pooled := (references_of_eq heq).symm ▸ hreference
  rw [h.pool] at hpooled
  cases List.mem_append.mp hpooled with
  | inl hold =>
      have hdistinct := hnew.distinct
      rw [List.flatMap_append] at hdistinct
      exact List.disjoint_of_nodup_append hdistinct (List.mem_flatMap.mpr ⟨pooled, hold, hpooled'⟩)
        (List.mem_flatMap.mpr ⟨transaction, ht, hreference⟩)
  | inr htaken => exact hnot (hnew.unique (h.subset htaken) ht hpooled' hreference ▸ htaken)

theorem Pooling.append (h : Pooling transactions start taken thread) (ht : transaction ∈ transactions)
    (hnot : transaction ∉ taken) : (taken ++ [transaction]).Nodup ∧ taken ++ [transaction] ⊆ transactions := by
  refine ⟨List.nodup_append'.mpr ⟨h.once, List.nodup_singleton _, ?_⟩, ?_⟩
  · exact fun _ hmem hsingle => hnot (List.mem_singleton.mp hsingle ▸ hmem)
  · exact List.append_subset.mpr ⟨h.subset, fun _ hmem => List.mem_singleton.mp hmem ▸ ht⟩

theorem Pooling.valid (h : Pooling transactions start taken thread)
    (hnew : Takable crypto transactions start.node.chain_manager) (ht : transaction ∈ transactions)
    (hnot : transaction ∉ taken) : thread.node.chain_manager.validate_for_pool crypto transaction = .ok () := by
  obtain ⟨honce, hsubset⟩ := h.append ht hnot
  obtain ⟨chosen, hperm, hsublist⟩ := honce.subperm hsubset
  have hcurrent : thread.node.chain_manager.validate_in_current_coinstate crypto transaction = .ok () := by
    have hvalid := hnew.in_coinstate transaction ht
    rw [ChainManager.validate_in_current_coinstate] at hvalid ⊢
    rw [h.coinstate]
    exact hvalid
  have hdistinct : ((thread.node.chain_manager.transaction_pool ++ [transaction]).flatMap output_references).Nodup := by
    have hall : ((start.node.chain_manager.transaction_pool ++ chosen).flatMap output_references).Nodup :=
      ((hsublist.append_left _).flatMap output_references).nodup hnew.distinct
    rw [h.pool, List.append_assoc]
    exact ((hperm.append_left _).flatMap_right output_references).nodup_iff.mp hall
  simp only [ChainManager.validate_for_pool, bind_eq_ok]
  exact ⟨(), hnew.by_itself transaction ht, (), hcurrent,
    noRepeat_eq_ok.mpr ⟨hdistinct, fun _ _ => List.not_mem_nil⟩⟩

end Taking

-- The flood of the transactions.
section Flood

variable {ι : Type} {starts : ι → NetworkingThread} {wire : ι → Nat → Option (ι × Nat)}

def Holds (transactions : List Transaction) (thread : NetworkingThread) (transaction : Transaction) : Prop :=
  transaction ∈ transactions ∧ transaction ∈ thread.node.chain_manager.transaction_pool

-- How many messages the transactions that have not been taken will cause.
def untold (transactions : List Transaction) (start thread : NetworkingThread) : Nat :=
  (start.node.chain_manager.transaction_pool.length + transactions.length -
    thread.node.chain_manager.transaction_pool.length) * start.degree

theorem pooling_takes (hnew : Takable crypto transactions start.node.chain_manager) (hopen : start.Open sock)
    {envelope : Envelope} (hitem : told_transaction transactions envelope = some transaction)
    (h : Pooling transactions start taken thread) :
    Flood.Takes (told_transaction transactions) (fun thread => ∃ taken, Pooling transactions start taken thread)
      (Holds transactions) start.Active (untold transactions start) transaction thread
      (NetworkingThread.handles crypto moment sock envelope thread) := by
  obtain ⟨hmessage, ht⟩ := told_transaction_eq_some.mp hitem
  obtain ⟨data_type, hmessage⟩ := Message.transaction_eq_some hmessage
  obtain ⟨header, message⟩ := envelope
  have hsame : message = .Data ⟨data_type, .Transaction transaction⟩ := hmessage
  subst hsame
  have hopened := h.peers.opened hopen
  by_cases hknown : transaction ∈ taken
  · have hpooled := (h.mem_iff hnew ht).mpr hknown
    rw [NetworkingThread.handles_pooled hopened hpooled data_type]
    refine ⟨⟨taken, h⟩, fun other => ?_, fun _ hmem => absurd hmem List.not_mem_nil, fun hunknown => ?_, ?_⟩
    · exact ⟨.inl, fun hor => hor.elim id fun heq => heq ▸ ⟨ht, hpooled⟩⟩
    · exact absurd ⟨ht, hpooled⟩ hunknown
    · exact (Nat.zero_add _).le
  · obtain ⟨hash, hhash⟩ : ∃ hash, transaction.hash crypto = .ok hash :=
      transaction_hash_ok (hnew.by_itself transaction ht)
    obtain ⟨after, sent, hhandles, hpeers, hnode, htells⟩ := NetworkingThread.handles_taken hopened hhash
      (h.unequal hnew ht hknown) (h.valid hnew ht hknown) data_type
    obtain ⟨honce, hsubset⟩ := h.append ht hknown
    have hpool : after.node.chain_manager.transaction_pool =
        thread.node.chain_manager.transaction_pool ++ [transaction] := by
      rw [hnode]
      rfl
    have hafter : Pooling transactions start (taken ++ [transaction]) after := by
      refine ⟨?_, ?_, honce, hsubset, h.peers.trans hpeers⟩
      · rw [hnode]
        exact h.coinstate
      · rw [hpool, h.pool, List.append_assoc]
    rw [hhandles]
    refine ⟨⟨_, hafter⟩, fun other => ?_, fun entry hentry => ⟨?_, ?_⟩, fun _ other hother => ?_, ?_⟩
    · rw [Holds, Holds, hpool, List.mem_append, List.mem_singleton, and_or_left]
      exact or_congr_right ⟨And.right, fun heq => ⟨heq ▸ ht, heq⟩⟩
    · exact (NetworkingThread.active_congr h.peers).mp ((htells.sock entry.1).mp (List.mem_map_of_mem hentry))
    · refine told_transaction_eq_some.mpr ⟨?_, ht⟩
      rw [(htells.message entry hentry).2]
      rfl
    · have hactive := (htells.sock other).mpr ((NetworkingThread.active_congr h.peers).mpr hother)
      obtain ⟨entry, hentry, rfl⟩ := List.mem_map.mp hactive
      exact ⟨entry.2, hentry⟩
    · have hcount := htells.count
      rw [NetworkingThread.degree, h.peers.local_peer] at hcount
      have hroom := (honce.subperm hsubset).length_le
      have hlength : thread.node.chain_manager.transaction_pool.length =
          start.node.chain_manager.transaction_pool.length + taken.length := by
        rw [h.pool, List.length_append]
      have hfewer : start.node.chain_manager.transaction_pool.length + transactions.length -
          thread.node.chain_manager.transaction_pool.length =
          (start.node.chain_manager.transaction_pool.length + transactions.length -
            after.node.chain_manager.transaction_pool.length) + 1 := by
        rw [hpool, List.length_append, List.length_singleton, hlength]
        rw [List.length_append, List.length_singleton] at hroom
        omega
      have hspent : untold transactions start thread = untold transactions start after + start.degree := by
        rw [untold, untold, hfewer, Nat.add_mul, Nat.one_mul]
      have hdegree : sent.length ≤ start.degree := hcount
      rw [hspent]
      show sent.length + untold transactions start after ≤ _
      omega

theorem pooling_all (hnew : ∀ i, Takable crypto transactions (starts i).node.chain_manager) :
    ∀ (i : ι) moment sock envelope thread x, (∃ taken, Pooling transactions (starts i) taken thread) →
      True → (starts i).Open sock → told_transaction transactions envelope = some x →
      (∀ y, False → Holds transactions thread y) →
      Flood.Takes (told_transaction transactions) (fun thread => ∃ taken, Pooling transactions (starts i) taken thread)
        (Holds transactions) (starts i).Active (untold transactions (starts i)) x thread
        (NetworkingThread.handles crypto moment sock envelope thread) := by
  rintro i moment sock envelope thread x ⟨taken, h⟩ _ hopen hitem _
  exact pooling_takes (hnew i) hopen hitem h

def transaction_flooding (hnew : ∀ i, Takable crypto transactions (starts i).node.chain_manager)
    (hwired : ∀ i sock port, wire i sock = some port → (starts port.1).Open port.2) :
    Flood.Flooding ι Moment NetworkingThread Envelope Transaction where
  handle := NetworkingThread.handles crypto
  wire := wire
  item := told_transaction transactions
  needs _ _ := False
  inv i thread := ∃ taken, Pooling transactions (starts i) taken thread
  has := Holds transactions
  linked i sock := (starts i).Active sock
  listens i sock := (starts i).Open sock
  cost i := untold transactions (starts i)
  fits _ := True
  wired := hwired
  takes := pooling_all hnew

theorem pooling_start (transactions : List Transaction) (start : NetworkingThread) :
    Pooling transactions start [] start :=
  ⟨rfl, (List.append_nil _).symm, .nil, List.nil_subset _, ⟨rfl, fun _ => rfl⟩⟩

end Flood

-- Transactions are sent to nodes here and there, more than once perhaps. However
-- the nodes are connected, and in whatever order the messages arrive on
-- different connections, the flood comes to an end, each node takes each
-- transaction once at most, and in the end it has those that were sent to a node
-- that there is a way from.
theorem transactions_gossip {ι : Type} [Fintype ι] [DecidableEq ι] {starts : ι → NetworkingThread}
    {wire : ι → Nat → Option (ι × Nat)} (hnew : ∀ i, Takable crypto transactions (starts i).node.chain_manager)
    (hwired : ∀ i sock port, wire i sock = some port → (starts port.1).Open port.2)
    {flight : List ((ι × Nat) × Envelope)} (hopen : ∀ entry ∈ flight, (starts entry.1.1).Open entry.1.2)
    (hflight : ∀ entry ∈ flight, ∃ transaction ∈ transactions, entry.2.2.transaction = some transaction)
    {schedule : List ((ι × Nat) × Moment)} {reached : Flood.Network ι NetworkingThread Envelope}
    (hrun : Duplex.run (Flood.step (NetworkingThread.handles crypto) wire) schedule ⟨starts, flight⟩ = some reached) :
    schedule.length ≤ flight.length + transactions.length * ∑ i, (starts i).degree ∧
      (∀ i, ∃ taken, Pooling transactions (starts i) taken (reached.node i)) ∧
      (reached.flight = [] → ∀ entry ∈ flight, ∀ transaction, entry.2.2.transaction = some transaction →
        ∀ i, Relation.ReflTransGen (TellsOn starts wire) entry.1.1 i →
          transaction ∈ (reached.node i).node.chain_manager.transaction_pool) := by
  have htold : ∀ entry ∈ flight, ∀ transaction, entry.2.2.transaction = some transaction →
      told_transaction transactions entry.2 = some transaction := by
    intro entry hentry transaction hmessage
    obtain ⟨other, hother, hmessage'⟩ := hflight entry hentry
    rw [Option.some.inj (hmessage'.symm.trans hmessage)] at hother
    exact told_transaction_eq_some.mpr ⟨hmessage, hother⟩
  have hnothing : ∀ i t, ¬Holds transactions (starts i) t := by
    rintro i t ⟨ht, hpooled⟩
    exact List.not_mem_nil (((pooling_start transactions (starts i)).mem_iff (hnew i) ht).mp hpooled)
  have hflooded : Flood.Flooded (transaction_flooding hnew hwired) ⟨starts, flight⟩ := by
    refine ⟨fun i => ⟨[], pooling_start transactions (starts i)⟩, hopen, fun port => ?_, fun i _ _ _ _ t hholds => ?_⟩
    · refine Flood.InOrder.of_all fun envelope henvelope => ?_
      have hentry := Flood.mem_channel.mp henvelope
      obtain ⟨transaction, _, hmessage⟩ := hflight _ hentry
      exact ⟨transaction, htold _ hentry transaction hmessage, fun _ hfalse => hfalse.elim⟩
    · exact absurd hholds (hnothing i t)
  have hran := hflooded.run (fun _ _ => trivial) hrun
  refine ⟨?_, hran.flooded.inv, fun hend entry hentry transaction hmessage i hway => ?_⟩
  · have hload := hran.load
    have hstarted : Flood.load (transaction_flooding hnew hwired) ⟨starts, flight⟩ =
        flight.length + transactions.length * ∑ i, (starts i).degree := by
      rw [Finset.mul_sum]
      refine congrArg (flight.length + ·) (Finset.sum_congr rfl fun i _ => ?_)
      show untold transactions (starts i) (starts i) = _
      rw [untold, Nat.add_sub_cancel_left]
    omega
  · have hdue : Flood.Due (transaction_flooding hnew hwired) ⟨starts, flight⟩ entry.1 transaction :=
      .inr ⟨entry.2, Flood.mem_channel.mpr hentry, htold entry hentry transaction hmessage⟩
    have horigin := Flood.due_nothing hend (hran.due _ _ hdue)
    exact (hran.flooded.reaches hend hway horigin).2

section Sample

def spendingNode : Node := { Node.genesisNode with chain_manager := ⟨sample_coinstate_first, [], none⟩ }

def spendingStart (_ : Bool) : NetworkingThread := paired spendingNode

theorem spending_takable (i : Bool) : Takable .residue [sample_spend] (spendingStart i).node.chain_manager := by
  have hchecks : validate_non_coinbase_transaction_by_itself sample_spend = .ok () ∧
      (ChainManager.mk sample_coinstate_first [] none).validate_in_current_coinstate .residue sample_spend = .ok () ∧
      (output_references sample_spend).Nodup := by
    decide +kernel
  refine ⟨List.forall_mem_singleton.mpr hchecks.1, List.forall_mem_singleton.mpr hchecks.2.1, ?_⟩
  show ([sample_spend].flatMap output_references).Nodup
  rw [List.flatMap_singleton]
  exact hchecks.2.2

theorem transactions_gossip_spend :
    ∃ most ≤ 3, ∀ schedule reached, Duplex.run (Flood.step (NetworkingThread.handles .residue) pairedWire) schedule
        ⟨spendingStart, [((false, 0), (⟨0, 1, 0, 0⟩, .Data ⟨DATA_TRANSACTION, .Transaction sample_spend⟩))]⟩ =
          some reached →
      schedule.length ≤ most ∧ (reached.flight = [] →
        sample_spend ∈ (reached.node true).node.chain_manager.transaction_pool) := by
  refine ⟨3, Nat.le_refl 3, fun schedule reached hrun => ?_⟩
  have hdegree : ∀ i, (spendingStart i).degree = 1 := fun _ => paired_degree spendingNode
  have hdegrees : ∑ i, (spendingStart i).degree = 2 := by
    rw [Finset.sum_congr rfl fun i _ => hdegree i]
    rfl
  have hactive : (spendingStart false).Active 0 := paired_active spendingNode
  have hwired : ∀ i sock port, pairedWire i sock = some port → (spendingStart port.1).Open port.2 :=
    paired_wired spendingNode
  have htakable := spending_takable
  -- The states themselves are too large to look into.
  generalize spendingStart = starts, sample_spend = spend at *
  have hgossip := transactions_gossip htakable hwired (List.forall_mem_singleton.mpr (hwired true 0 (false, 0) rfl))
    (List.forall_mem_singleton.mpr ⟨spend, List.mem_singleton_self spend, rfl⟩) hrun
  rw [hdegrees] at hgossip
  obtain ⟨hlength, _, hreached⟩ := hgossip
  exact ⟨hlength, fun hend =>
    hreached hend _ (List.mem_singleton_self _) spend rfl true (.single ⟨0, 0, hactive, rfl⟩)⟩

end Sample

end Skepticoin
