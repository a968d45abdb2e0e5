import Skepticoin.Networking.CatchUp
import Skepticoin.Networking.Node.Acceptance
import Skepticoin.Networking.Node.Heights
import Skepticoin.Networking.Thread.Answers

namespace Skepticoin

open Guard FMap Effect

variable {crypto : Crypto} {theirs : CoinState} {head : Block} {index : Map Nat Block} {moments : Nat → Moment}
  {sock i m last start top : Nat} {state : Nat × NetworkingThread} {envelope : Envelope}

-- How many items a page has that starts at a height.
def page_length (head : Block) (start : Nat) : Nat :=
  min (start + GET_BLOCKS_INVENTORY_SIZE) (head.height + 1) - start

-- The messages of a download, by the heights of the active chain.
section Messages

structure Asks (crypto : Crypto) (theirs : CoinState) (i : Nat) (envelope : Envelope) : Prop where
  id : envelope.1.id ≠ 0
  message : ∃ h, AtHeight crypto theirs i h ∧ envelope.2 = .GetData ⟨DATA_BLOCK, h⟩

structure Carries (crypto : Crypto) (theirs : CoinState) (i : Nat) (envelope : Envelope) : Prop where
  response : envelope.1.in_response_to ≠ 0
  message : ∃ h block, AtHeight crypto theirs i h ∧ theirs.block_by_hash.lookup h = some block ∧
    envelope.2 = .Data ⟨DATA_BLOCK, .Block block⟩

def Lists (crypto : Crypto) (theirs : CoinState) (head : Block) (start : Nat) (envelope : Envelope) : Prop :=
  ∃ items, envelope.2 = .Inventory ⟨items⟩ ∧
    List.Forall₂ (Listed crypto theirs) (List.range' start (page_length head start)) items

def Continues (crypto : Crypto) (theirs : CoinState) (last : Nat) (envelope : Envelope) : Prop :=
  ∃ h, AtHeight crypto theirs last h ∧ envelope.2 = .GetBlocks ⟨[h], zero_hash⟩

end Messages

theorem receive_run {after : NetworkingThread} {envelopes : List Envelope}
    (hrun : NetworkingThread.handle_remote_peer_message crypto (moments state.1) sock envelope.1 envelope.2 state.2 =
      (.ok (), after)) (hsends : NetworkingThread.Sends state.2 after sock envelopes) :
    NetworkingThread.receive crypto moments sock state envelope = ((state.1 + 1, after), envelopes) := by
  rw [NetworkingThread.receive, hrun, hsends.answered]

-- The end that has the blocks.
section Serving

structure Serving (theirs : CoinState) (sock : Nat) (state : Nat × NetworkingThread) : Prop where
  coinstate : state.2.node.chain_manager.coinstate = theirs
  opened : state.2.Open sock

theorem Serving.sending (h : Serving theirs sock state) (moment : Moment) (message : Message)
    (prev_header : Option MessageHeader) (n : Nat) :
    Serving theirs sock (n, state.2.sending moment sock message prev_header) :=
  ⟨h.coinstate, h.opened.selected, h.opened.received⟩

theorem Serving.data (h : Serving theirs sock state) (moments : Nat → Moment)
    (hchain : ActiveChain crypto theirs head index)
    (hasks : Asks crypto theirs i envelope) :
    ∃ next answer, NetworkingThread.receive crypto moments sock state envelope = (next, [answer]) ∧
      Serving theirs sock next ∧ Carries crypto theirs i answer := by
  obtain ⟨hash, hat, hmessage⟩ := hasks.message
  obtain ⟨_, block, hblock, _⟩ := hchain.known_at hat
  have hknown : state.2.node.chain_manager.coinstate.block_by_hash.lookup hash = some block := by
    rw [h.coinstate, hblock]
  obtain ⟨answer, hsends, hreply⟩ := NetworkingThread.sends_sending state.2 (moments state.1) sock
    (.Data ⟨DATA_BLOCK, .Block block⟩) envelope.1
  refine ⟨_, answer, receive_run (hmessage ▸ NetworkingThread.get_data_run h.opened hknown) hsends,
    h.sending _ _ _ _, ?_, hash, block, hat, hblock, hreply.message⟩
  rw [hreply.response]
  exact hasks.id

theorem Serving.page (h : Serving theirs sock state) (envelope : Envelope) (moments : Nat → Moment)
    (hchain : ActiveChain crypto theirs head index) {message : GetBlocksMessage}
    (hmessage : envelope.2 = .GetBlocks message)
    (hstart : find_start_height theirs message.potential_start_hashes = .ok (some start)) :
    ∃ next answer, NetworkingThread.receive crypto moments sock state envelope = (next, [answer]) ∧
      Serving theirs sock next ∧ Lists crypto theirs head start answer := by
  obtain ⟨items, hreply, hitems⟩ := reply_from hchain hstart
  rw [← h.coinstate] at hreply
  obtain ⟨answer, hsends, hanswer⟩ := NetworkingThread.sends_sending state.2 (moments state.1) sock
    (.Inventory ⟨items⟩) envelope.1
  exact ⟨_, answer, receive_run (hmessage ▸ NetworkingThread.get_blocks_run h.opened hreply) hsends,
    h.sending _ _ _ _, items, hanswer.message, hitems⟩

-- What follows up a page is answered by the next one, which is empty at the end.
theorem Serving.follow (h : Serving theirs sock state) (moments : Nat → Moment)
    (hchain : ActiveChain crypto theirs head index)
    (hfollows : Continues crypto theirs last envelope) :
    ∃ next answer, NetworkingThread.receive crypto moments sock state envelope = (next, [answer]) ∧
      Serving theirs sock next ∧ Lists crypto theirs head (last + 1) answer := by
  obtain ⟨hash, hat, hmessage⟩ := hfollows
  cases Nat.lt_or_eq_of_le (hchain.known_at hat).1 with
  | inl hlt => exact h.page envelope moments hchain hmessage (find_start_hit hchain [] hat hlt)
  | inr heq =>
      rw [heq] at hat
      have hreply : handle_get_blocks_message_received crypto state.2.node.chain_manager.coinstate ⟨[hash], zero_hash⟩ =
          .ok ⟨[]⟩ := by
        rw [h.coinstate, handle_get_blocks_message_received, find_start_top hchain [] hat]
        rfl
      obtain ⟨answer, hsends, hanswer⟩ := NetworkingThread.sends_sending state.2 (moments state.1) sock
        (.Inventory ⟨[]⟩) envelope.1
      refine ⟨_, answer, receive_run (hmessage ▸ NetworkingThread.get_blocks_run h.opened hreply) hsends,
        h.sending _ _ _ _, [], hanswer.message, ?_⟩
      have hnone : page_length head (last + 1) = 0 := by
        rw [page_length, heq]
        omega
      rw [hnone]
      exact .nil

theorem Serving.batch (h : Serving theirs sock state) (moments : Nat → Moment)
    (hchain : ActiveChain crypto theirs head index)
    {heights : List Nat} {requests : List Envelope} (hrequests : List.Forall₂ (Asks crypto theirs) heights requests)
    (hfollows : Continues crypto theirs last envelope) :
    ∃ next blocks page, Duplex.answers (NetworkingThread.receive crypto moments sock) state (requests ++ [envelope]) =
        (next, blocks ++ [page]) ∧ Serving theirs sock next ∧
      List.Forall₂ (Carries crypto theirs) heights blocks ∧ Lists crypto theirs head (last + 1) page := by
  induction hrequests generalizing state with
  | nil =>
      obtain ⟨next, page, hrun, hserving, hlists⟩ := h.follow moments hchain hfollows
      refine ⟨next, [], page, ?_, hserving, .nil, hlists⟩
      rw [List.nil_append, Duplex.answers, hrun]
      rfl
  | cons hasks _ ih =>
      obtain ⟨middle, block, hrun, hserving, hcarries⟩ := h.data moments hchain hasks
      obtain ⟨next, blocks, page, hrest, hnext, hall, hlists⟩ := ih hserving
      refine ⟨next, block :: blocks, page, ?_, hnext, .cons hcarries hall, hlists⟩
      rw [List.cons_append, Duplex.answers, hrun]
      simp only [hrest]
      rfl

end Serving

theorem forall₂_snoc {α β : Type} {R : α → β → Prop} {xs : List α} {x : α} {ys : List β}
    (h : List.Forall₂ R (xs ++ [x]) ys) : ∃ before y, ys = before ++ [y] ∧ List.Forall₂ R xs before ∧ R x y := by
  obtain ⟨before, y, after, rfl, hbefore, hy⟩ := forall₂_append_cons h
  have hlength := h.length_eq
  have hshort := hbefore.length_eq
  simp only [List.length_append, List.length_cons, List.length_nil] at hlength
  have hnil : after = [] := List.eq_nil_of_length_eq_zero (by omega)
  exact ⟨before, y, by rw [hnil], hbefore, hy⟩

-- The end that takes the blocks.
section Taking

structure Taking (crypto : Crypto) (theirs : CoinState) (head : Block) (index : Map Nat Block) (top m sock : Nat)
    (state : Nat × NetworkingThread) : Prop where
  opened : state.2.Open sock
  caught_up : CaughtUp crypto theirs top m state.2.node.chain_manager.coinstate
  pool : PoolOrderly state.2.node.chain_manager
  used : ∀ msg_state ∈ (state.2.fetching.inventories sock).inventory_messages, msg_state.actually_used = true
  writes : Node.WritesGo crypto false state.2.node.block_store (chain_above index head m)

-- The block is in order by itself whenever it is received, and for the other end.
structure Sound (crypto : Crypto) (theirs : CoinState) (moments : Nat → Moment) (block : Block) : Prop where
  by_itself : ∀ n, validate_block_by_itself crypto block (moments n).current_time = .ok ()
  in_coinstate : validate_block_in_coinstate crypto block theirs = .ok ()

theorem remove_used (hash : Hash) {msg_states : List InventoryMessageState}
    (hused : ∀ msg_state ∈ msg_states, msg_state.actually_used = true) :
    ∀ msg_state ∈ remove_from_inventory hash msg_states, msg_state.actually_used = true := by
  induction msg_states with
  | nil => exact hused
  | cons msg_state msg_states ih =>
      obtain ⟨hfirst, hrest⟩ := List.forall_mem_cons.mp hused
      rw [remove_from_inventory]
      split_ifs with hempty
      · exact hrest
      · exact List.forall_mem_cons.mpr ⟨hfirst, ih hrest⟩

theorem Taking.block (h : Taking crypto theirs head index top m sock state) {entries : List (Hash × Block)}
    (htheirs : CoinState.Grown crypto entries theirs) (hchain : ActiveChain crypto theirs head index)
    (hzero : zero_hash ∉ theirs.block_by_hash) (hverify : VerifyAnswers crypto) (hlt : m < head.height)
    (hsound : ∀ block, index.lookup (m + 1) = some block → Sound crypto theirs moments block)
    (hcarries : Carries crypto theirs (m + 1) envelope) :
    ∃ next, NetworkingThread.receive crypto moments sock state envelope = (next, []) ∧
      Taking crypto theirs head index top (m + 1) sock next := by
  obtain ⟨hash, block, hat, hknown, hmessage⟩ := hcarries.message
  obtain ⟨_, block', hknown', hheight, hindex⟩ := hchain.known_at hat
  rw [hknown] at hknown'
  rw [← Option.some.inj hknown'] at hindex hheight
  obtain ⟨hash', coinstate, hhash, hfresh, hparent, hverdict, hadd, hnext⟩ :=
    h.caught_up.next htheirs hchain hzero hindex
  have hblock := hsound block hindex
  obtain ⟨entries', hgrown⟩ := hnext.grown
  obtain ⟨best, hbest⟩ := hgrown.represents.head_ok
  have hwrites := h.writes
  rw [chain_above_next hlt hindex] at hwrites
  have hgood : Node.Good crypto state.2.node ⟨(moments state.1).current_time, envelope.1, block⟩ hash' coinstate
      best := by
    refine ⟨⟨⟨hhash, hfresh, hparent, hblock.by_itself state.1⟩, hadd⟩, ?_, fun htodo' => ?_, hgrown.built, hbest⟩
    · exact hverdict.trans hblock.in_coinstate
    · exact hwrites.1 (.inr (htodo'.resolve_left hcarries.response))
  obtain ⟨transaction_pool, horderly, hrun⟩ := hgood.run hverify h.pool
  have hsilent : Node.announced ⟨(moments state.1).current_time, envelope.1, block⟩ best = [] :=
    if_neg fun hboth => hcarries.response hboth.2
  rw [hsilent] at hrun
  have hdone := NetworkingThread.block_run h.opened hhash hrun rfl DATA_BLOCK
  rw [← hmessage] at hdone
  refine ⟨_, receive_run hdone (List.append_nil _).symm, ⟨h.opened.selected, h.opened.received⟩, hnext,
    ⟨horderly.by_itself, horderly.distinct⟩, ?_, ?_⟩
  · refine fun msg_state hmem => remove_used hash' h.used msg_state ?_
    simpa [NetworkingThread.set_inventory, Inventory.without] using hmem
  · have hasked : decide (envelope.1.in_response_to = 0) = false := decide_eq_false hcarries.response
    rw [Node.stored, hasked]
    exact hwrites.2

theorem check_used (coinstate : CoinState) {msg_states : List InventoryMessageState}
    (hused : ∀ msg_state ∈ msg_states, msg_state.actually_used = true) (last : InventoryMessageState) :
    check_inventory_messages coinstate (msg_states ++ [last]) =
      (msg_states ++ [(use_inventory_message coinstate last).1], (use_inventory_message coinstate last).2) := by
  have hsame : msg_states.map (use_inventory_message coinstate) = msg_states.map fun msg_state => (msg_state, []) :=
    List.map_congr_left fun msg_state hmem => use_used (hused msg_state hmem)
  rw [check_inventory_messages, List.map_append, hsame]
  simp [Function.comp_def]

def unknown_items (coinstate : CoinState) (items : List InventoryItem) : List InventoryItem :=
  items.filter fun item => item.hash ∉ coinstate.block_by_hash

theorem use_new_sent (coinstate : CoinState) (header : MessageHeader) (items : List InventoryItem) :
    (use_inventory_message coinstate ⟨header, items.map fun item => (item, false), false⟩).2 =
      (unknown_items coinstate items).map fun item => (header, .GetData ⟨DATA_BLOCK, item.hash⟩) := by
  have hitem : ∀ item : InventoryItem, (request_item coinstate header (item, false)).2 =
      if item.hash ∈ coinstate.block_by_hash then [] else [(header, .GetData ⟨DATA_BLOCK, item.hash⟩)] := by
    intro item
    by_cases hknown : item.hash ∈ coinstate.block_by_hash
    · simp [request_item, hknown]
    · simp [request_item, hknown]
  simp only [use_inventory_message, Bool.false_eq_true, if_false, List.map_map, List.flatMap_map, Function.comp_apply,
    hitem]
  induction items with
  | nil => rfl
  | cons item items ih =>
      rw [List.flatMap_cons, ih, unknown_items, unknown_items, List.filter_cons]
      by_cases hknown : item.hash ∈ coinstate.block_by_hash
      · simp [hknown]
      · simp [hknown]

def requests (coinstate : CoinState) (header : MessageHeader) (items : List InventoryItem) : List Sent :=
  (unknown_items coinstate items).map fun item => (header, .GetData ⟨DATA_BLOCK, item.hash⟩)

theorem inventory_handled {inventory : Inventory}
    (hused : ∀ msg_state ∈ inventory.inventory_messages, msg_state.actually_used = true) {items : List InventoryItem}
    {item : InventoryItem} (hsize : items.length ≤ GET_BLOCKS_INVENTORY_SIZE) (hget : items.getLast? = some item)
    (coinstate : CoinState) (current_time : Nat) (header : MessageHeader) :
    ∃ inventory', (∀ msg_state ∈ inventory'.inventory_messages, msg_state.actually_used = true) ∧
      handle_inventory_message_received coinstate current_time inventory header ⟨items⟩ =
        .ok (inventory', requests coinstate header items ++ [(header, .GetBlocks ⟨[item.hash], zero_hash⟩)]) := by
  have hne : items ≠ [] := by
    intro hempty
    rw [hempty] at hget
    cases hget
  have hcheck := check_used coinstate hused ⟨header, items.map fun item => (item, false), false⟩
  have hsent := use_new_sent coinstate header items
  have hdone : (use_inventory_message coinstate
      ⟨header, items.map fun item => (item, false), false⟩).1.actually_used = true := use_actually_used
  generalize use_inventory_message coinstate ⟨header, items.map fun item => (item, false), false⟩ = used
    at hcheck hsent hdone
  refine ⟨⟨inventory.inventory_messages ++ [used.1], inventory.waiting_for_inventory,
    inventory.last_empty_inventory_response_at⟩, ?_, ?_⟩
  · intro msg_state hmem
    cases List.mem_append.mp hmem with
    | inl hold => exact hused msg_state hold
    | inr hnew =>
        rw [List.mem_singleton.mp hnew]
        exact hdone
  · rw [handle_inventory_message_received]
    simp only [raiseIf, if_neg (Nat.not_lt.mpr hsize), if_neg hne, hcheck, hsent, last_item, hget]
    rfl

-- What a page lists and is not known starts right above what is.
theorem CaughtUp.unknown {mine : CoinState} (h : CaughtUp crypto theirs top m mine) {n : Nat}
    {items : List InventoryItem} (hitems : List.Forall₂ (Listed crypto theirs) (List.range' start n) items)
    (hknown : start ≤ m + 1) :
    List.Forall₂ (Listed crypto theirs) (List.range' (m + 1) (start + n - (m + 1))) (unknown_items mine items) := by
  induction n generalizing start items with
  | zero =>
      cases hitems
      have hnone : start + 0 - (m + 1) = 0 := by omega
      rw [hnone]
      exact .nil
  | succ n ih =>
      cases Nat.lt_or_eq_of_le hknown with
      | inr heq =>
          have hall : unknown_items mine items = items := by
            refine List.filter_eq_self.mpr fun item hitem => decide_eq_true ?_
            obtain ⟨i, hi, hlisted⟩ := forall₂_mem_left hitems.flip hitem
            have hrange := List.mem_range'_1.mp hi
            exact h.above i (by omega) item.hash hlisted.2
          have hcount : start + (n + 1) - (m + 1) = n + 1 := by omega
          rw [hall, hcount, ← heq]
          exact hitems
      | inl hlt =>
          rw [List.range'_succ] at hitems
          cases hitems with
          | cons hfirst hrest =>
              have hmem := h.below start (Nat.le_of_lt_succ hlt) _ hfirst.2
              have hcount : start + (n + 1) - (m + 1) = start + 1 + n - (m + 1) := by omega
              rw [unknown_items, List.filter_cons_of_neg (by simpa using hmem), hcount]
              exact ih hrest hlt

-- Of a page with known blocks at its beginning, what is unknown is asked for.
theorem Taking.page (h : Taking crypto theirs head index top m sock state) (moments : Nat → Moment)
    (hlists : Lists crypto theirs head start envelope)
    (hknown : start ≤ m + 1) (hstart : start ≤ head.height) (hlast : start + page_length head start = last + 1) :
    ∃ next requests follow, NetworkingThread.receive crypto moments sock state envelope = (next, requests ++ [follow]) ∧
      Taking crypto theirs head index top m sock next ∧
      List.Forall₂ (Asks crypto theirs) (List.range' (m + 1) (last - m)) requests ∧
      Continues crypto theirs last follow := by
  obtain ⟨items, hmessage, hitems⟩ := hlists
  have hunknown := h.caught_up.unknown hitems hknown
  have hsize : GET_BLOCKS_INVENTORY_SIZE = 500 := rfl
  generalize hcount : page_length head start = n at hitems hunknown hlast
  rw [page_length] at hcount
  have hlength : items.length = n := by rw [← hitems.length_eq, List.length_range']
  have hend : (List.range' start n).getLast? = some last := by
    rw [List.getLast?_range', if_neg (by omega)]
    congr 1
    omega
  obtain ⟨item, hget, _, hat⟩ := forall₂_getLast hitems hend
  obtain ⟨inventory, hused, hhandled⟩ := inventory_handled h.used (by omega) hget
    state.2.node.chain_manager.coinstate (moments state.1).current_time envelope.1
  have hrun : NetworkingThread.handle_remote_peer_message crypto (moments state.1) sock envelope.1 envelope.2 state.2 =
      (.ok (), _) := hmessage ▸ NetworkingThread.inventory_run h.opened hhandled
  obtain ⟨envelopes, hsends, hreplies⟩ := NetworkingThread.sends_sending_all
    (NetworkingThread.set_inventory sock inventory state.2).2 (moments state.1) sock
    (requests state.2.node.chain_manager.coinstate envelope.1 items ++
      [(envelope.1, .GetBlocks ⟨[item.hash], zero_hash⟩)])
  obtain ⟨asked, follow, rfl, hasked, hfollow⟩ := forall₂_snoc hreplies
  obtain ⟨hpeer, hnode, hfetching⟩ := NetworkingThread.sending_all_parts
    (NetworkingThread.set_inventory sock inventory state.2).2 (moments state.1) sock
    (requests state.2.node.chain_manager.coinstate envelope.1 items ++
      [(envelope.1, .GetBlocks ⟨[item.hash], zero_hash⟩)])
  generalize NetworkingThread.sending_all (NetworkingThread.set_inventory sock inventory state.2).2 (moments state.1)
    sock _ = after at hrun hsends hpeer hnode hfetching
  have hrange : start + n - (m + 1) = last - m := by omega
  rw [hrange] at hunknown
  have hsame : after.node = state.2.node := hnode
  refine ⟨_, asked, follow, receive_run hrun hsends, ⟨?_, ?_, ?_, ?_, ?_⟩, ?_, item.hash, hat, hfollow.message⟩
  · exact ⟨hpeer ▸ h.opened.selected, hpeer ▸ h.opened.received⟩
  · exact hsame ▸ h.caught_up
  · exact hsame ▸ h.pool
  · intro msg_state hmem
    rw [hfetching] at hmem
    exact hused msg_state (by simpa [NetworkingThread.set_inventory] using hmem)
  · exact hsame ▸ h.writes
  · refine forall₂_comp hunknown (List.forall₂_map_left_iff.mp hasked) ?_
    intro i requested answer hlisted hreply
    exact ⟨hreply.id, requested.hash, hlisted.2, hreply.message⟩

-- An empty page is the last one.
theorem Taking.finish (h : Taking crypto theirs head index top m sock state) (moments : Nat → Moment)
    (hlists : Lists crypto theirs head (head.height + 1) envelope) :
    ∃ next, NetworkingThread.receive crypto moments sock state envelope = (next, []) ∧
      Taking crypto theirs head index top m sock next := by
  obtain ⟨items, hmessage, hitems⟩ := hlists
  have hnone : page_length head (head.height + 1) = 0 := by
    rw [page_length]
    omega
  rw [hnone] at hitems
  cases hitems
  have hrun : NetworkingThread.handle_remote_peer_message crypto (moments state.1) sock envelope.1 (.Inventory ⟨[]⟩)
      state.2 = (.ok (), _) := NetworkingThread.inventory_run h.opened rfl
  rw [← hmessage] at hrun
  refine ⟨_, receive_run hrun (List.append_nil _).symm, ⟨h.opened.selected, h.opened.received⟩, h.caught_up, h.pool,
    fun msg_state hmem => h.used msg_state ?_, h.writes⟩
  simpa [NetworkingThread.set_inventory, NetworkingThread.sending_all] using hmem

end Taking

-- One schedule: whatever waits for the server is answered before the client goes on.
section Schedule

variable {c s : Nat} {left right : Nat × NetworkingThread} {entries : List (Hash × Block)}

theorem blocks_run (htheirs : CoinState.Grown crypto entries theirs) (hchain : ActiveChain crypto theirs head index)
    (hzero : zero_hash ∉ theirs.block_by_hash) (hverify : VerifyAnswers crypto)
    (htaking : Taking crypto theirs head index top m c left) {n : Nat} (hbound : m + n ≤ head.height)
    (hsound : ∀ i > m, ∀ block, index.lookup i = some block → Sound crypto theirs moments block)
    {blocks : List Envelope} (hblocks : List.Forall₂ (Carries crypto theirs) (List.range' (m + 1) n) blocks)
    (moments' : Nat → Moment) (s : Nat) (right : Nat × NetworkingThread) (waiting : List Envelope) :
    ∃ next, Duplex.run (Duplex.step (NetworkingThread.receive crypto moments c)
        (NetworkingThread.receive crypto moments' s)) (List.replicate n .left) ⟨left, right, blocks ++ waiting, []⟩ =
        some ⟨next, right, waiting, []⟩ ∧
      Taking crypto theirs head index top (m + n) c next := by
  induction n generalizing m left blocks with
  | zero =>
      cases hblocks
      exact ⟨left, rfl, htaking⟩
  | succ n ih =>
      rw [List.range'_succ] at hblocks
      cases hblocks with
      | cons hfirst hrest =>
          obtain ⟨middle, hreceive, hmiddle⟩ := htaking.block htheirs hchain hzero hverify (by omega)
            (hsound (m + 1) (Nat.lt_succ_self m)) hfirst
          obtain ⟨next, hrun, hnext⟩ := ih hmiddle (by omega) (fun i hi => hsound i (by omega)) hrest
          refine ⟨next, ?_, by rwa [Nat.add_assoc, Nat.add_comm 1] at hnext⟩
          rw [List.replicate_succ, List.cons_append, Duplex.run_left hreceive]
          exact hrun

-- A request that has arrived is answered with one page.
theorem request_run {page : Envelope} {next : Nat × NetworkingThread} {moments' : Nat → Moment}
    (hpage : NetworkingThread.receive crypto moments' s right envelope = (next, [page])) (moments : Nat → Moment)
    (c : Nat) (left : Nat × NetworkingThread) :
    Duplex.run (Duplex.step (NetworkingThread.receive crypto moments c) (NetworkingThread.receive crypto moments' s))
      [.right] ⟨left, right, [], [envelope]⟩ = some ⟨left, next, [page], []⟩ := by
  have hanswers : Duplex.answers (NetworkingThread.receive crypto moments' s) right [envelope] = (next, [page]) := by
    rw [Duplex.answers, hpage]
    rfl
  have hright : Duplex.run (Duplex.step (NetworkingThread.receive crypto moments c)
      (NetworkingThread.receive crypto moments' s)) _ ⟨left, right, [], [envelope]⟩ = _ :=
    Duplex.run_right left right [] [envelope]
  rw [hanswers] at hright
  exact hright

-- From a page on, the induction is on what is left of the chain above it.
theorem pages_run (htheirs : CoinState.Grown crypto entries theirs) (hchain : ActiveChain crypto theirs head index)
    (hzero : zero_hash ∉ theirs.block_by_hash) (hverify : VerifyAnswers crypto)
    (htaking : Taking crypto theirs head index top m c left) (hserving : Serving theirs s right)
    (hsound : ∀ i > m, ∀ block, index.lookup i = some block → Sound crypto theirs moments block)
    (hlists : Lists crypto theirs head (last + 1) envelope) (hlast : last ≤ m) (hm : m ≤ head.height)
    (moments' : Nat → Moment) :
    ∃ schedule next right', Duplex.run (Duplex.step (NetworkingThread.receive crypto moments c)
        (NetworkingThread.receive crypto moments' s)) schedule ⟨left, right, [envelope], []⟩ =
        some ⟨next, right', [], []⟩ ∧
      Taking crypto theirs head index top head.height c next := by
  induction hdepth : head.height - last using Nat.strong_induction_on generalizing last m left right envelope with
  | _ depth ih =>
      by_cases hend : last = head.height
      · rw [hend] at hlists hlast
        have htop : m = head.height := Nat.le_antisymm hm hlast
        obtain ⟨next, hreceive, hnext⟩ := htaking.finish moments hlists
        exact ⟨[.left], next, right, Duplex.run_left hreceive right [] [] [], htop ▸ hnext⟩
      · have hsize : GET_BLOCKS_INVENTORY_SIZE = 500 := rfl
        have hcount : page_length head (last + 1) = min (last + 1 + 500) (head.height + 1) - (last + 1) := rfl
        obtain ⟨next, requests, follow, hreceive, htaking', hasks, hfollows⟩ := htaking.page moments hlists
          (by omega) (by omega)
          (show last + 1 + page_length head (last + 1) = last + page_length head (last + 1) + 1 by omega)
        generalize hnew : last + page_length head (last + 1) = last' at hasks hfollows
        obtain ⟨right', blocks, page, hanswers, hserving', hcarries, hlists'⟩ :=
          hserving.batch moments' hchain hasks hfollows
        obtain ⟨middle, hblocks, hmiddle⟩ := blocks_run htheirs hchain hzero hverify htaking' (by omega) hsound
          hcarries moments' s right' [page]
        obtain ⟨schedule, final, right'', hrun, hfinal⟩ := ih (head.height - last') (by omega) hmiddle hserving'
          (fun i hi => hsound i (by omega)) hlists' (by omega) (by omega) rfl
        have hturn := Duplex.run_turn hreceive hanswers []
        refine ⟨(.left :: List.replicate (requests ++ [follow]).length .right) ++
            (List.replicate (last' - m) .left ++ schedule), final, right'', ?_, hfinal⟩
        rw [Duplex.run_append, hturn, Option.bind_some, List.nil_append, Duplex.run_append, hblocks,
          Option.bind_some, hrun]

end Schedule

section Downloaded

variable {mine : CoinState}

-- What the client has at the end.
structure Downloaded (crypto : Crypto) (theirs : CoinState) (head : Block) (sock : Nat) (client : NetworkingThread) :
    Prop where
  head : client.node.chain_manager.coinstate.head = .ok head
  chain : ∀ i h, AtHeight crypto theirs i h → h ∈ client.node.chain_manager.coinstate.block_by_hash
  opened : client.Open sock

-- A client that is behind asks a server with a longer chain. In whatever order
-- the two ends handle their messages, the download comes to an end, and then
-- the client has the chain of the server, and its head.
theorem initial_download {entries entries' : List (Hash × Block)} {client server : NetworkingThread} {c s : Nat}
    (hclient : client.node.chain_manager.coinstate = mine) (hserver : server.node.chain_manager.coinstate = theirs)
    (hopen : client.Open c) (hopen' : server.Open s) (hmine : CoinState.Grown crypto entries mine)
    (htheirs : CoinState.Grown crypto entries' theirs) (hconsistent : Consistent crypto mine)
    (hconsistent' : Consistent crypto theirs) (hnames : CoinState.Compatible mine theirs) {genesis : Hash}
    (hgenesis : AtHeight crypto mine 0 genesis) (hgenesis' : AtHeight crypto theirs 0 genesis) {myHead : Block}
    (hmyHead : mine.head = .ok myHead) (hhead : theirs.head = .ok head) (hhigher : myHead.height < head.height)
    (hindex : theirs.by_height_at_head = .ok index) (hverify : VerifyAnswers crypto)
    (hpool : PoolOrderly client.node.chain_manager)
    (hused : ∀ msg_state ∈ (client.fetching.inventories c).inventory_messages, msg_state.actually_used = true)
    (moments moments' : Nat → Moment)
    (hsound : ∀ block ∈ missing crypto mine head index, Sound crypto theirs moments block)
    (hwrites : Node.WritesGo crypto false client.node.block_store (missing crypto mine head index))
    {request : GetBlocksMessage} (hrequest : get_get_blocks_message crypto mine = .ok request) (header : MessageHeader) :
    ∃ total, ∀ schedule reached, Duplex.run (Duplex.step (NetworkingThread.receive crypto moments c)
        (NetworkingThread.receive crypto moments' s)) schedule
        ⟨(0, client), (0, server), [], [(header, .GetBlocks request)]⟩ = some reached →
      schedule.length ≤ total ∧ (reached.to_left = [] → reached.to_right = [] →
        schedule.length = total ∧ Downloaded crypto theirs head c reached.left.2) := by
  obtain ⟨index', hchain⟩ := hconsistent'.active_chain_of_head hhead
  rw [← Except.ok.inj (hindex.symm.trans hchain.by_height)] at hchain
  obtain ⟨myIndex, hmyChain⟩ := hconsistent.active_chain_of_head hmyHead
  have hsame : SameHeights mine theirs := fun h block other hblock hother => by rw [hnames h block other hblock hother]
  have hknown : ∀ i h, AtHeight crypto mine i h → h ∈ mine.block_by_hash := by
    intro i h hat
    obtain ⟨_, block, hblock, _⟩ := hmyChain.known_at hat
    exact Finmap.mem_of_lookup_eq_some hblock
  obtain ⟨m, hlt, hcaught⟩ := caught_up_start hmine hconsistent' hnames hmyHead hhead hhigher
    (hknown 0 genesis hgenesis) hgenesis'
  obtain ⟨request', shared, hrequest', hlocator, hshared, _, hstart⟩ := requested_start hmyChain hchain hhigher hsame
  rw [Except.ok.inj (hrequest'.symm.trans hrequest)] at hstart hlocator hshared
  have hbelow : shared ≤ m := hcaught.shared_le hshared fun h hmem => by
    obtain ⟨i, _, hown⟩ := forall₂_mem_left hlocator.flip hmem
    exact hknown i h hown
  have hblocks := hcaught.missing_eq hchain (Nat.le_of_lt hlt)
  rw [hblocks] at hsound hwrites
  have habove : ∀ i > m, ∀ block, index.lookup i = some block → Sound crypto theirs moments block := by
    intro i hi block hblock
    have htop := (hchain.heights i).mp (Finmap.mem_of_lookup_eq_some hblock)
    exact hsound block (List.mem_filterMap.mpr ⟨i, List.mem_range'_1.mpr (by omega), hblock⟩)
  -- the server answers first, and then page after page is worked off
  have hserving : Serving theirs s (0, server) := ⟨hserver, hopen'⟩
  have htaking : Taking crypto theirs head index myHead.height m c (0, client) :=
    ⟨hopen, hclient ▸ hcaught, hpool, hused, hwrites⟩
  obtain ⟨right, page, hpage, hserving', hlists⟩ := hserving.page (header, Message.GetBlocks request) moments' hchain rfl
    hstart
  obtain ⟨schedule, left, right', hrun, htaken⟩ := pages_run htheirs hchain hconsistent'.indexed.1
    hverify htaking hserving' habove hlists hbelow (Nat.le_of_lt hlt) moments'
  have hfirst := request_run hpage moments c (0, client)
  have hcanonical : Duplex.run (Duplex.step (NetworkingThread.receive crypto moments c)
      (NetworkingThread.receive crypto moments' s)) ([.right] ++ schedule)
      ⟨(0, client), (0, server), [], [(header, .GetBlocks request)]⟩ = some ⟨left, right', [], []⟩ := by
    rw [Duplex.run_append, hfirst, Option.bind_some, hrun]
  have hdone : Duplex.Done (Duplex.step (NetworkingThread.receive crypto moments c)
      (NetworkingThread.receive crypto moments' s)) ⟨left, right', [], []⟩ := Duplex.done_iff.mpr ⟨rfl, rfl⟩
  refine ⟨([Duplex.Side.right] ++ schedule).length, fun other reached hreached => ⟨?_, fun hleft hright => ?_⟩⟩
  · obtain ⟨more, _, hlength⟩ := Duplex.all_runs_end Duplex.step_commuting hcanonical hdone hreached
    omega
  · obtain ⟨hend, hlength⟩ := Duplex.run_unique Duplex.step_commuting hcanonical hdone hreached
      (Duplex.done_iff.mpr ⟨hleft, hright⟩)
    rw [hend]
    have hhead' := htaken.caught_up.head_at hchain (hconsistent'.head_at hchain) hhigher
    refine ⟨hlength, hhead', fun i h hat => ?_, htaken.opened⟩
    exact htaken.caught_up.below i (hchain.known_at hat).1 h hat

end Downloaded

-- A new node asks one that has a block on top of the genesis block.
section Sample

-- One connection, over which hello has been said.
def greetedPeer : LocalPeer :=
  { LocalPeer.loaded [] 0 512 false with
    connections := [⟨⟨"10.0.0.1", 2412, .OUTGOING, none, 0⟩, true⟩]
    selector := {0} }

def threadOf (coinstate : CoinState) : NetworkingThread :=
  .started greetedPeer { Node.genesisNode with chain_manager := ⟨coinstate, [], some coinstate⟩ } none [] 0

theorem thread_open (coinstate : CoinState) : (threadOf coinstate).Open 0 :=
  ⟨Finset.mem_singleton_self 0, _, rfl, rfl⟩

theorem thread_coinstate (coinstate : CoinState) : (threadOf coinstate).node.chain_manager.coinstate = coinstate := rfl

theorem thread_pool (coinstate : CoinState) : PoolOrderly (threadOf coinstate).node.chain_manager := by
  have hvalid : PoolValid .residue (threadOf coinstate).node.chain_manager := pool_valid_empty rfl
  exact hvalid.toPoolOrderly

theorem thread_unused (coinstate : CoinState) :
    ∀ msg_state ∈ ((threadOf coinstate).fetching.inventories 0).inventory_messages, msg_state.actually_used = true :=
  fun _ hmem => absurd hmem List.not_mem_nil

def firstIndex : Map Nat Block := BlockStore.firstCoinstate.by_height_at_head.toOption.getD ∅

def firstRequest : GetBlocksMessage := (get_get_blocks_message .residue zeroCoinstate).toOption.getD ⟨[], zero_hash⟩

theorem genesis_first :
    ∀ entry ∈ [(BlockStore.residueHash (genesis_block .residue), genesis_block .residue)],
      entry ∈ BlockStore.firstEntries :=
  fun _ hentry => List.mem_cons_of_mem _ hentry

theorem zero_first_consistent :
    Consistent .residue zeroCoinstate ∧ Consistent .residue BlockStore.firstCoinstate := by
  have hroots : ∀ entry ∈ BlockStore.firstEntries, entry.2.parent = none → entry.2.height = 0 := by decide +kernel
  have hkeys : zero_hash ∉ BlockStore.firstEntries.map Prod.fst := by decide +kernel
  exact ⟨genesis_grown.consistent (fun h block hmem => hroots (h, block) (genesis_first _ hmem))
      fun hin => hkeys (List.mem_cons_of_mem _ hin),
    BlockStore.first_validated.grown.consistent (fun h block hmem => hroots (h, block) hmem) hkeys⟩

theorem zero_first_compatible : CoinState.Compatible zeroCoinstate BlockStore.firstCoinstate := by
  intro h block block' hblock hblock'
  have htheirs := BlockStore.first_validated.grown
  exact htheirs.tree.unique (genesis_first _ ((genesis_grown.represents.known h block).mp hblock))
    ((htheirs.represents.known h block').mp hblock')

theorem zero_first_heads : zeroCoinstate.head = .ok (genesis_block .residue) ∧
    BlockStore.firstCoinstate.head = .ok BlockStore.firstSibling ∧
    (genesis_block .residue).height < BlockStore.firstSibling.height ∧
    BlockStore.firstCoinstate.by_height_at_head = .ok firstIndex := by
  decide +kernel

theorem genesis_at_bottom (coinstate : CoinState) (index : Map Nat Block)
    (hindex : coinstate.by_height_at_head = .ok index) (hblock : index.lookup 0 = some (genesis_block .residue)) :
    AtHeight .residue coinstate 0 (BlockStore.residueHash (genesis_block .residue)) := by
  have hhash : (genesis_block .residue).hash .residue = .ok (BlockStore.residueHash (genesis_block .residue)) := by
    decide +kernel
  exact ⟨index, genesis_block .residue, hindex, hblock, hhash⟩

theorem zero_first_bottom :
    AtHeight .residue zeroCoinstate 0 (BlockStore.residueHash (genesis_block .residue)) ∧
      AtHeight .residue BlockStore.firstCoinstate 0 (BlockStore.residueHash (genesis_block .residue)) :=
  ⟨genesis_at_bottom zeroCoinstate (zeroCoinstate.by_height_at_head.toOption.getD ∅) (by decide +kernel)
      (by decide +kernel),
    genesis_at_bottom BlockStore.firstCoinstate firstIndex (by decide +kernel) (by decide +kernel)⟩

theorem initial_download_sibling :
    ∃ total, ∀ schedule reached, Duplex.run (Duplex.step
        (NetworkingThread.receive .residue (fun _ => quietMoment 1700000000) 0)
        (NetworkingThread.receive .residue (fun _ => quietMoment 1700000000) 0)) schedule
        ⟨(0, threadOf zeroCoinstate), (0, threadOf BlockStore.firstCoinstate), [],
          [(⟨0, 1, 0, 0⟩, .GetBlocks firstRequest)]⟩ = some reached →
      schedule.length ≤ total ∧ (reached.to_left = [] → reached.to_right = [] →
        schedule.length = total ∧
          Downloaded .residue BlockStore.firstCoinstate BlockStore.firstSibling 0 reached.left.2) := by
  obtain ⟨hconsistent, hconsistent'⟩ := zero_first_consistent
  obtain ⟨hhead, hhead', hhigher, hindex⟩ := zero_first_heads
  have hmissing : missing .residue zeroCoinstate BlockStore.firstSibling firstIndex = [BlockStore.firstSibling] := by
    decide +kernel
  have hrequest : get_get_blocks_message .residue zeroCoinstate = .ok firstRequest := by decide +kernel
  have hverdicts : validate_block_by_itself .residue BlockStore.firstSibling 1700000000 = .ok () ∧
      validate_block_in_coinstate .residue BlockStore.firstSibling BlockStore.firstCoinstate = .ok () ∧
      BlockStore.firstSibling.height % IBD_VALIDATION_SKIP ≠ 0 := by
    decide +kernel
  refine initial_download (thread_coinstate _) (thread_coinstate _) (thread_open _) (thread_open _) genesis_grown
    BlockStore.first_validated.grown hconsistent hconsistent' zero_first_compatible zero_first_bottom.1
    zero_first_bottom.2 hhead hhead' hhigher hindex residue_answers (thread_pool _) (thread_unused _) _ _ ?_ ?_ hrequest _
  · rw [hmissing]
    intro block hblock
    rw [List.mem_singleton.mp hblock]
    exact ⟨fun _ => hverdicts.1, hverdicts.2.1⟩
  · rw [hmissing]
    exact ⟨fun hflush => absurd (hflush.resolve_left Bool.false_ne_true) hverdicts.2.2, trivial⟩

end Sample

end Skepticoin
