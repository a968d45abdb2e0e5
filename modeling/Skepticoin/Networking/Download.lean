import Skepticoin.CoinState.ActiveChain
import Skepticoin.Networking.RemotePeer

namespace Skepticoin

open Guard FMap

variable {crypto : Crypto}

section Locator

theorem recent_height_le {block_height height : Nat} (h : height ∈ get_recent_block_heights block_height) :
    height ≤ block_height := by
  obtain ⟨o, _, ho⟩ := List.mem_filterMap.mp h
  split_ifs at ho
  rw [← Option.some.inj ho]
  exact Nat.sub_le _ _

-- The locator goes down from the head.
theorem recent_heights_descend (block_height : Nat) :
    (get_recent_block_heights block_height).Pairwise fun a b => b < a := by
  have holdness : (List.range 10 ++ (List.range' 4 60).map fun x => x ^ 2).Pairwise fun a b => a < b := by
    decide
  unfold get_recent_block_heights
  refine holdness.filterMap _ ?_
  intro o o' hlt height hheight height' hheight'
  split_ifs at hheight hheight'
  rw [← Option.some.inj hheight, ← Option.some.inj hheight']
  omega

theorem get_blocks_request {coinstate : CoinState} {head : Block} {index : Map Nat Block}
    (h : ActiveChain crypto coinstate head index) :
    ∃ request, get_get_blocks_message crypto coinstate = .ok request ∧
      List.Forall₂ (AtHeight crypto coinstate) (get_recent_block_heights head.height)
        request.potential_start_hashes := by
  have hall : ∀ height ∈ get_recent_block_heights head.height, ∃ hash, (do
      let block_by_height ← coinstate.by_height_at_head
      let block ← getItem block_by_height height
      block.hash crypto) = .ok hash := by
    intro height hheight
    obtain ⟨hash, hat⟩ := h.exists_at (recent_height_le hheight)
    obtain ⟨block, hblock, hhash⟩ := h.at_height_iff.mp hat
    exact ⟨hash, by simp [h.by_height, hblock, hhash]⟩
  obtain ⟨hashes, hhashes⟩ := collect_ok _ _ hall
  refine ⟨⟨hashes, zero_hash⟩, ?_, ?_⟩
  · simp only [get_get_blocks_message, h.at_head, bind_eq_ok, pure_eq_ok]
    exact ⟨head, rfl, hashes, hhashes, rfl⟩
  · refine (collect_eq_ok.mp hhashes).imp fun height hash hrun => ?_
    simp only [h.by_height, bind_eq_ok, getItem_eq_ok, Except.ok.injEq, exists_eq_left'] at hrun
    obtain ⟨block, hblock, hhash⟩ := hrun
    exact h.at_height_iff.mpr ⟨block, hblock, hhash⟩

end Locator

section Reply

variable {remote : CoinState} {head : Block} {index : Map Nat Block} {hash : Hash} {hashes : List Hash}

-- The next block of the chain decides on a block that is known.
theorem find_start_known (h : ActiveChain crypto remote head index) {block : Block}
    (hknown : remote.block_by_hash.lookup hash = some block) :
    find_start_height remote (hash :: hashes) =
      (index.lookup (block.height + 1)).elim (.ok none) fun next =>
        if next.previous_block_hash = hash then .ok (some (block.height + 1))
        else find_start_height remote hashes := by
  simp only [find_start_height, hknown, h.by_height, bind, Except.bind]
  cases index.lookup (block.height + 1) with
  | none => rfl
  | some next => rfl

-- A hash that is not on the chain, of a height that could be, is passed over.
theorem find_start_skip (h : ActiveChain crypto remote head index)
    (hoff : ∀ i, ¬AtHeight crypto remote i hash)
    (hlow : ∀ block, remote.block_by_hash.lookup hash = some block → block.height < head.height) :
    find_start_height remote (hash :: hashes) = find_start_height remote hashes := by
  cases hknown : remote.block_by_hash.lookup hash with
  | none => rw [find_start_height, hknown]
  | some block =>
      have hlt := hlow block hknown
      obtain ⟨next, hnext⟩ := Finmap.mem_iff.mp ((h.heights (block.height + 1)).mpr (by omega))
      have hname : next.previous_block_hash ≠ hash := fun heq => hoff _ ((h.named_iff hnext).mp heq)
      rw [find_start_known h hknown, hnext, Option.elim_some]
      exact if_neg hname

theorem find_start_hit (h : ActiveChain crypto remote head index) (hashes : List Hash) {i : Nat}
    (hat : AtHeight crypto remote i hash) (hi : i < head.height) :
    find_start_height remote (hash :: hashes) = .ok (some (i + 1)) := by
  obtain ⟨_, block, hknown, hheight, _⟩ := h.known_at hat
  obtain ⟨next, hnext⟩ := Finmap.mem_iff.mp ((h.heights (i + 1)).mpr hi)
  have hname := (h.named_iff hnext).mpr hat
  rw [find_start_known h hknown, hheight, hnext, Option.elim_some]
  exact if_pos hname

theorem find_start_top (h : ActiveChain crypto remote head index) (hashes : List Hash)
    (hat : AtHeight crypto remote head.height hash) :
    find_start_height remote (hash :: hashes) = .ok none := by
  obtain ⟨_, block, hknown, hheight, _⟩ := h.known_at hat
  have hnone : index.lookup (block.height + 1) = none := by
    rw [Finmap.lookup_eq_none, h.heights]
    omega
  rw [find_start_known h hknown, hnone, Option.elim_none]

-- The loop stops at the first hash on the chain, and starts from the bottom
-- where there is none.
theorem find_start (h : ActiveChain crypto remote head index)
    (hlow : ∀ hash ∈ hashes, ∀ block, remote.block_by_hash.lookup hash = some block →
      block.height < head.height) :
    (find_start_height remote hashes = .ok (some 1) ∧
      ∀ hash ∈ hashes, ∀ i, ¬AtHeight crypto remote i hash) ∨
    ∃ before hash after i, hashes = before ++ hash :: after ∧
      (∀ other ∈ before, ∀ i, ¬AtHeight crypto remote i other) ∧ AtHeight crypto remote i hash ∧
      i < head.height ∧ find_start_height remote hashes = .ok (some (i + 1)) := by
  induction hashes with
  | nil => exact .inl ⟨rfl, fun hash hmem => absurd hmem List.not_mem_nil⟩
  | cons hash hashes ih =>
      by_cases hon : ∃ i, AtHeight crypto remote i hash
      · obtain ⟨i, hat⟩ := hon
        obtain ⟨_, block, hknown, hheight, _⟩ := h.known_at hat
        have hlt := hlow hash List.mem_cons_self block hknown
        have hi : i < head.height := by omega
        exact .inr ⟨[], hash, hashes, i, rfl, fun other hmem => absurd hmem List.not_mem_nil, hat, hi,
          find_start_hit h hashes hat hi⟩
      · have hoff : ∀ i, ¬AtHeight crypto remote i hash := fun i hat => hon ⟨i, hat⟩
        rw [find_start_skip h hoff (hlow hash List.mem_cons_self)]
        cases ih fun other hmem => hlow other (List.mem_cons_of_mem _ hmem) with
        | inl hnone => exact .inl ⟨hnone.1, List.forall_mem_cons.mpr ⟨hoff, hnone.2⟩⟩
        | inr hfound =>
            obtain ⟨before, found, after, i, hsplit, hbefore, hrest⟩ := hfound
            exact .inr ⟨hash :: before, found, after, i, by rw [hsplit, List.cons_append],
              List.forall_mem_cons.mpr ⟨hoff, hbefore⟩, hrest⟩

-- An item that lists the block of a height.
def Listed (crypto : Crypto) (remote : CoinState) (i : Nat) (item : InventoryItem) : Prop :=
  item.data_type = DATA_BLOCK ∧ AtHeight crypto remote i item.hash

theorem reply_from (h : ActiveChain crypto remote head index) {message : GetBlocksMessage} {start : Nat}
    (hstart : find_start_height remote message.potential_start_hashes = .ok (some start)) :
    ∃ items, handle_get_blocks_message_received crypto remote message = .ok ⟨items⟩ ∧
      List.Forall₂ (Listed crypto remote)
        (List.range' start (min (start + GET_BLOCKS_INVENTORY_SIZE) (head.height + 1) - start)) items := by
  have hall : ∀ i ∈ List.range' start
      (min (start + GET_BLOCKS_INVENTORY_SIZE) (head.height + 1) - start),
      ∃ item, inventory_item crypto remote i = .ok item := by
    intro i hi
    have hrange := List.mem_range'_1.mp hi
    obtain ⟨hash, hat⟩ := h.exists_at (show i ≤ head.height by omega)
    obtain ⟨block, hblock, hhash⟩ := h.at_height_iff.mp hat
    exact ⟨⟨DATA_BLOCK, hash⟩, by simp [inventory_item, h.by_height, hblock, hhash]⟩
  obtain ⟨items, hitems⟩ := collect_ok _ _ hall
  refine ⟨items, ?_, ?_⟩
  · rw [handle_get_blocks_message_received, hstart]
    show (do
      let head ← remote.head
      let items ← collect (inventory_item crypto remote) (List.range' start
        (min (start + GET_BLOCKS_INVENTORY_SIZE) (head.height + 1) - start))
      return InventoryMessage.mk items) = Except.ok (InventoryMessage.mk items)
    simp only [h.at_head, bind_eq_ok, pure_eq_ok]
    exact ⟨head, rfl, items, hitems, rfl⟩
  · refine (collect_eq_ok.mp hitems).imp fun i item hrun => ?_
    simp only [inventory_item, h.by_height, bind_eq_ok, pure_eq_ok, getItem_eq_ok, Except.ok.injEq,
      exists_eq_left'] at hrun
    obtain ⟨block, hblock, hash, hhash, hitem⟩ := hrun
    subst hitem
    exact ⟨rfl, h.at_height_iff.mpr ⟨block, hblock, hhash⟩⟩

end Reply

section Exchange

-- The request that follows a page.
def follow_up (reply : InventoryMessage) : Option GetBlocksMessage :=
  reply.items.getLast?.map fun item => { potential_start_hashes := [item.hash] }

variable (crypto) in
-- The first n replies to a request and its follow-ups.
def exchange (remote : CoinState) : Nat → GetBlocksMessage → Py (List InventoryMessage)
  | 0, _ => .ok []
  | n + 1, message => do
    let reply ← handle_get_blocks_message_received crypto remote message
    match follow_up reply with
    | none => return [reply]
    | some message => do
      let replies ← exchange remote n message
      return reply :: replies

theorem request_data {coinstate : CoinState} {msg_state : InventoryMessageState} {entry : Sent}
    (h : entry ∈ (use_inventory_message coinstate msg_state).2) : ∃ message, entry.2 = .GetData message := by
  unfold use_inventory_message at h
  split_ifs at h
  · cases h
  · obtain ⟨requested, hrequested, hin⟩ := List.mem_flatMap.mp h
    obtain ⟨item, _, hitem⟩ := List.mem_map.mp hrequested
    rw [← hitem, request_item] at hin
    split_ifs at hin
    · rw [List.mem_singleton.mp hin]
      exact ⟨_, rfl⟩
    · cases hin

theorem check_data {coinstate : CoinState} {msg_states : List InventoryMessageState} {entry : Sent}
    (h : entry ∈ (check_inventory_messages coinstate msg_states).2) : ∃ message, entry.2 = .GetData message := by
  obtain ⟨used, hused, hin⟩ := List.mem_flatMap.mp h
  obtain ⟨msg_state, _, heq⟩ := List.mem_map.mp hused
  rw [← heq] at hin
  exact request_data hin

-- The receiver of a page asks for data, and then for what follows the page.
theorem follow_up_sent {coinstate : CoinState} {current_time : Nat} {inventory inventory' : Inventory}
    {header : MessageHeader} {message : InventoryMessage} {sent : List Sent}
    (h : handle_inventory_message_received coinstate current_time inventory header message =
      .ok (inventory', sent)) :
    ∃ requested, (∀ entry ∈ requested, ∃ message, entry.2 = .GetData message) ∧
      sent = requested ++ (follow_up message).toList.map fun next => (header, .GetBlocks next) := by
  simp only [handle_inventory_message_received, bind_eq_ok, raiseIf_eq_ok, exists_const] at h
  obtain ⟨_, h⟩ := h
  by_cases hempty : message.items = []
  · rw [if_pos hempty, pure_eq_ok, Prod.mk.injEq] at h
    refine ⟨[], fun _ hmem => absurd hmem List.not_mem_nil, ?_⟩
    rw [← h.2, follow_up, hempty]
    rfl
  · rw [if_neg hempty] at h
    simp only [bind_eq_ok, pure_eq_ok, Prod.mk.injEq] at h
    obtain ⟨last, hlast, _, hsent⟩ := h
    rw [last_item] at hlast
    cases hget : message.items.getLast? with
    | none => exact absurd (List.getLast?_eq_none_iff.mp hget) hempty
    | some item =>
        rw [hget] at hlast
        have hnext : (follow_up message).toList.map (fun next => (header, Message.GetBlocks next)) =
            [(header, .GetBlocks ⟨[last.hash], zero_hash⟩)] := by
          rw [follow_up, hget, ← Except.ok.inj hlast]
          rfl
        rw [hnext]
        exact ⟨_, fun _ => check_data, hsent.symm⟩

variable {remote : CoinState} {head : Block} {index : Map Nat Block} {message : GetBlocksMessage}

theorem exchange_more {reply : InventoryMessage} {next : GetBlocksMessage} {replies : List InventoryMessage}
    {n : Nat} (hreply : handle_get_blocks_message_received crypto remote message = .ok reply)
    (hnext : follow_up reply = some next) (hreplies : exchange crypto remote n next = .ok replies) :
    exchange crypto remote (n + 1) message = .ok (reply :: replies) := by
  simp only [exchange, bind_eq_ok]
  refine ⟨reply, hreply, ?_⟩
  rw [hnext]
  simp only [hreplies, bind_eq_ok, pure_eq_ok, Except.ok.injEq, exists_eq_left']

theorem exchange_end {n : Nat} (hreply : handle_get_blocks_message_received crypto remote message = .ok ⟨[]⟩) :
    exchange crypto remote (n + 1) message = .ok [⟨[]⟩] := by
  simp only [exchange, bind_eq_ok]
  exact ⟨⟨[]⟩, hreply, rfl⟩

-- From a start that the loop finds, the pages list the rest of the chain. The
-- induction is on what is left of it.
theorem replies_run (h : ActiveChain crypto remote head index) {start : Nat}
    (hstart : find_start_height remote message.potential_start_hashes = .ok (some start))
    (hle : start ≤ head.height) :
    ∃ pages, (∀ n > pages.length, exchange crypto remote n message = .ok (pages ++ [⟨[]⟩])) ∧
      (∀ page ∈ pages, page.items.length ≤ GET_BLOCKS_INVENTORY_SIZE) ∧
      List.Forall₂ (Listed crypto remote) (List.range' start (head.height + 1 - start))
        (pages.flatMap InventoryMessage.items) := by
  induction hleft : head.height + 1 - start using Nat.strong_induction_on generalizing start message with
  | _ left ih =>
      obtain ⟨items, hreply, hitems⟩ := reply_from h hstart
      have hsize : GET_BLOCKS_INVENTORY_SIZE = 500 := rfl
      generalize hcount : min (start + GET_BLOCKS_INVENTORY_SIZE) (head.height + 1) - start = count at hitems
      have hlast : (List.range' start count).getLast? = some (start + count - 1) := by
        rw [List.getLast?_range', if_neg (by omega)]
      obtain ⟨last, hget, _, hat⟩ := forall₂_getLast hitems hlast
      have hnext : follow_up ⟨items⟩ = some ⟨[last.hash], zero_hash⟩ := by
        rw [follow_up, hget]
        rfl
      have hlength : items.length ≤ GET_BLOCKS_INVENTORY_SIZE := by
        rw [← hitems.length_eq, List.length_range']
        omega
      by_cases htop : start + count = head.height + 1
      · have hend : handle_get_blocks_message_received crypto remote ⟨[last.hash], zero_hash⟩ = .ok ⟨[]⟩ := by
          have hheight : start + count - 1 = head.height := by omega
          rw [hheight] at hat
          have hnone := find_start_top h [] hat
          rw [handle_get_blocks_message_received, hnone]
          rfl
        refine ⟨[⟨items⟩], ?_, ?_, ?_⟩
        · intro n hn
          obtain ⟨m, hm⟩ : ∃ m, n = m + 1 + 1 := ⟨n - 2, by simp at hn; omega⟩
          rw [hm]
          exact exchange_more hreply hnext (exchange_end hend)
        · intro page hpage
          rw [List.mem_singleton.mp hpage]
          exact hlength
        · have hall : left = count := by omega
          rw [hall, List.flatMap_singleton]
          exact hitems
      · have hfull : start + count ≤ head.height := by omega
        have hsucc : start + count - 1 + 1 = start + count := by omega
        have hstart' : find_start_height remote (GetBlocksMessage.mk [last.hash] zero_hash).potential_start_hashes =
            .ok (some (start + count)) := by
          rw [← hsucc]
          exact find_start_hit h [] hat (by omega)
        obtain ⟨pages, hrun, hpages, hlisted⟩ := ih (head.height + 1 - (start + count)) (by omega)
          hstart' hfull rfl
        refine ⟨⟨items⟩ :: pages, ?_, ?_, ?_⟩
        · intro n hn
          obtain ⟨m, hm⟩ : ∃ m, n = m + 1 := ⟨n - 1, by omega⟩
          rw [hm] at hn ⊢
          exact exchange_more hreply hnext (hrun m (by simpa using hn))
        · exact List.forall_mem_cons.mpr ⟨hlength, hpages⟩
        · have hsplit : List.range' start left =
              List.range' start count ++ List.range' (start + count) (head.height + 1 - (start + count)) := by
            rw [List.range'_append_1]
            congr 1
            omega
          rw [hsplit, List.flatMap_cons]
          exact List.rel_append hitems hlisted

end Exchange

section Download

-- What two coinstates have under one hash stands at one height.
def SameHeights (mine theirs : CoinState) : Prop :=
  ∀ h block other, mine.block_by_hash.lookup h = some block → theirs.block_by_hash.lookup h = some other →
    block.height = other.height

-- The greatest height at which the chain has one of the hashes, or the bottom.
def HighestShared (crypto : Crypto) (remote : CoinState) (hashes : List Hash) (i : Nat) : Prop :=
  (∀ j, ∀ h ∈ hashes, AtHeight crypto remote j h → j ≤ i) ∧
    (i = 0 ∨ ∃ h ∈ hashes, AtHeight crypto remote i h)

theorem highest_shared_of_none {remote : CoinState} {hashes : List Hash}
    (hnone : ∀ h ∈ hashes, ∀ i, ¬AtHeight crypto remote i h) : HighestShared crypto remote hashes 0 := by
  refine ⟨?_, .inl rfl⟩
  intro j h hmem hat
  exact absurd hat (hnone h hmem j)

-- A hash on both chains is at one height.
theorem SameHeights.at_height {mine theirs : CoinState} {myHead head : Block} {myIndex index : Map Nat Block}
    (hsame : SameHeights mine theirs) (hmyChain : ActiveChain crypto mine myHead myIndex)
    (hchain : ActiveChain crypto theirs head index) {i j : Nat} {h : Hash} (hmine : AtHeight crypto mine i h)
    (htheirs : AtHeight crypto theirs j h) : j = i := by
  obtain ⟨_, own, hown, hheight, _⟩ := hmyChain.known_at hmine
  obtain ⟨_, block, hblock, hheight', _⟩ := hchain.known_at htheirs
  rw [← hheight, ← hheight', hsame h own block hown hblock]

-- The reply to a request starts above the highest shared block that it lists.
theorem requested_start {mine theirs : CoinState} {myHead head : Block} {myIndex index : Map Nat Block}
    (hmyChain : ActiveChain crypto mine myHead myIndex) (hchain : ActiveChain crypto theirs head index)
    (hhigher : myHead.height < head.height) (hsame : SameHeights mine theirs) :
    ∃ request shared, get_get_blocks_message crypto mine = .ok request ∧
      List.Forall₂ (AtHeight crypto mine) (get_recent_block_heights myHead.height)
        request.potential_start_hashes ∧
      HighestShared crypto theirs request.potential_start_hashes shared ∧ shared < head.height ∧
      find_start_height theirs request.potential_start_hashes = .ok (some (shared + 1)) := by
  obtain ⟨request, hrequest, hlocator⟩ := get_blocks_request hmyChain
  have hlow : ∀ h ∈ request.potential_start_hashes, ∀ block, theirs.block_by_hash.lookup h = some block →
      block.height < head.height := by
    intro h hmem block hblock
    obtain ⟨i, hi, hat⟩ := forall₂_mem_left hlocator.flip hmem
    obtain ⟨hle, own, hown, hheight, _⟩ := hmyChain.known_at hat
    rw [← hsame h own block hown hblock]
    omega
  have hdescend : request.potential_start_hashes.Pairwise fun a b =>
      ∀ i j, AtHeight crypto theirs i a → AtHeight crypto theirs j b → j < i := by
    refine forall₂_pairwise hlocator (recent_heights_descend myHead.height) ?_
    intro i j a b hlt hi hj i' j' hi' hj'
    rw [hsame.at_height hmyChain hchain hi hi', hsame.at_height hmyChain hchain hj hj']
    exact hlt
  cases find_start hchain hlow with
  | inl hnone =>
      obtain ⟨hstart, hoff⟩ := hnone
      exact ⟨request, 0, hrequest, hlocator, highest_shared_of_none hoff, by omega, hstart⟩
  | inr hfound =>
      obtain ⟨before, h, after, i, hsplit, hbefore, hat, hi, hstart⟩ := hfound
      have hmem : h ∈ request.potential_start_hashes := by
        rw [hsplit]
        simp
      refine ⟨request, i, hrequest, hlocator, ⟨?_, .inr ⟨h, hmem, hat⟩⟩, hi, hstart⟩
      intro j other hother hon
      rw [hsplit, List.pairwise_append] at hdescend
      rw [hsplit] at hother
      cases List.mem_append.mp hother with
      | inl hin => exact absurd hon (hbefore other hin j)
      | inr hin =>
          cases List.mem_cons.mp hin with
          | inl heq =>
              rw [heq] at hon
              exact Nat.le_of_eq (hchain.height_unique hon hat)
          | inr hlater =>
              have hlt := (List.pairwise_cons.mp hdescend.2.1).1 other hlater i j hat hon
              omega

theorem download_covers {mine theirs : CoinState} (hmine : Consistent crypto mine)
    (htheirs : Consistent crypto theirs) {myHead head : Block} (hmyHead : mine.head = .ok myHead)
    (hhead : theirs.head = .ok head) (hhigher : myHead.height < head.height) {genesis : Hash}
    (hgenesis : AtHeight crypto mine 0 genesis) (hgenesis' : AtHeight crypto theirs 0 genesis)
    (hsame : SameHeights mine theirs) :
    ∃ request shared pages, get_get_blocks_message crypto mine = .ok request ∧
      HighestShared crypto theirs request.potential_start_hashes shared ∧
      (∃ h ∈ mine.block_by_hash, AtHeight crypto theirs shared h) ∧
      (∀ n > pages.length, exchange crypto theirs n request = .ok (pages ++ [⟨[]⟩])) ∧
      (∀ page ∈ pages, page.items.length ≤ GET_BLOCKS_INVENTORY_SIZE) ∧
      List.Forall₂ (Listed crypto theirs) (List.range' (shared + 1) (head.height - shared))
        (pages.flatMap InventoryMessage.items) ∧
      ((pages.flatMap InventoryMessage.items).map InventoryItem.hash).Nodup := by
  obtain ⟨myIndex, hmyChain⟩ := hmine.active_chain_of_head hmyHead
  obtain ⟨index, hchain⟩ := htheirs.active_chain_of_head hhead
  obtain ⟨request, shared, hrequest, hlocator, hshared, hlt, hstart⟩ :=
    requested_start hmyChain hchain hhigher hsame
  have hknown : ∀ i h, AtHeight crypto mine i h → h ∈ mine.block_by_hash := by
    intro i h hat
    obtain ⟨_, block, hblock, _⟩ := hmyChain.known_at hat
    exact Finmap.mem_of_lookup_eq_some hblock
  have hfrom : ∃ h ∈ mine.block_by_hash, AtHeight crypto theirs shared h := by
    cases hshared.2 with
    | inl hzero =>
        rw [hzero]
        exact ⟨genesis, hknown 0 genesis hgenesis, hgenesis'⟩
    | inr hlisted =>
        obtain ⟨h, hmem, hat⟩ := hlisted
        obtain ⟨i, _, hown⟩ := forall₂_mem_left hlocator.flip hmem
        exact ⟨h, hknown i h hown, hat⟩
  obtain ⟨pages, hrun, hsize, hitems⟩ := replies_run hchain hstart (by omega)
  have hcount : head.height + 1 - (shared + 1) = head.height - shared := by omega
  rw [hcount] at hitems
  refine ⟨request, shared, pages, hrequest, hshared, hfrom, hrun, hsize, hitems, ?_⟩
  rw [List.Nodup, List.pairwise_map]
  refine forall₂_pairwise hitems List.nodup_range' ?_
  intro i j item item' hne hi hj heq
  exact hne (hchain.height_unique hi.2 (heq ▸ hj.2))

def forkIndex (n : Nat) : Map Nat Block := (CoinState.forkCoinstate n).by_height_at_head.toOption.getD ∅

theorem fork_genesis_first : AtHeight .residue (CoinState.forkCoinstate 2) 0 (.ofNat 32 1) :=
  ⟨forkIndex 2, CoinState.bareBlock 1 0 0, by decide +kernel, by decide +kernel, rfl⟩

theorem fork_genesis : AtHeight .residue (CoinState.forkCoinstate 4) 0 (.ofNat 32 1) :=
  ⟨forkIndex 4, CoinState.bareBlock 1 0 0, by decide +kernel, by decide +kernel, rfl⟩

theorem fork_same_heights : SameHeights (CoinState.forkCoinstate 2) (CoinState.forkCoinstate 4) := by
  intro h block other hblock hother
  have hrep := CoinState.fork_first_grown.represents
  have hrep' := CoinState.fork_grown.represents
  have hmem := List.mem_of_mem_drop ((hrep.known h block).mp hblock)
  rw [CoinState.fork_grown.tree.unique hmem ((hrep'.known h other).mp hother)]

-- A peer on the lower branch of the fork asks one on the higher branch.
theorem download_covers_fork :
    ∃ request shared pages, get_get_blocks_message .residue (CoinState.forkCoinstate 2) = .ok request ∧
      HighestShared .residue (CoinState.forkCoinstate 4) request.potential_start_hashes shared ∧
      (∃ h ∈ (CoinState.forkCoinstate 2).block_by_hash, AtHeight .residue (CoinState.forkCoinstate 4) shared h) ∧
      (∀ n > pages.length, exchange .residue (CoinState.forkCoinstate 4) n request = .ok (pages ++ [⟨[]⟩])) ∧
      (∀ page ∈ pages, page.items.length ≤ GET_BLOCKS_INVENTORY_SIZE) ∧
      List.Forall₂ (Listed .residue (CoinState.forkCoinstate 4)) (List.range' (shared + 1) (2 - shared))
        (pages.flatMap InventoryMessage.items) ∧
      ((pages.flatMap InventoryMessage.items).map InventoryItem.hash).Nodup := by
  have hmyHead : (CoinState.forkCoinstate 2).head = .ok (CoinState.bareBlock 2 1 1) := by decide +kernel
  have hhead : (CoinState.forkCoinstate 4).head = .ok (CoinState.bareBlock 4 3 2) := by decide +kernel
  exact download_covers CoinState.fork_first_consistent CoinState.fork_consistent hmyHead hhead (by decide)
    fork_genesis_first fork_genesis fork_same_heights

end Download

end Skepticoin
