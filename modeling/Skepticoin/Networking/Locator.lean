import Skepticoin.Networking.Download

namespace Skepticoin

open Guard FMap

variable {crypto : Crypto}

section Ages

-- The squares come one after another, 2 x - 1 apart.
theorem exists_square_age {d : Nat} (hlow : 10 ≤ d) (hhigh : d ≤ 3969) :
    ∃ x, 4 ≤ x ∧ x < 64 ∧ d ≤ x ^ 2 ∧ x ^ 2 ≤ d + 125 := by
  have hroot := Nat.sqrt_le' (d - 1)
  have hnext := Nat.lt_succ_sqrt' (d - 1)
  generalize (d - 1).sqrt = r at hroot hnext
  rw [Nat.succ_eq_add_one] at hnext
  have hmin : 3 ≤ r := by
    by_contra hsmall
    have hsquare : (r + 1) ^ 2 ≤ 3 ^ 2 := Nat.pow_le_pow_left (by omega) 2
    omega
  have hmax : r ≤ 62 := by
    by_contra hlarge
    have hsquare : 63 ^ 2 ≤ r ^ 2 := Nat.pow_le_pow_left (by omega) 2
    omega
  have hgap : (r + 1) ^ 2 = r ^ 2 + 2 * r + 1 := by ring
  exact ⟨r + 1, by omega, by omega, by omega, by omega⟩

-- So to a depth that is not beyond the last age there is an age a little larger.
theorem exists_recent_height {block_height i d : Nat} (hdepth : i + d = block_height) (hd : d ≤ 3969) :
    ∃ gap ≤ 125, i < gap ∨ i - gap ∈ get_recent_block_heights block_height := by
  have hage : ∃ age ∈ List.range 10 ++ (List.range' 4 60).map fun x => x ^ 2, d ≤ age ∧ age ≤ d + 125 := by
    by_cases hsmall : d < 10
    · exact ⟨d, List.mem_append_left _ (List.mem_range.mpr hsmall), by omega, by omega⟩
    · obtain ⟨x, hmin, hmax, hle, hgap⟩ := exists_square_age (by omega : 10 ≤ d) hd
      have hmem : x ∈ List.range' 4 60 := List.mem_range'_1.mpr ⟨hmin, by omega⟩
      exact ⟨x ^ 2, List.mem_append_right _ (List.mem_map_of_mem hmem), hle, hgap⟩
  obtain ⟨age, hmem, hle, hgap⟩ := hage
  refine ⟨age - d, by omega, ?_⟩
  by_cases hbelow : age ≤ block_height
  · right
    refine List.mem_filterMap.mpr ⟨age, hmem, ?_⟩
    rw [if_pos hbelow]
    congr 1
    omega
  · left
    omega

end Ages

section Fork

variable {mine theirs : CoinState}

theorem AtHeight.unique {coinstate : CoinState} {i : Nat} {h h' : Hash} (hat : AtHeight crypto coinstate i h)
    (hat' : AtHeight crypto coinstate i h') : h = h' := by
  obtain ⟨index, block, hindex, hblock, hhash⟩ := hat
  obtain ⟨index', block', hindex', hblock', hhash'⟩ := hat'
  rw [Except.ok.inj (hindex'.symm.trans hindex), hblock] at hblock'
  rw [← Option.some.inj hblock', hhash] at hhash'
  exact Except.ok.inj hhash'

-- The active chains have the same blocks just at the heights up to one.
def SharedUpTo (crypto : Crypto) (mine theirs : CoinState) (top : Nat) : Prop :=
  ∀ i, (∃ h, AtHeight crypto mine i h ∧ AtHeight crypto theirs i h) ↔ i ≤ top

-- The highest shared block that a request lists is at most a gap below the fork.
theorem HighestShared.near_fork {myHead head : Block} {myIndex index : Map Nat Block}
    (hmyChain : ActiveChain crypto mine myHead myIndex) (hchain : ActiveChain crypto theirs head index)
    (hsame : SameHeights mine theirs) {fork d shared : Nat} (hdepth : fork + d = myHead.height) (hd : d ≤ 3969)
    (hfork : SharedUpTo crypto mine theirs fork) {hashes : List Hash}
    (hlocator : List.Forall₂ (AtHeight crypto mine) (get_recent_block_heights myHead.height) hashes)
    (hshared : HighestShared crypto theirs hashes shared) : shared ≤ fork ∧ fork ≤ shared + 125 := by
  constructor
  · cases hshared.2 with
    | inl hzero => omega
    | inr hlisted =>
        obtain ⟨h, hmem, hat⟩ := hlisted
        obtain ⟨i, _, hown⟩ := forall₂_mem_left hlocator.flip hmem
        have hheight := hsame.at_height hmyChain hchain hown hat
        rw [← hheight] at hown
        exact (hfork shared).mp ⟨h, hown, hat⟩
  · obtain ⟨gap, hgap, hnear⟩ := exists_recent_height hdepth hd
    cases hnear with
    | inl hbottom => omega
    | inr hrecent =>
        obtain ⟨h, hmem, hown⟩ := forall₂_mem_left hlocator hrecent
        obtain ⟨other, hother, hat⟩ := (hfork (fork - gap)).mpr (Nat.sub_le _ _)
        rw [hother.unique hown] at hat
        have hle := hshared.1 _ h hmem hat
        omega

-- One page gets past the fork: its items are known up to the fork, and the
-- next one is there and is not.
theorem page_passes_fork (hmine : Consistent crypto mine) (htheirs : Consistent crypto theirs)
    {myHead head : Block} (hmyHead : mine.head = .ok myHead) (hhead : theirs.head = .ok head)
    (hhigher : myHead.height < head.height) (hsame : SameHeights mine theirs) {genesis : Hash}
    (hgenesis : AtHeight crypto mine 0 genesis) (hgenesis' : AtHeight crypto theirs 0 genesis) {d : Nat}
    (hd : d ≤ 3969)
    (hshare : ∀ i, (∃ h, AtHeight crypto mine i h ∧ AtHeight crypto theirs i h) ↔ i + d ≤ myHead.height) :
    ∃ request before item after, get_get_blocks_message crypto mine = .ok request ∧
      handle_get_blocks_message_received crypto theirs request = .ok ⟨before ++ item :: after⟩ ∧
      (∀ other ∈ before, ∃ i, AtHeight crypto mine i other.hash) ∧
      (∀ i, ¬AtHeight crypto mine i item.hash) ∧
      item.data_type = DATA_BLOCK ∧ AtHeight crypto theirs (myHead.height - d + 1) item.hash := by
  obtain ⟨myIndex, hmyChain⟩ := hmine.active_chain_of_head hmyHead
  obtain ⟨index, hchain⟩ := htheirs.active_chain_of_head hhead
  have hdepth : 0 + d ≤ myHead.height := (hshare 0).mp ⟨genesis, hgenesis, hgenesis'⟩
  generalize hforkAt : myHead.height - d = fork
  have hfork : SharedUpTo crypto mine theirs fork := by
    intro i
    rw [hshare]
    omega
  obtain ⟨request, shared, hrequest, hlocator, hhighest, hlt, hstart⟩ :=
    requested_start hmyChain hchain hhigher hsame
  obtain ⟨hbelow, hnear⟩ := hhighest.near_fork hmyChain hchain hsame (by omega) hd hfork hlocator
  obtain ⟨items, hreply, hitems⟩ := reply_from hchain hstart
  -- the page reaches the first height above the fork
  have hsize : GET_BLOCKS_INVENTORY_SIZE = 500 := rfl
  generalize hcount : min (shared + 1 + GET_BLOCKS_INVENTORY_SIZE) (head.height + 1) - (shared + 1) = count at hitems
  have hsplit : List.range' (shared + 1) count = List.range' (shared + 1) (fork - shared) ++
      (fork + 1) :: List.range' (fork + 2) (count - (fork - shared) - 1) := by
    have hrest : count = fork - shared + (count - (fork - shared) - 1 + 1) := by omega
    have hnext : shared + 1 + (fork - shared) = fork + 1 := by omega
    conv_lhs => rw [hrest]
    rw [← List.range'_append_1, List.range'_succ, hnext]
  rw [hsplit] at hitems
  obtain ⟨before, item, after, rfl, hbefore, htype, hat⟩ := forall₂_append_cons hitems
  refine ⟨request, before, item, after, hrequest, hreply, ?_, ?_, htype, hat⟩
  · intro other hother
    obtain ⟨i, hi, _, hon⟩ := forall₂_mem_left hbefore.flip hother
    have hrange := List.mem_range'_1.mp hi
    obtain ⟨h, hown, hon'⟩ := (hfork i).mpr (by omega)
    rw [hon.unique hon']
    exact ⟨i, hown⟩
  · intro i hown
    have hheight := hsame.at_height hmyChain hchain hown hat
    rw [← hheight] at hown
    have hle := (hfork (fork + 1)).mp ⟨item.hash, hown, hat⟩
    omega

-- The lower branch of the fork is one block deep.
theorem page_passes_fork_fork :
    ∃ request before item after, get_get_blocks_message .residue (CoinState.forkCoinstate 2) = .ok request ∧
      handle_get_blocks_message_received .residue (CoinState.forkCoinstate 4) request =
        .ok ⟨before ++ item :: after⟩ ∧
      (∀ other ∈ before, ∃ i, AtHeight .residue (CoinState.forkCoinstate 2) i other.hash) ∧
      (∀ i, ¬AtHeight .residue (CoinState.forkCoinstate 2) i item.hash) ∧
      item.data_type = DATA_BLOCK ∧ AtHeight .residue (CoinState.forkCoinstate 4) 1 item.hash := by
  have hmyHead : (CoinState.forkCoinstate 2).head = .ok (CoinState.bareBlock 2 1 1) := by decide +kernel
  have hhead : (CoinState.forkCoinstate 4).head = .ok (CoinState.bareBlock 4 3 2) := by decide +kernel
  have hlow : AtHeight .residue (CoinState.forkCoinstate 2) 1 (.ofNat 32 2) :=
    ⟨forkIndex 2, CoinState.bareBlock 2 1 1, by decide +kernel, by decide +kernel, rfl⟩
  have hhigh : AtHeight .residue (CoinState.forkCoinstate 4) 1 (.ofNat 32 3) :=
    ⟨forkIndex 4, CoinState.bareBlock 3 1 1, by decide +kernel, by decide +kernel, rfl⟩
  have hshare : ∀ i, (∃ h, AtHeight .residue (CoinState.forkCoinstate 2) i h ∧
      AtHeight .residue (CoinState.forkCoinstate 4) i h) ↔ i + 1 ≤ (CoinState.bareBlock 2 1 1).height := by
    intro i
    obtain ⟨index, hchain⟩ := CoinState.fork_first_consistent.active_chain_of_head hmyHead
    constructor
    · intro hboth
      obtain ⟨h, hmine, htheirs⟩ := hboth
      obtain ⟨hle, _⟩ := hchain.known_at hmine
      have hone : i ≠ 1 := by
        intro heq
        rw [heq] at hmine htheirs
        have hsame : (.ofNat 32 2 : Hash) = .ofNat 32 3 := (hlow.unique hmine).trans (htheirs.unique hhigh)
        exact absurd hsame (by decide +kernel)
      exact Nat.succ_le_of_lt (Nat.lt_of_le_of_ne hle hone)
    · intro hle
      have hzero : i = 0 := Nat.le_zero.mp (Nat.le_of_succ_le_succ hle)
      rw [hzero]
      exact ⟨.ofNat 32 1, fork_genesis_first, fork_genesis⟩
  exact page_passes_fork CoinState.fork_first_consistent CoinState.fork_consistent hmyHead hhead (by decide)
    fork_same_heights fork_genesis_first fork_genesis (by decide) hshare

end Fork

end Skepticoin
