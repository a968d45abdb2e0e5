import Skepticoin.CoinState.Agreement
import Skepticoin.Networking.Locator

namespace Skepticoin

open Guard FMap Tree

variable {crypto : Crypto} {mine theirs : CoinState} {entries entries' : List (Hash × Block)} {head block : Block}
  {index : Map Nat Block} {top m : Nat}

-- A coinstate that has the active chain of another up to a height, beside
-- blocks that are not too high.
structure CaughtUp (crypto : Crypto) (theirs : CoinState) (top m : Nat) (mine : CoinState) : Prop where
  grown : ∃ entries, CoinState.Grown crypto entries mine
  names : CoinState.Compatible mine theirs
  below : ∀ i ≤ m, ∀ h, AtHeight crypto theirs i h → h ∈ mine.block_by_hash
  above : ∀ i > m, ∀ h, AtHeight crypto theirs i h → h ∉ mine.block_by_hash
  others : ∀ h block, mine.block_by_hash.lookup h = some block →
    block.height ≤ top ∨ ∃ i, AtHeight crypto theirs i h

-- A block of the other's active chain comes with the one below it.
theorem known_below (hmine : CoinState.Grown crypto entries mine) (hchain : ActiveChain crypto theirs head index)
    (hzero : zero_hash ∉ theirs.block_by_hash) (hnames : CoinState.Compatible mine theirs) {i : Nat} {h p : Hash}
    (hat : AtHeight crypto theirs (i + 1) h) (hknown : h ∈ mine.block_by_hash) (hbelow : AtHeight crypto theirs i p) :
    p ∈ mine.block_by_hash := by
  have hrep := hmine.represents
  obtain ⟨_, block, hblock, _, hindex⟩ := hchain.known_at hat
  obtain ⟨own, hown⟩ := Finmap.mem_iff.mp hknown
  rw [hnames h own block hown hblock] at hown
  have hname := (hchain.named_iff hindex).mpr hbelow
  obtain ⟨_, previous, hprevious, _⟩ := hchain.known_at hbelow
  have hne : block.previous_block_hash ≠ zero_hash := by
    rw [hname]
    exact fun heq => hzero (heq ▸ Finmap.mem_of_lookup_eq_some hprevious)
  obtain ⟨q, hq, _⟩ := hmine.tree.parent_mem ((hrep.known h block).mp hown) (Block.parent_eq_some.mpr ⟨hne, hname⟩)
  exact Finmap.mem_of_lookup_eq_some ((hrep.known p q).mpr hq)

-- What is known of the other's active chain reaches up to some height.
theorem caught_up_start (hmine : CoinState.Grown crypto entries mine) (htheirs : Consistent crypto theirs)
    (hnames : CoinState.Compatible mine theirs) {myHead : Block} (hmyHead : mine.head = .ok myHead)
    (hhead : theirs.head = .ok head) (hhigher : myHead.height < head.height) {genesis : Hash}
    (hgenesis : genesis ∈ mine.block_by_hash) (hgenesis' : AtHeight crypto theirs 0 genesis) :
    ∃ m < head.height, CaughtUp crypto theirs myHead.height m mine := by
  obtain ⟨index, hchain⟩ := htheirs.active_chain_of_head hhead
  have hrep := hmine.represents
  have hlow : ∀ h block, mine.block_by_hash.lookup h = some block → block.height ≤ myHead.height := by
    intro h block hblock
    obtain ⟨_, best, hbest, _, hmax⟩ := hrep.head_eq
    rw [Except.ok.inj (hmyHead.symm.trans hbest)]
    exact hmax (h, block) ((hrep.known h block).mp hblock)
  classical
  generalize hm : Nat.findGreatest (fun i => ∃ h, AtHeight crypto theirs i h ∧ h ∈ mine.block_by_hash) head.height = m
  have htop : ∃ h, AtHeight crypto theirs m h ∧ h ∈ mine.block_by_hash := by
    rw [← hm]
    exact Nat.findGreatest_spec (P := fun i => ∃ h, AtHeight crypto theirs i h ∧ h ∈ mine.block_by_hash)
      (Nat.zero_le _) ⟨genesis, hgenesis', hgenesis⟩
  obtain ⟨h, hat, hknown⟩ := htop
  obtain ⟨hle, block, hblock, hheight, _⟩ := hchain.known_at hat
  have hlt : m < head.height := by
    obtain ⟨own, hown⟩ := Finmap.mem_iff.mp hknown
    have hbound := hlow h own hown
    rw [hnames h own block hown hblock, hheight] at hbound
    exact lt_of_le_of_lt hbound hhigher
  refine ⟨m, hlt, ⟨entries, hmine⟩, hnames, ?_, ?_, fun h block hblock => .inl (hlow h block hblock)⟩
  · intro i hi
    induction hdepth : m - i generalizing i with
    | zero =>
        have heq : i = m := by omega
        intro h' hat'
        rw [heq] at hat'
        rw [hat'.unique hat]
        exact hknown
    | succ depth ih =>
        intro p hp
        obtain ⟨above, habove⟩ := hchain.exists_at (show i + 1 ≤ head.height by omega)
        have hknown := ih (i + 1) (by omega) (by omega) above habove
        exact known_below hmine hchain htheirs.indexed.1 hnames habove hknown hp
  · intro i hi h' hat' hmem
    have hin := (hchain.known_at hat').1
    have hgreatest : i ≤ m := by
      rw [← hm]
      exact Nat.le_findGreatest hin ⟨h', hat', hmem⟩
    omega

-- What is shared of what is known is not above what there is.
theorem CaughtUp.shared_le (h : CaughtUp crypto theirs top m mine) {hashes : List Hash} {shared : Nat}
    (hshared : HighestShared crypto theirs hashes shared) (hknown : ∀ hash ∈ hashes, hash ∈ mine.block_by_hash) :
    shared ≤ m := by
  cases hshared.2 with
  | inl hzero => exact hzero ▸ Nat.zero_le m
  | inr hlisted =>
      obtain ⟨hash, hmem, hat⟩ := hlisted
      by_contra hhigh
      exact h.above shared (Nat.not_le.mp hhigh) hash hat (hknown hash hmem)

-- The next block of the other's active chain.
theorem CaughtUp.next (h : CaughtUp crypto theirs top m mine) (htheirs : CoinState.Grown crypto entries' theirs)
    (hchain : ActiveChain crypto theirs head index) (hzero : zero_hash ∉ theirs.block_by_hash)
    (hblock : index.lookup (m + 1) = some block) :
    ∃ hash next, block.hash crypto = .ok hash ∧ hash ∉ mine.block_by_hash ∧
      block.previous_block_hash ∈ mine.block_by_hash ∧
      validate_block_in_coinstate crypto block mine = validate_block_in_coinstate crypto block theirs ∧
      mine.add_block_no_validation crypto block = .ok next ∧ CaughtUp crypto theirs top (m + 1) next := by
  obtain ⟨entries, hmine⟩ := h.grown
  have hrep := hmine.represents
  have hrep' := htheirs.represents
  obtain ⟨hheight, hash, hhash, hknown⟩ := hchain.known (m + 1) block hblock
  have hat : AtHeight crypto theirs (m + 1) hash := hchain.at_height_iff.mpr ⟨block, hblock, hhash⟩
  have hbelow : AtHeight crypto theirs m block.previous_block_hash := (hchain.named_iff hblock).mp rfl
  have hparent := h.below m (Nat.le_refl m) _ hbelow
  have hfresh := h.above (m + 1) (Nat.lt_succ_self m) hash hat
  obtain ⟨_, previous, hprevious, hlower, _⟩ := hchain.known_at hbelow
  have hne : block.previous_block_hash ≠ zero_hash := fun heq =>
    hzero (heq ▸ Finmap.mem_of_lookup_eq_some hprevious)
  have hsome : block.parent = some block.previous_block_hash := Block.parent_eq_some.mpr ⟨hne, rfl⟩
  have hsame := hmine.same_branch htheirs h.names hparent (Finmap.mem_of_lookup_eq_some hprevious)
  have hmem : (block.previous_block_hash, previous) ∈ entries :=
    (hrep.known _ _).mp (hsame.block.trans hprevious)
  obtain ⟨next, hadd⟩ := hrep.add_ok hhash hsome hmem (by
    intro before hbefore
    obtain ⟨s, after, hs, happly, _⟩ := hrep'.unspent.child hash block _ ((hrep'.known hash block).mp hknown) hsome
    rw [hsame.unspent, hs] at hbefore
    exact ⟨after, Option.some.inj hbefore ▸ happly⟩)
  have hnot : hash ∉ entries.map Prod.fst := fun hin => hfresh (hrep.mem_known.mpr hin)
  have hgrown : CoinState.Grown crypto ((hash, block) :: entries) next :=
    .add hmine hhash hnot hsome hmem (by rw [hheight, hlower]) hadd
  have hnext := hgrown.represents
  have hcases : ∀ k b, next.block_by_hash.lookup k = some b →
      k = hash ∧ b = block ∨ mine.block_by_hash.lookup k = some b := by
    intro k b hlookup
    cases List.mem_cons.mp ((hnext.known k b).mp hlookup) with
    | inl heq => exact .inl (Prod.mk.inj heq)
    | inr hold => exact .inr ((hrep.known k b).mpr hold)
  have hkeys : ∀ k, k ∈ next.block_by_hash ↔ k = hash ∨ k ∈ mine.block_by_hash := by
    intro k
    rw [hnext.mem_known, hrep.mem_known, List.map_cons, List.mem_cons]
  refine ⟨hash, next, hhash, hfresh, hparent, hsame.validate, hadd, ⟨_, hgrown⟩, ?_, ?_, ?_, ?_⟩
  · intro k b b' hb hb'
    cases hcases k b hb with
    | inl hnew =>
        rw [hnew.1, hknown] at hb'
        rw [hnew.2]
        exact Option.some.inj hb'
    | inr hold => exact h.names k b b' hold hb'
  · intro i hi k hk
    rw [hkeys]
    cases Nat.lt_or_eq_of_le hi with
    | inl hlt => exact .inr (h.below i (Nat.le_of_lt_succ hlt) k hk)
    | inr heq =>
        rw [heq] at hk
        exact .inl (hk.unique hat)
  · intro i hi k hk hin
    cases (hkeys k).mp hin with
    | inl heq =>
        rw [heq] at hk
        have hi' := hchain.height_unique hk hat
        omega
    | inr hold => exact h.above i (by omega) k hk hold
  · intro k b hb
    cases hcases k b hb with
    | inl hnew => exact .inr ⟨m + 1, hnew.1 ▸ hat⟩
    | inr hold => exact h.others k b hold

theorem Consistent.head_at {coinstate : CoinState} (h : Consistent crypto coinstate)
    (hchain : ActiveChain crypto coinstate head index) : index.lookup head.height = some head := by
  obtain ⟨top, hmem, hcurrent⟩ := h.current
  obtain ⟨block, hblock⟩ := Finmap.mem_iff.mp hmem
  obtain ⟨index', hindex, hchain'⟩ := h.chain hblock
  have hhead : coinstate.head = .ok block := by simp [CoinState.head, hcurrent, hblock]
  have hby : coinstate.by_height_at_head = .ok index' := by simp [CoinState.by_height_at_head, hcurrent, hindex]
  rw [Except.ok.inj (hchain.at_head.symm.trans hhead), Except.ok.inj (hchain.by_height.symm.trans hby)]
  exact hchain'.top

-- Who has the other's active chain up to a height, and nothing else that is as
-- high, has its head there.
theorem CaughtUp.head_at (h : CaughtUp crypto theirs top m mine) (hchain : ActiveChain crypto theirs head index)
    (hblock : index.lookup m = some block) (htop : top < m) : mine.head = .ok block := by
  obtain ⟨entries, hmine⟩ := h.grown
  have hrep := hmine.represents
  obtain ⟨k, best, hbest, hmem, hmax⟩ := hrep.head_eq
  obtain ⟨hheight, hash, hhash, hknown⟩ := hchain.known m block hblock
  have hat : AtHeight crypto theirs m hash := hchain.at_height_iff.mpr ⟨block, hblock, hhash⟩
  obtain ⟨own, hown⟩ := Finmap.mem_iff.mp (h.below m (Nat.le_refl m) hash hat)
  rw [h.names hash own block hown hknown] at hown
  have hle : block.height ≤ best.height := hmax (hash, block) ((hrep.known hash block).mp hown)
  have hlookup := (hrep.known k best).mpr hmem
  rw [hbest]
  have hon : ∃ i, AtHeight crypto theirs i k := by
    cases h.others k best hlookup with
    | inl hlow => omega
    | inr hon => exact hon
  obtain ⟨i, hi⟩ := hon
  obtain ⟨_, other, hother, hheight', hindex'⟩ := hchain.known_at hi
  rw [h.names k best other hlookup hother] at hle ⊢
  have hbound : i ≤ m := by
    by_contra habove
    exact h.above i (Nat.not_le.mp habove) k hi (Finmap.mem_of_lookup_eq_some hlookup)
  have heq : i = m := by omega
  rw [heq, hblock] at hindex'
  rw [← Option.some.inj hindex']

-- The blocks of the other's active chain above a height.
def chain_above (index : Map Nat Block) (head : Block) (m : Nat) : List Block :=
  (List.range' (m + 1) (head.height - m)).filterMap index.lookup

theorem chain_above_next (hlt : m < head.height) {block : Block} (hblock : index.lookup (m + 1) = some block) :
    chain_above index head m = block :: chain_above index head (m + 1) := by
  have hcount : head.height - m = head.height - (m + 1) + 1 := by omega
  rw [chain_above, hcount, List.range'_succ, List.filterMap_cons, hblock]
  rfl

-- The blocks of the other's active chain that are not known yet, from the bottom.
def missing (crypto : Crypto) (mine : CoinState) (head : Block) (index : Map Nat Block) : List Block :=
  ((List.range (head.height + 1)).filterMap fun i => index.lookup i).filter fun block =>
    (block.hash crypto).toOption.all fun h => h ∉ mine.block_by_hash

theorem CaughtUp.missing_eq (h : CaughtUp crypto theirs top m mine) (hchain : ActiveChain crypto theirs head index)
    (hm : m ≤ head.height) : missing crypto mine head index = chain_above index head m := by
  have hknown : ∀ i block, index.lookup i = some block →
      ((block.hash crypto).toOption.all (fun h => h ∉ mine.block_by_hash) = true ↔ m < i) := by
    intro i block hblock
    obtain ⟨_, hash, hhash, _⟩ := hchain.known i block hblock
    have hat : AtHeight crypto theirs i hash := hchain.at_height_iff.mpr ⟨block, hblock, hhash⟩
    rw [hhash]
    simp only [Except.toOption, Option.all_some, decide_eq_true_eq]
    constructor
    · intro hunknown
      by_contra hle
      exact hunknown (h.below i (Nat.not_lt.mp hle) hash hat)
    · exact fun hlt => h.above i hlt hash hat
  have hrange : List.range (head.height + 1) = List.range' 0 (m + 1) ++ List.range' (m + 1) (head.height - m) := by
    have hcount : head.height + 1 = m + 1 + (head.height - m) := by omega
    rw [List.range_eq_range', hcount, ← List.range'_append_1, Nat.zero_add]
  rw [missing, hrange, List.filterMap_append, List.filter_append, List.filter_eq_nil_iff.mpr, List.nil_append,
    List.filter_eq_self.mpr, chain_above]
  · intro block hmem
    obtain ⟨i, hi, hblock⟩ := List.mem_filterMap.mp hmem
    exact (hknown i block hblock).mpr (List.mem_range'_1.mp hi).1
  · intro block hmem hunknown
    obtain ⟨i, hi, hblock⟩ := List.mem_filterMap.mp hmem
    have hlt := (hknown i block hblock).mp hunknown
    have hrange := (List.mem_range'_1.mp hi).2
    omega

end Skepticoin
