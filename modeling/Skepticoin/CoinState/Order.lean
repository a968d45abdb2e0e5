import Skepticoin.CoinState.ForkChoice

namespace Skepticoin

open Guard FMap Tree

namespace CoinState

variable {crypto : Crypto}

-- A set of blocks with one root, closed under parents, in which a hash names
-- one block.
structure RootedSet (crypto : Crypto) (blocks : List Block) : Prop where
  nodup : blocks.Nodup
  root : ∃ root ∈ blocks, root.parent = none ∧ ∀ block ∈ blocks, block.parent = none → block = root
  closed : ∀ block ∈ blocks, ∀ p ∈ block.parent,
    ∃ previous ∈ blocks, previous.hash crypto = .ok p ∧ block.height = previous.height + 1
  injective : ∀ a ∈ blocks, ∀ b ∈ blocks, a.hash crypto = b.hash crypto → a = b

-- Every block comes after its parent; the blocks that came before are listed
-- newest first.
def ParentFirst (crypto : Crypto) (earlier : List Block) : List Block → Prop
  | [] => True
  | block :: later =>
    (∀ p ∈ block.parent, ∃ previous ∈ earlier, previous.hash crypto = .ok p) ∧
      ParentFirst crypto (block :: earlier) later

-- The entries of a tree that stand for the given blocks.
def Entries (crypto : Crypto) (blocks : List Block) (entries : List (Hash × Block)) : Prop :=
  ∀ h block, (h, block) ∈ entries ↔ block ∈ blocks ∧ block.hash crypto = .ok h

theorem Entries.cons {blocks : List Block} {entries : List (Hash × Block)} {h : Hash} {block : Block}
    (hentries : Entries crypto blocks entries) (hhash : block.hash crypto = .ok h) :
    Entries crypto (block :: blocks) ((h, block) :: entries) := by
  intro k b
  rw [List.mem_cons, List.mem_cons, hentries k b, Prod.mk.injEq]
  constructor
  · rintro (⟨rfl, rfl⟩ | ⟨hmem, hb⟩)
    · exact ⟨.inl rfl, hhash⟩
    · exact ⟨.inr hmem, hb⟩
  · rintro ⟨rfl | hmem, hb⟩
    · exact .inl ⟨Except.ok.inj (hb.symm.trans hhash), rfl⟩
    · exact .inr ⟨hmem, hb⟩

theorem hash_of_add {coinstate next : CoinState} {block : Block}
    (hadd : coinstate.add_block_no_validation crypto block = .ok next) :
    ∃ h, block.hash crypto = .ok h := by
  obtain ⟨h, _, _, hhash, _⟩ := lookup_added hadd
  exact ⟨h, hhash⟩

section Order

variable {all : List Block}

-- One more block of the set, after its parent and not seen before.
theorem grown_step (hset : RootedSet crypto all) {earlier : List Block} {entries : List (Hash × Block)}
    {coinstate next : CoinState} {block : Block} (hgrown : Grown crypto entries coinstate)
    (hentries : Entries crypto earlier entries) (hsub : ∀ b ∈ earlier, b ∈ all)
    (hblock : block ∈ all) (hnew : block ∉ earlier) (hroot : ∃ root ∈ earlier, root.parent = none)
    (hparents : ∀ p ∈ block.parent, ∃ previous ∈ earlier, previous.hash crypto = .ok p)
    (hadd : coinstate.add_block_no_validation crypto block = .ok next) :
    ∃ h, block.hash crypto = .ok h ∧ Grown crypto ((h, block) :: entries) next := by
  obtain ⟨h, hhash⟩ := hash_of_add hadd
  obtain ⟨p, hp⟩ : ∃ p, block.parent = some p := by
    refine Option.ne_none_iff_exists'.mp fun hnone => ?_
    obtain ⟨root, hmem, hnoparent⟩ := hroot
    obtain ⟨only, _, _, honly⟩ := hset.root
    have hsame := (honly block hblock hnone).trans (honly root (hsub root hmem) hnoparent).symm
    exact hnew (hsame ▸ hmem)
  obtain ⟨previous, hmem, hprevious⟩ := hparents p hp
  obtain ⟨previous', hmem', hprevious', hheight⟩ := hset.closed block hblock p hp
  obtain rfl := hset.injective previous (hsub _ hmem) previous' hmem' (hprevious.trans hprevious'.symm)
  refine ⟨h, hhash, .add hgrown hhash ?_ hp ((hentries p previous).mpr ⟨hmem, hprevious⟩) hheight hadd⟩
  intro hkey
  obtain ⟨⟨k, other⟩, hother, rfl⟩ := List.mem_map.mp hkey
  obtain ⟨hin, hotherHash⟩ := (hentries k other).mp hother
  have hsame := hset.injective block hblock other (hsub other hin) (hhash.trans hotherHash.symm)
  exact hnew (hsame ▸ hin)

theorem grown_of_addBlocks (hset : RootedSet crypto all) {earlier later : List Block}
    {entries : List (Hash × Block)} {coinstate final : CoinState} (hgrown : Grown crypto entries coinstate)
    (hentries : Entries crypto earlier entries) (hsub : ∀ b ∈ earlier ++ later, b ∈ all)
    (hnodup : (earlier ++ later).Nodup) (hroot : ∃ root ∈ earlier, root.parent = none)
    (horder : ParentFirst crypto earlier later) (hadd : addBlocks crypto coinstate later = .ok final) :
    ∃ entries', Grown crypto entries' final ∧ Entries crypto (earlier ++ later) entries' := by
  induction later generalizing earlier entries coinstate with
  | nil =>
      obtain rfl := Except.ok.inj hadd
      exact ⟨entries, hgrown, by rwa [List.append_nil]⟩
  | cons block later ih =>
      obtain ⟨next, hnext, hrest⟩ := bind_eq_ok.mp hadd
      obtain ⟨hparents, horder⟩ := horder
      have hperm : (earlier ++ block :: later).Perm (block :: earlier ++ later) := List.perm_middle
      have hnew : block ∉ earlier := by
        have hnodup' := hperm.nodup_iff.mp hnodup
        rw [List.cons_append, List.nodup_cons] at hnodup'
        exact fun hmem => hnodup'.1 (List.mem_append_left _ hmem)
      obtain ⟨h, hhash, hgrown'⟩ := grown_step hset hgrown hentries
        (fun b hb => hsub b (List.mem_append_left _ hb)) (hsub block (by simp)) hnew hroot hparents hnext
      obtain ⟨root, hmem, hnoparent⟩ := hroot
      obtain ⟨entries', hfinal, hentries'⟩ := ih hgrown' (hentries.cons hhash)
        (fun b hb => hsub b (hperm.mem_iff.mpr hb)) (hperm.nodup_iff.mp hnodup)
        ⟨root, List.mem_cons_of_mem _ hmem, hnoparent⟩ horder hrest
      refine ⟨entries', hfinal, fun k b => ?_⟩
      rw [hentries' k b, hperm.mem_iff]

-- Adding a rooted set, parents first, grows a tree with just these blocks.
theorem grown_of_order (hset : RootedSet crypto all) {order : List Block} (hperm : order.Perm all)
    (horder : ParentFirst crypto [] order) {final : CoinState}
    (hadd : addBlocks crypto empty order = .ok final) :
    ∃ entries, Grown crypto entries final ∧ Entries crypto all entries := by
  cases order with
  | nil =>
      obtain ⟨root, hmem, _⟩ := hset.root
      exact absurd (hperm.mem_iff.mpr hmem) List.not_mem_nil
  | cons block later =>
      obtain ⟨next, hnext, hrest⟩ := bind_eq_ok.mp hadd
      obtain ⟨hparents, horder⟩ := horder
      have hnoparent : block.parent = none := by
        refine Option.eq_none_iff_forall_ne_some.mpr fun p hp => ?_
        obtain ⟨_, hmem, _⟩ := hparents p hp
        exact absurd hmem List.not_mem_nil
      obtain ⟨h, hhash⟩ := hash_of_add hnext
      have hnone : Entries crypto [] [] := fun k b => by simp
      have hsingle : Entries crypto [block] [(h, block)] := hnone.cons hhash
      obtain ⟨entries, hgrown, hentries⟩ := grown_of_addBlocks hset (.root hnoparent hhash hnext) hsingle
        (fun b hb => hperm.mem_iff.mp hb) (hperm.nodup_iff.mpr hset.nodup)
        ⟨block, List.mem_singleton_self block, hnoparent⟩ horder hrest
      refine ⟨entries, hgrown, fun k b => ?_⟩
      rw [hentries k b, ← hperm.mem_iff]
      rfl

end Order

theorem get_block_by_height_congr {first second : CoinState}
    (hindex : first.block_by_height_by_hash = second.block_by_height_by_hash) (at_hash : Hash) :
    get_block_by_height first at_hash = get_block_by_height second at_hash := by
  funext h
  simp only [get_block_by_height, hindex]

-- The validator reads three of the maps, and nothing that depends on which
-- block came first.
theorem validate_block_in_coinstate_congr {first second : CoinState}
    (hblocks : first.block_by_hash = second.block_by_hash)
    (hunspent : first.unspent_transaction_outs_by_hash = second.unspent_transaction_outs_by_hash)
    (hindex : first.block_by_height_by_hash = second.block_by_height_by_hash) (block : Block) :
    validate_block_in_coinstate crypto block first = validate_block_in_coinstate crypto block second := by
  simp only [validate_block_in_coinstate, validate_block_past_checkpoints,
    validate_block_summary_in_coinstate, calc_target, construct_pow_evidence,
    construct_pow_evidence_after_scrypt, validate_coinbase_transaction_in_coinstate,
    validate_non_coinbase_transaction_in_coinstate, get_block_by_height_congr hindex, hblocks, hunspent,
    hindex]

theorem Represents.head_eq {entries : List (Hash × Block)} {coinstate : CoinState}
    (hrep : Represents crypto entries coinstate) :
    ∃ h head, coinstate.head = .ok head ∧ (h, head) ∈ entries ∧
      ∀ entry ∈ entries, entry.2.height ≤ head.height := by
  obtain ⟨h, hcurrent, hbest⟩ := hrep.current
  obtain ⟨head, hmem, hmax⟩ := hbest.mem
  refine ⟨h, head, ?_, hmem, hmax⟩
  simp [CoinState.head, hcurrent, hrep.known, hmem]

-- Two orders of one rooted set lead to the same maps, to heads of one height,
-- and to the same verdict on any further block.
theorem order_independence {first second : List Block} (hset : RootedSet crypto first)
    (hperm : first.Perm second) (hfirst : ParentFirst crypto [] first)
    (hsecond : ParentFirst crypto [] second) {S T : CoinState}
    (hS : addBlocks crypto empty first = .ok S) (hT : addBlocks crypto empty second = .ok T) :
    S.block_by_hash = T.block_by_hash ∧
    S.unspent_transaction_outs_by_hash = T.unspent_transaction_outs_by_hash ∧
    S.block_by_height_by_hash = T.block_by_height_by_hash ∧
    S.heads = T.heads ∧
    (∃ head head', S.head = .ok head ∧ T.head = .ok head' ∧ head.height = head'.height) ∧
    ∀ block, validate_block_in_coinstate crypto block S = validate_block_in_coinstate crypto block T := by
  obtain ⟨entries, hgrown, hentries⟩ := grown_of_order hset (.refl first) hfirst hS
  obtain ⟨entries', hgrown', hentries'⟩ := grown_of_order hset hperm.symm hsecond hT
  have hrep := hgrown.represents
  have hrep' := hgrown'.represents
  have hsame : ∀ entry, entry ∈ entries ↔ entry ∈ entries' :=
    fun entry => (hentries entry.1 entry.2).trans (hentries' entry.1 entry.2).symm
  have hblocks : S.block_by_hash = T.block_by_hash := by
    refine Finmap.ext_lookup fun h => Option.ext fun block => ?_
    rw [hrep.known, hrep'.known, hsame]
  have hunspent := hrep.unspent.unique hgrown.tree hrep'.unspent hsame
  have hindex := hrep.index.unique hgrown.tree hrep'.index hsame
  have hheads : S.heads = T.heads := by
    refine Finmap.ext_lookup fun h => Option.ext fun block => ?_
    have hleaf : Leaf Block.parent entries h ↔ Leaf Block.parent entries' h :=
      forall_congr' fun entry => imp_congr_left (hsame entry)
    rw [hrep.heads, hrep'.heads, hsame, hleaf]
  refine ⟨hblocks, hunspent, hindex, hheads, ?_,
    validate_block_in_coinstate_congr hblocks hunspent hindex⟩
  obtain ⟨h, head, hhead, hmem, hmax⟩ := hrep.head_eq
  obtain ⟨h', head', hhead', hmem', hmax'⟩ := hrep'.head_eq
  have hle := hmax' _ ((hsame _).mp hmem)
  have hge := hmax _ ((hsame _).mpr hmem')
  exact ⟨head, head', hhead, hhead', Nat.le_antisymm hle hge⟩

-- The fork in another order, the higher branch first.
def forkReordered : List Block := [bareBlock 1 0 0, bareBlock 3 1 1, bareBlock 4 3 2, bareBlock 2 1 1]

theorem order_independence_fork :
    (forkCoinstate 4).heads =
      ((addBlocks .residue empty forkReordered).toOption.getD empty).heads := by
  have hset : RootedSet .residue fork := by
    refine ⟨by decide +kernel, ⟨bareBlock 1 0 0, ?_⟩, ?_, by decide +kernel⟩
    · decide +kernel
    · decide +kernel
  have hfirst : ParentFirst .residue [] fork := by
    unfold fork
    simp only [ParentFirst]
    decide +kernel
  have hsecond : ParentFirst .residue [] forkReordered := by
    unfold forkReordered
    simp only [ParentFirst]
    decide +kernel
  have hperm : fork.Perm forkReordered := by decide +kernel
  have hindependent := order_independence hset hperm hfirst hsecond
    (S := forkCoinstate 4) (T := (addBlocks .residue empty forkReordered).toOption.getD empty)
    (by decide +kernel) (by decide +kernel)
  exact hindependent.2.2.2.1

end CoinState

end Skepticoin
