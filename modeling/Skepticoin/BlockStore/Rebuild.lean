import Skepticoin.BlockStore.Storable

namespace Skepticoin

open Guard FMap Tree

section Replay

variable {crypto : Crypto}

-- A transaction that changes the unspent outputs just as another does.
structure ActsLike (crypto : Crypto) (original copy : Transaction) : Prop where
  inputs : copy.inputs = original.inputs
  outputs : copy.outputs = original.outputs
  hash : original.outputs ≠ [] → copy.hash crypto = original.hash crypto

theorem uto_add_outputs_congr {original copy : Transaction} (m : UnspentTransactionOuts) (i : Nat)
    (outputs : List Output) (h : outputs ≠ [] → copy.hash crypto = original.hash crypto) :
    uto_add_outputs crypto copy m i outputs = uto_add_outputs crypto original m i outputs := by
  induction outputs generalizing m i with
  | nil => rfl
  | cons output outputs ih =>
      have hhash := h (List.cons_ne_nil _ _)
      have hrest := fun m => ih m (i + 1) fun _ => hhash
      simp only [uto_add_outputs, hhash, hrest]

theorem ActsLike.apply {original copy : Transaction} (h : ActsLike crypto original copy)
    (m : UnspentTransactionOuts) (is_coinbase : Bool) :
    uto_apply_transaction crypto m copy is_coinbase = uto_apply_transaction crypto m original is_coinbase := by
  have hadd := fun m => uto_add_outputs_congr m 0 original.outputs h.hash
  simp only [uto_apply_transaction, h.inputs, h.outputs, hadd]

theorem uto_apply_transactions_congr {originals copies : List Transaction}
    (h : List.Forall₂ (ActsLike crypto) originals copies) (m : UnspentTransactionOuts) :
    uto_apply_transactions crypto m copies = uto_apply_transactions crypto m originals := by
  induction h generalizing m with
  | nil => rfl
  | cons hfirst _ ih => simp only [uto_apply_transactions, hfirst.apply, ih]

theorem uto_apply_block_congr {original copy : Block}
    (h : List.Forall₂ (ActsLike crypto) original.transactions copy.transactions)
    (m : UnspentTransactionOuts) : uto_apply_block crypto m copy = uto_apply_block crypto m original := by
  unfold uto_apply_block
  generalize original.transactions = originals at h
  generalize copy.transactions = copies at h
  cases h with
  | nil => rfl
  | cons hfirst hrest => simp only [hfirst.apply, uto_apply_transactions_congr hrest]

end Replay

namespace BlockStore

variable {crypto : Crypto}

theorem Reread.actsLike {original copy : Block} (h : Reread crypto original copy)
    (hhonest : ∀ t ∈ original.transactions, HonestHash crypto t) :
    List.Forall₂ (ActsLike crypto) original.transactions copy.transactions := by
  have hall : List.Forall₂ (fun a b => a ∈ original.transactions ∧ RereadTransaction crypto a b)
      original.transactions copy.transactions := by
    rw [List.forall₂_iff_zip]
    exact ⟨h.transactions.length_eq, fun hzip =>
      ⟨(List.of_mem_zip hzip).1, (List.forall₂_iff_zip.mp h.transactions).2 hzip⟩⟩
  refine hall.imp fun a b hab => ⟨hab.2.inputs, hab.2.outputs, fun houtputs => ?_⟩
  obtain ⟨bytes, hbytes, hcached⟩ := hab.2.cached
  rw [hhonest a hab.1 houtputs, storedHash, hbytes, Transaction.hash, hcached]
  rfl

theorem Reread.hash_eq {original copy : Block} (h : Reread crypto original copy) :
    copy.hash crypto = original.hash crypto := by
  obtain ⟨hash, hhash, hcached⟩ := h.cached
  rw [hhash, Block.hash, hcached]

theorem Reread.height_eq {original copy : Block} (h : Reread crypto original copy) :
    copy.height = original.height := by rw [Block.height, h.header]

theorem Reread.parent_eq {original copy : Block} (h : Reread crypto original copy) :
    copy.parent = original.parent := by
  rw [Block.parent, Block.parent, Block.previous_block_hash, h.header]

end BlockStore

namespace CoinState

open BlockStore

variable {crypto : Crypto} {blocks taken tree sorted : List (Hash × Block)} {coinstate rebuilt : CoinState}

-- An entry read back.
def Twin (crypto : Crypto) (original copy : Hash × Block) : Prop :=
  copy.1 = original.1 ∧ Reread crypto original.2 copy.2

-- A coinstate that has taken copies of some of the blocks of another one, both
-- listed newest first.
structure Copies (crypto : Crypto) (coinstate : CoinState) (taken tree : List (Hash × Block))
    (rebuilt : CoinState) : Prop where
  grown : Grown crypto tree rebuilt
  twins : List.Forall₂ (Twin crypto) taken tree
  unspent : ∀ h ∈ taken.map Prod.fst, rebuilt.unspent_transaction_outs_by_hash.lookup h =
    coinstate.unspent_transaction_outs_by_hash.lookup h

theorem Copies.keys (hcopies : Copies crypto coinstate taken tree rebuilt) :
    tree.map Prod.fst = taken.map Prod.fst := by
  have hsame : List.Forall₂ (fun a b => a = b) (tree.map Prod.fst) (taken.map Prod.fst) := by
    rw [List.forall₂_map_left_iff, List.forall₂_map_right_iff]
    exact hcopies.twins.flip.imp fun _ _ h => h.1
  rwa [List.forall₂_eq_eq_eq] at hsame

-- The copy of the first block starts a coinstate like the original.
theorem copies_root {h : Hash} {block copy : Block} (hrep : Represents crypto blocks coinstate)
    (hmem : (h, block) ∈ blocks) (hroot : block.parent = none) (hreread : Reread crypto block copy)
    (hhonest : ∀ t ∈ block.transactions, HonestHash crypto t) :
    ∃ next, empty.add_block_no_validation crypto copy = .ok next ∧
      Copies crypto coinstate [(h, block)] [(h, copy)] next := by
  obtain ⟨after, happly, hlookup⟩ := hrep.unspent.root h block hmem hroot
  have hhash : copy.hash crypto = .ok h := by rw [hreread.hash_eq, hrep.hashed h block hmem]
  have hparent : copy.parent = none := by rw [hreread.parent_eq, hroot]
  have hprevious := Block.parent_eq_none.mp hparent
  have hbefore : empty.previous_unspent_transaction_outs copy = .ok ∅ := if_pos hprevious
  have hafter : uto_apply_block crypto ∅ copy = .ok after := by
    rw [uto_apply_block_congr (hreread.actsLike hhonest)]
    exact happly
  have hadd : ∃ next, empty.add_block_no_validation crypto copy = .ok next :=
    ⟨_, add_block_no_validation_eq_ok.mpr ⟨∅, after, h, _, h, hbefore, hafter, hhash,
      if_pos hprevious, rfl, rfl⟩⟩
  obtain ⟨next, hadd⟩ := hadd
  obtain ⟨before, after', hbefore', hafter', _, hmap⟩ := maps_of_add hhash hadd
  have hsame : ∅ = before := Except.ok.inj (hbefore.symm.trans hbefore')
  rw [← hsame, hafter] at hafter'
  refine ⟨next, hadd, .root hparent hhash hadd, .cons ⟨rfl, hreread⟩ .nil, ?_⟩
  intro k hk
  rw [List.mem_singleton.mp hk, hmap, Finmap.lookup_insert, hlookup, Except.ok.inj hafter']

-- The copy of a block whose parent is there goes on top of it.
theorem copies_add {h p : Hash} {block copy : Block} (hgrown : Grown crypto blocks coinstate)
    (hcopies : Copies crypto coinstate taken tree rebuilt) (htaken : ∀ entry ∈ taken, entry ∈ blocks)
    (hmem : (h, block) ∈ blocks) (hfresh : h ∉ taken.map Prod.fst) (hparent : block.parent = some p)
    (hp : p ∈ taken.map Prod.fst) (hreread : Reread crypto block copy)
    (hhonest : ∀ t ∈ block.transactions, HonestHash crypto t) :
    ∃ next, rebuilt.add_block_no_validation crypto copy = .ok next ∧
      Copies crypto coinstate ((h, block) :: taken) ((h, copy) :: tree) next := by
  have hrep := hgrown.represents
  have hrebuilt := hcopies.grown.represents
  obtain ⟨before, after, hbefore, happly, hlookup⟩ := hrep.unspent.child h block p hmem hparent
  have hhash : copy.hash crypto = .ok h := by rw [hreread.hash_eq, hrep.hashed h block hmem]
  have hparent' : copy.parent = some p := by rw [hreread.parent_eq, hparent]
  have hsource : rebuilt.unspent_transaction_outs_by_hash.lookup p = some before := by
    rw [hcopies.unspent p hp, hbefore]
  have hafter : uto_apply_block crypto before copy = .ok after := by
    rw [uto_apply_block_congr (hreread.actsLike hhonest)]
    exact happly
  -- the parent has a copy too, of the same height
  obtain ⟨⟨p', original⟩, hin, hkey⟩ := List.mem_map.mp hp
  have hp' : p' = p := hkey
  rw [hp'] at hin
  obtain ⟨⟨k, previous⟩, hprevious, htwin⟩ := forall₂_mem_left hcopies.twins hin
  have hk : k = p := htwin.1
  rw [hk] at hprevious
  obtain ⟨q, hq, hheight⟩ := hgrown.tree.parent_mem hmem hparent
  have hsame := hgrown.tree.unique hq (htaken _ hin)
  have hheight' : copy.height = previous.height + 1 := by
    have hcopy := hreread.height_eq
    have htwin' : previous.height = original.height := htwin.2.height_eq
    rw [hcopy, htwin', hheight, hsame]
  obtain ⟨next, hadd⟩ := hrebuilt.add_ok hhash hparent' hprevious (by
    intro m hm
    rw [hsource] at hm
    rw [← Option.some.inj hm]
    exact ⟨after, hafter⟩)
  have hfresh' : h ∉ tree.map Prod.fst := by rw [hcopies.keys]; exact hfresh
  obtain ⟨before', after', hbefore', hafter', _, hmap⟩ := maps_of_add hhash hadd
  obtain ⟨hne, hpkey⟩ := Block.parent_eq_some.mp hparent'
  have hsame : before = before' := by
    rw [previous_unspent_transaction_outs, if_neg hne, getItem_eq_ok, hpkey, hsource] at hbefore'
    exact Option.some.inj hbefore'
  rw [← hsame, hafter] at hafter'
  refine ⟨next, hadd, .add hcopies.grown hhash hfresh' hparent' hprevious hheight' hadd,
    .cons ⟨rfl, hreread⟩ hcopies.twins, ?_⟩
  intro k hk
  rw [hmap, lookup_insert_eq_ite]
  by_cases hnew : k = h
  · rw [if_pos hnew, hnew, hlookup, Except.ok.inj hafter']
  · rw [if_neg hnew]
    apply hcopies.unspent
    cases List.mem_cons.mp hk with
    | inl hfirst => exact absurd hfirst hnew
    | inr hold => exact hold

theorem add_or_skip_ok {block : Block} {next : CoinState}
    (h : coinstate.add_block_no_validation crypto block = .ok next) :
    add_or_skip crypto coinstate block = next := by
  rw [add_or_skip, h]

-- The remaining blocks, in the order of heights, are all added. The induction
-- is on what remains; each parent has been taken before.
theorem copies_rest {rest : List (Hash × Block)} {reads : List Block} (hgrown : Grown crypto blocks coinstate)
    (hperm : sorted.Perm blocks) (hsorted : sorted.Pairwise fun a b => a.2.height ≤ b.2.height)
    (hhonest : Honest crypto (blocks.map Prod.snd))
    (hreads : List.Forall₂ (fun entry copy => Reread crypto entry.2 copy) rest reads)
    (hsplit : sorted = taken.reverse ++ rest) (hparents : ∀ entry ∈ rest, ∃ p, entry.2.parent = some p)
    (hcopies : Copies crypto coinstate taken tree rebuilt) :
    ∃ tree', Copies crypto coinstate sorted.reverse tree' (reads.foldl (add_or_skip crypto) rebuilt) := by
  induction hreads generalizing taken tree rebuilt with
  | nil =>
      have hall : sorted.reverse = taken := by rw [hsplit]; simp
      exact ⟨tree, hall ▸ hcopies⟩
  | @cons entry copy rest reads hreread _ ih =>
      obtain ⟨h, block⟩ := entry
      obtain ⟨p, hparent⟩ := hparents (h, block) List.mem_cons_self
      have hbefore := hgrown.tree.parent_before hperm hsorted hsplit hparent
      rw [List.map_reverse, List.mem_reverse] at hbefore
      have hmem : (h, block) ∈ blocks := hperm.subset (by rw [hsplit]; simp)
      have htaken : ∀ entry ∈ taken, entry ∈ blocks := by
        intro entry hentry
        exact hperm.subset (by rw [hsplit]; simp [hentry])
      have hfresh : h ∉ taken.map Prod.fst := by
        have hnodup : (sorted.map Prod.fst).Nodup := (hperm.map _).nodup_iff.mpr hgrown.tree.nodup
        rw [hsplit, List.map_append, List.map_reverse, List.map_cons] at hnodup
        intro hin
        exact (List.nodup_append.mp hnodup).2.2 h (List.mem_reverse.mpr hin) h List.mem_cons_self rfl
      have hown : ∀ t ∈ block.transactions, HonestHash crypto t := by
        intro t ht
        exact hhonest t (List.mem_flatMap.mpr ⟨block, List.mem_map_of_mem hmem, ht⟩)
      obtain ⟨next, hadd, hnext⟩ :=
        copies_add hgrown hcopies htaken hmem hfresh hparent hbefore hreread hown
      rw [List.foldl_cons, add_or_skip_ok hadd]
      apply ih _ _ hnext
      · rw [hsplit]
        simp
      · intro other hother
        exact hparents other (List.mem_cons_of_mem _ hother)

theorem copies_all {reads : List Block} (hgrown : Grown crypto blocks coinstate)
    (hperm : sorted.Perm blocks) (hsorted : sorted.Pairwise fun a b => a.2.height ≤ b.2.height)
    (hhonest : Honest crypto (blocks.map Prod.snd))
    (hreads : List.Forall₂ (fun entry copy => Reread crypto entry.2 copy) sorted reads) :
    ∃ tree, Copies crypto coinstate sorted.reverse tree (read_chain crypto reads) := by
  cases hreads with
  | nil =>
      have hnone := hperm.symm.eq_nil
      rw [hnone] at hgrown
      cases hgrown
  | @cons entry copy rest reads hreread hrest =>
      obtain ⟨h, block⟩ := entry
      obtain ⟨hroot, hparents⟩ := hgrown.tree.parents_of_sorted hperm hsorted
      have hmem : (h, block) ∈ blocks := hperm.subset List.mem_cons_self
      have hown : ∀ t ∈ block.transactions, HonestHash crypto t := by
        intro t ht
        exact hhonest t (List.mem_flatMap.mpr ⟨block, List.mem_map_of_mem hmem, ht⟩)
      obtain ⟨next, hadd, hnext⟩ := copies_root hgrown.represents hmem hroot hreread hown
      rw [read_chain, List.foldl_cons, add_or_skip_ok hadd]
      exact copies_rest hgrown hperm hsorted hhonest hrest rfl hparents hnext

end CoinState

end Skepticoin
