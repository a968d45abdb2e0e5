import Skepticoin.Lib.FMap

-- Trees that grow one leaf at a time. The entries of a tree are listed newest
-- first, each with its key; a node knows the key of its parent and its height.
namespace Tree

open FMap

variable {ε κ ν τ : Type} (parent : ν → Option κ) (height : ν → Nat)

inductive Grown : List (κ × ν) → Prop
  | root {h : κ} {b : ν} : parent b = none → Grown [(h, b)]
  | add {entries : List (κ × ν)} {h p : κ} {b q : ν} :
    Grown entries → h ∉ entries.map Prod.fst → parent b = some p → (p, q) ∈ entries →
    height b = height q + 1 → Grown ((h, b) :: entries)

inductive Ancestor (entries : List (κ × ν)) : κ → κ → Prop
  | refl {h : κ} {b : ν} : (h, b) ∈ entries → Ancestor entries h h
  | step {a p h : κ} {b : ν} :
    (h, b) ∈ entries → parent b = some p → Ancestor entries a p → Ancestor entries a h

def Leaf (entries : List (κ × ν)) (h : κ) : Prop := ∀ entry ∈ entries, parent entry.2 ≠ some h

-- The oldest entry of maximal height.
def Best (entries : List (κ × ν)) (h : κ) : Prop :=
  ∃ newer b older, entries = newer ++ (h, b) :: older ∧
    (∀ entry ∈ newer, height entry.2 ≤ height b) ∧ ∀ entry ∈ older, height entry.2 < height b

section Grown

variable {parent : ν → Option κ} {height : ν → Nat} {entries : List (κ × ν)}

theorem Grown.nodup (hgrown : Grown parent height entries) : (entries.map Prod.fst).Nodup := by
  induction hgrown with
  | root _ => simp
  | add _ hfresh _ _ _ ih => exact List.nodup_cons.mpr ⟨hfresh, ih⟩

theorem Grown.unique (hgrown : Grown parent height entries) {h : κ} {b b' : ν} (hb : (h, b) ∈ entries)
    (hb' : (h, b') ∈ entries) : b = b' := by
  have hpair := List.inj_on_of_nodup_map hgrown.nodup hb hb' rfl
  exact (Prod.mk.inj hpair).2

theorem mem_keys_of_mem {h : κ} {b : ν} (hmem : (h, b) ∈ entries) : h ∈ entries.map Prod.fst :=
  List.mem_map_of_mem hmem

theorem Grown.parent_mem (hgrown : Grown parent height entries) {h p : κ} {b : ν}
    (hmem : (h, b) ∈ entries) (hp : parent b = some p) :
    ∃ q, (p, q) ∈ entries ∧ height b = height q + 1 := by
  induction hgrown with
  | root hroot =>
      obtain ⟨rfl, rfl⟩ := Prod.mk.inj (List.mem_singleton.mp hmem)
      simp [hroot] at hp
  | @add entries _ _ _ q _ _ hparent hq hheight ih =>
      rcases List.mem_cons.mp hmem with hnew | hold
      · obtain ⟨rfl, rfl⟩ := Prod.mk.inj hnew
        obtain rfl := Option.some.inj (hparent.symm.trans hp)
        exact ⟨q, List.mem_cons_of_mem _ hq, hheight⟩
      · obtain ⟨q, hq, hheight⟩ := ih hold
        exact ⟨q, List.mem_cons_of_mem _ hq, hheight⟩

-- No old entry names a new key as its parent.
theorem Grown.fresh_leaf (hgrown : Grown parent height entries) {h : κ}
    (hfresh : h ∉ entries.map Prod.fst) : Leaf parent entries h := by
  rintro ⟨k, c⟩ hc hparent
  obtain ⟨_, hq, _⟩ := hgrown.parent_mem hc hparent
  exact hfresh (mem_keys_of_mem hq)

theorem leaf_cons {h k : κ} {b : ν} {entries : List (κ × ν)} :
    Leaf parent ((k, b) :: entries) h ↔ parent b ≠ some h ∧ Leaf parent entries h := by
  simp [Leaf]

theorem Ancestor.cons {entry : κ × ν} {a h : κ} (ha : Ancestor parent entries a h) :
    Ancestor parent (entry :: entries) a h := by
  induction ha with
  | refl hmem => exact .refl (List.mem_cons_of_mem _ hmem)
  | step hmem hp _ ih => exact .step (List.mem_cons_of_mem _ hmem) hp ih

theorem Ancestor.mem {a h : κ} (ha : Ancestor parent entries a h) : ∃ c, (a, c) ∈ entries := by
  induction ha with
  | refl hmem => exact ⟨_, hmem⟩
  | step _ _ _ ih => exact ih

theorem Ancestor.trans {a b h : κ} (ha : Ancestor parent entries a b) (hb : Ancestor parent entries b h) :
    Ancestor parent entries a h := by
  induction hb with
  | refl _ => exact ha
  | step hmem hp _ ih => exact .step hmem hp ih

-- An ancestor of an entry is the entry itself, or an ancestor of its parent.
theorem Grown.ancestor_cases (hgrown : Grown parent height entries) {a h : κ} {b : ν}
    (hmem : (h, b) ∈ entries) (ha : Ancestor parent entries a h) :
    a = h ∨ ∃ p, parent b = some p ∧ Ancestor parent entries a p := by
  cases ha with
  | refl _ => exact .inl rfl
  | step hmem' hp ha =>
      obtain rfl := hgrown.unique hmem hmem'
      exact .inr ⟨_, hp, ha⟩

theorem Grown.ancestor_height (hgrown : Grown parent height entries) {a h : κ} {b c : ν}
    (hb : (h, b) ∈ entries) (hc : (a, c) ∈ entries) (ha : Ancestor parent entries a h) :
    height c ≤ height b := by
  induction ha generalizing b with
  | refl _ =>
      obtain rfl := hgrown.unique hb hc
      exact Nat.le_refl _
  | step hmem hp _ ih =>
      obtain rfl := hgrown.unique hb hmem
      obtain ⟨q, hq, hheight⟩ := hgrown.parent_mem hmem hp
      have hle := ih hq
      omega

theorem Grown.root_unique (hgrown : Grown parent height entries) {e e' : κ × ν} (he : e ∈ entries)
    (he' : e' ∈ entries) (hroot : parent e.2 = none) (hroot' : parent e'.2 = none) : e = e' := by
  induction hgrown with
  | root _ => rw [List.mem_singleton.mp he, List.mem_singleton.mp he']
  | @add entries h _ b _ _ _ hparent _ _ ih =>
      have hold : ∀ own ∈ (h, b) :: entries, parent own.2 = none → own ∈ entries := by
        intro own hown hnone
        cases List.mem_cons.mp hown with
        | inl hnew => rw [hnew, hparent] at hnone; cases hnone
        | inr hmem => exact hmem
      exact ih (hold e he hroot) (hold e' he' hroot')

-- In the order of heights, parents come first.
theorem Grown.parent_before (hgrown : Grown parent height entries) {sorted done rest : List (κ × ν)}
    {e : κ × ν} {p : κ} (hperm : sorted.Perm entries)
    (hsorted : sorted.Pairwise fun a b => height a.2 ≤ height b.2) (hsplit : sorted = done ++ e :: rest)
    (hp : parent e.2 = some p) : p ∈ done.map Prod.fst := by
  have he : e ∈ entries := hperm.subset (by rw [hsplit]; simp)
  obtain ⟨q, hq, hheight⟩ := hgrown.parent_mem he hp
  have hmem : (p, q) ∈ done ++ e :: rest := hsplit ▸ hperm.symm.subset hq
  rw [hsplit, List.pairwise_append] at hsorted
  cases List.mem_append.mp hmem with
  | inl hdone => exact mem_keys_of_mem hdone
  | inr hlater =>
      exfalso
      cases List.mem_cons.mp hlater with
      | inl hself =>
          rw [← hself] at hheight
          simp at hheight
      | inr hrest =>
          have hle := (List.pairwise_cons.mp hsorted.2.1).1 (p, q) hrest
          have hle' : height e.2 ≤ height q := hle
          omega

-- So the first entry is the root, and the others have parents.
theorem Grown.parents_of_sorted (hgrown : Grown parent height entries) {e : κ × ν}
    {rest : List (κ × ν)} (hperm : (e :: rest).Perm entries)
    (hsorted : (e :: rest).Pairwise fun a b => height a.2 ≤ height b.2) :
    parent e.2 = none ∧ ∀ other ∈ rest, ∃ p, parent other.2 = some p := by
  have hroot : parent e.2 = none := by
    cases hp : parent e.2 with
    | none => rfl
    | some p =>
        have hbefore := hgrown.parent_before hperm hsorted (List.nil_append _).symm hp
        simp at hbefore
  refine ⟨hroot, fun other hother => ?_⟩
  cases hp : parent other.2 with
  | some p => exact ⟨p, rfl⟩
  | none =>
      have hsame := hgrown.root_unique (hperm.subset List.mem_cons_self)
        (hperm.subset (List.mem_cons_of_mem _ hother)) hroot hp
      have hnodup : (e :: rest).Nodup := hperm.nodup_iff.mpr hgrown.nodup.of_map
      exact absurd (hsame ▸ hother) (List.nodup_cons.mp hnodup).1

end Grown

section Best

variable {parent : ν → Option κ} {height : ν → Nat} {entries : List (κ × ν)}

theorem Best.mem {h : κ} (hbest : Best height entries h) :
    ∃ b, (h, b) ∈ entries ∧ ∀ entry ∈ entries, height entry.2 ≤ height b := by
  obtain ⟨newer, b, older, rfl, hnewer, holder⟩ := hbest
  refine ⟨b, by simp, fun entry hmem => ?_⟩
  rcases List.mem_append.mp hmem with hmem | hmem
  · exact hnewer entry hmem
  · rcases List.mem_cons.mp hmem with rfl | hmem
    · exact Nat.le_refl _
    · exact Nat.le_of_lt (holder entry hmem)

theorem best_singleton (h : κ) (b : ν) : Best height [(h, b)] h :=
  ⟨[], b, [], rfl, by simp, by simp⟩

theorem best_overtaken {h : κ} {b : ν} (hover : ∀ entry ∈ entries, height entry.2 < height b) :
    Best height ((h, b) :: entries) h :=
  ⟨[], b, entries, rfl, by simp, hover⟩

theorem Best.kept {h k : κ} {b c : ν} (hgrown : Grown parent height entries)
    (hbest : Best height entries h) (hb : (h, b) ∈ entries) (hle : height c ≤ height b) :
    Best height ((k, c) :: entries) h := by
  obtain ⟨newer, b', older, hsplit, hnewer, holder⟩ := hbest
  obtain rfl : b = b' := hgrown.unique hb (by rw [hsplit]; simp)
  refine ⟨(k, c) :: newer, b, older, by rw [hsplit, List.cons_append], ?_, holder⟩
  intro entry hmem
  rcases List.mem_cons.mp hmem with rfl | hmem
  · exact hle
  · exact hnewer entry hmem

-- The best entry has no child, which would stand higher.
theorem Best.leaf {h : κ} (hgrown : Grown parent height entries) (hbest : Best height entries h) :
    Leaf parent entries h := by
  obtain ⟨b, hb, hmax⟩ := hbest.mem
  rintro ⟨k, c⟩ hc hparent
  obtain ⟨q, hq, hheight⟩ := hgrown.parent_mem hc hparent
  obtain rfl := hgrown.unique hb hq
  have hle : height c ≤ height b := hmax _ hc
  omega

end Best

section Folds

variable [DecidableEq κ]

-- A map that holds, for every entry, what the function makes of the entry and
-- of what the map holds for the parent.
structure Folds (apply : Option τ → ν → Except ε τ) (entries : List (κ × ν)) (f : Map κ τ) : Prop where
  dom : ∀ h, h ∈ f ↔ h ∈ entries.map Prod.fst
  root : ∀ h b, (h, b) ∈ entries → parent b = none →
    ∃ t, apply none b = .ok t ∧ f.lookup h = some t
  child : ∀ h b p, (h, b) ∈ entries → parent b = some p →
    ∃ s t, f.lookup p = some s ∧ apply (some s) b = .ok t ∧ f.lookup h = some t

variable {parent : ν → Option κ} {height : ν → Nat} {apply : Option τ → ν → Except ε τ}
  {entries : List (κ × ν)} {f g : Map κ τ}

theorem folds_singleton {h : κ} {b : ν} {t : τ} (hparent : parent b = none)
    (happly : apply none b = .ok t) : Folds parent apply [(h, b)] (Finmap.singleton h t) where
  dom k := by simp
  root k c hmem _ := by
    obtain ⟨rfl, rfl⟩ := Prod.mk.inj (List.mem_singleton.mp hmem)
    exact ⟨t, happly, Finmap.lookup_singleton_eq⟩
  child k c p hmem hp := by
    obtain ⟨rfl, rfl⟩ := Prod.mk.inj (List.mem_singleton.mp hmem)
    simp [hparent] at hp

theorem Folds.insert {h p : κ} {b : ν} {s t : τ} (hfolds : Folds parent apply entries f)
    (hgrown : Grown parent height entries) (hfresh : h ∉ entries.map Prod.fst)
    (hparent : parent b = some p) (hs : f.lookup p = some s) (happly : apply (some s) b = .ok t) :
    Folds parent apply ((h, b) :: entries) (f.insert h t) := by
  have hold : ∀ {k}, k ∈ entries.map Prod.fst → (f.insert h t).lookup k = f.lookup k :=
    fun hk => Finmap.lookup_insert_of_ne f fun heq => hfresh (heq ▸ hk)
  refine ⟨fun k => ?_, fun k c hmem hroot => ?_, fun k c q hmem hq => ?_⟩
  · rw [Finmap.mem_insert, hfolds.dom, List.map_cons, List.mem_cons]
  · rcases List.mem_cons.mp hmem with hnew | hmem
    · obtain ⟨rfl, rfl⟩ := Prod.mk.inj hnew
      simp [hroot] at hparent
    · rw [hold (mem_keys_of_mem hmem)]
      exact hfolds.root k c hmem hroot
  · rcases List.mem_cons.mp hmem with hnew | hmem
    · obtain ⟨rfl, rfl⟩ := Prod.mk.inj hnew
      obtain rfl := Option.some.inj (hparent.symm.trans hq)
      have hp : p ∈ entries.map Prod.fst := (hfolds.dom p).mp (Finmap.mem_of_lookup_eq_some hs)
      exact ⟨s, t, (hold hp).trans hs, happly, Finmap.lookup_insert f⟩
    · obtain ⟨_, hmemq, _⟩ := hgrown.parent_mem hmem hq
      rw [hold (mem_keys_of_mem hmem), hold (mem_keys_of_mem hmemq)]
      exact hfolds.child k c q hmem hq

-- What the function keeps from parent to child holds at every entry.
theorem Folds.induction {P : κ → ν → τ → Prop} (hgrown : Grown parent height entries)
    (hfolds : Folds parent apply entries f)
    (hroot : ∀ h b t, (h, b) ∈ entries → parent b = none → apply none b = .ok t → P h b t)
    (hchild : ∀ h b p q s t, (h, b) ∈ entries → (p, q) ∈ entries → parent b = some p →
      height b = height q + 1 → P p q s → apply (some s) b = .ok t → P h b t) :
    ∀ h b t, (h, b) ∈ entries → f.lookup h = some t → P h b t := by
  suffices hall : ∀ sub : List (κ × ν), Grown parent height sub → (∀ entry ∈ sub, entry ∈ entries) →
      ∀ h b t, (h, b) ∈ sub → f.lookup h = some t → P h b t from hall entries hgrown fun _ hmem => hmem
  intro sub hsub
  induction hsub with
  | @root h b hparent =>
      intro hin k c t hmem ht
      obtain ⟨rfl, rfl⟩ := Prod.mk.inj (List.mem_singleton.mp hmem)
      obtain ⟨t', happly, ht'⟩ := hfolds.root k c (hin _ hmem) hparent
      obtain rfl := Option.some.inj (ht.symm.trans ht')
      exact hroot k c t (hin _ hmem) hparent happly
  | @add sub h p b q hsub hfresh hparent hq hheight ih =>
      intro hin k c t hmem ht
      have hinSub : ∀ entry ∈ sub, entry ∈ entries := fun e he => hin e (List.mem_cons_of_mem _ he)
      rcases List.mem_cons.mp hmem with hnew | hmem'
      · obtain ⟨rfl, rfl⟩ := Prod.mk.inj hnew
        obtain ⟨s, t', hs, happly, ht'⟩ := hfolds.child k c p (hin _ hmem) hparent
        obtain rfl := Option.some.inj (ht.symm.trans ht')
        exact hchild k c p q s t (hin _ hmem) (hinSub _ hq) hparent hheight
          (ih hinSub p q s hq hs) happly
      · exact ih hinSub k c t hmem' ht

-- Two such maps agree on every key that two trees have in common, whatever
-- else there is in them.
theorem Folds.agree {entries' : List (κ × ν)} (hgrown : Grown parent height entries)
    (hf : Folds parent apply entries f) (hg : Folds parent apply entries' g)
    (hnames : ∀ h b b', (h, b) ∈ entries → (h, b') ∈ entries' → b = b') {h : κ}
    (hh : h ∈ entries.map Prod.fst) (hh' : h ∈ entries'.map Prod.fst) : f.lookup h = g.lookup h := by
  have hvalue : ∀ h b t, (h, b) ∈ entries → f.lookup h = some t → h ∈ entries'.map Prod.fst → g.lookup h = some t := by
    refine hf.induction hgrown ?_ ?_
    · intro h b t hmem hparent happly hh'
      obtain ⟨entry, hentry, rfl⟩ := List.mem_map.mp hh'
      rw [hnames _ b entry.2 hmem hentry] at hparent happly
      obtain ⟨t', happly', ht'⟩ := hg.root entry.1 entry.2 hentry hparent
      rw [ht', Except.ok.inj (happly.symm.trans happly')]
    · intro h b p q s t hmem _ hparent _ hs happly hh'
      obtain ⟨entry, hentry, rfl⟩ := List.mem_map.mp hh'
      rw [hnames _ b entry.2 hmem hentry] at hparent happly
      obtain ⟨s', t', hs', happly', ht'⟩ := hg.child entry.1 entry.2 p hentry hparent
      have hp := (hg.dom p).mp (Finmap.mem_of_lookup_eq_some hs')
      rw [hs'] at hs
      rw [← Option.some.inj (hs hp), happly'] at happly
      rw [ht', Except.ok.inj happly]
  obtain ⟨entry, hentry, rfl⟩ := List.mem_map.mp hh
  obtain ⟨t, ht⟩ := Finmap.mem_iff.mp ((hf.dom entry.1).mpr hh)
  rw [ht, hvalue entry.1 entry.2 t hentry ht hh']

-- Such a map depends on the set of entries only, not on their order.
theorem Folds.unique {entries' : List (κ × ν)} (hgrown : Grown parent height entries)
    (hf : Folds parent apply entries f) (hg : Folds parent apply entries' g)
    (hsame : ∀ entry, entry ∈ entries ↔ entry ∈ entries') : f = g := by
  have hkeys : ∀ h, h ∈ entries.map Prod.fst ↔ h ∈ entries'.map Prod.fst := fun h => by
    simp only [List.mem_map, hsame]
  have hnames : ∀ h b b', (h, b) ∈ entries → (h, b') ∈ entries' → b = b' := fun _ _ _ hb hb' =>
    hgrown.unique hb ((hsame _).mpr hb')
  refine Finmap.ext_lookup fun h => ?_
  by_cases hmem : h ∈ entries.map Prod.fst
  · exact hf.agree hgrown hg hnames hmem ((hkeys h).mp hmem)
  · have hno : h ∉ f := fun hin => hmem ((hf.dom h).mp hin)
    have hno' : h ∉ g := fun hin => hmem ((hkeys h).mpr ((hg.dom h).mp hin))
    rw [Finmap.lookup_eq_none.mpr hno, Finmap.lookup_eq_none.mpr hno']

end Folds

end Tree
