import Skepticoin.Lib.Guard

-- Dictionaries that keep their keys in the order in which these came in, the
-- loops that fill them, and the grouping of neighbours in a list.
namespace Dict

open Guard

variable {κ ν ρ α ε : Type} [DecidableEq κ]

def get (d : List (κ × ν)) (key : κ) : Option ν := (d.find? fun item => item.1 = key).map Prod.snd

-- d[key] = value
def setItem (d : List (κ × ν)) (key : κ) (value : ν) : List (κ × ν) :=
  if key ∈ d.map Prod.fst then d.map fun item => if item.1 = key then (key, value) else item
  else d ++ [(key, value)]

-- del d[key]
def delItem (error : ε) (d : List (κ × ν)) (key : κ) : Except ε (List (κ × ν)) :=
  if key ∈ d.map Prod.fst then .ok (d.filter fun item => item.1 ≠ key) else .error error

-- A dictionary with these items; a later one takes the place of an earlier one.
def ofItems (items : List (κ × ν)) : List (κ × ν) := items.foldl (fun d item => setItem d item.1 item.2) []

-- A change of the value under a key, which has to be there.
def modifyItem (error : ε) (d : List (κ × ν)) (key : κ) (f : ν → ν) : Except ε (List (κ × ν)) :=
  if key ∈ d.map Prod.fst then
    .ok (d.map fun item => if item.1 = key then (item.1, f item.2) else item)
  else .error error

-- A loop over rows, each of which changes the value under its key.
def modifyAll (error : ε) (key : ρ → κ) (parse : ρ → Except ε α) (put : ν → ρ → α → ν)
    (d : List (κ × ν)) : List ρ → Except ε (List (κ × ν))
  | [] => .ok d
  | row :: rows => do
    let a ← parse row
    let d ← modifyItem error d (key row) fun value => put value row a
    modifyAll error key parse put d rows

-- groupby: neighbours with one key.
def groupBy (key : α → κ) (xs : List α) : List (List α) := xs.splitBy fun a b => key a = key b

def sortedByKey (d : List (Nat × ν)) : List (Nat × ν) := d.insertionSort fun a b => a.1 ≤ b.1

theorem setItem_new {d : List (κ × ν)} {key : κ} (value : ν) (h : key ∉ d.map Prod.fst) :
    setItem d key value = d ++ [(key, value)] := if_neg h

-- Filling a dictionary with new keys lists them in order.
theorem foldl_setItem (key : ρ → κ) (value : ρ → ν) {rows : List ρ} {d : List (κ × ν)}
    (h : (d.map Prod.fst ++ rows.map key).Nodup) :
    rows.foldl (fun d row => setItem d (key row) (value row)) d =
      d ++ rows.map fun row => (key row, value row) := by
  induction rows generalizing d with
  | nil => simp
  | cons row rows ih =>
      have hnew : key row ∉ d.map Prod.fst := by
        intro hmem
        exact (List.nodup_append.mp h).2.2 _ hmem _ List.mem_cons_self rfl
      rw [List.foldl_cons, setItem_new _ hnew, ih]
      · simp
      · simpa using h

theorem ofItems_of_nodup {items : List (κ × ν)} (h : (items.map Prod.fst).Nodup) : ofItems items = items := by
  have hfill : items.foldl (fun d item => setItem d item.1 item.2) [] = [] ++ items.map fun item => (item.1, item.2) :=
    foldl_setItem Prod.fst Prod.snd h
  rw [ofItems, hfill]
  simp

theorem delItem_eq_ok {error : ε} {d d' : List (κ × ν)} {key : κ} :
    delItem error d key = .ok d' ↔ key ∈ d.map Prod.fst ∧ (d.filter fun item => item.1 ≠ key) = d' := by
  unfold delItem
  by_cases hkey : key ∈ d.map Prod.fst
  · rw [if_pos hkey, Except.ok.injEq]
    exact ⟨fun heq => ⟨hkey, heq⟩, fun h => h.2⟩
  · rw [if_neg hkey]
    exact ⟨fun heq => (by cases heq), fun h => absurd h.1 hkey⟩

theorem modifyItem_eq_ok {error : ε} {d d' : List (κ × ν)} {key : κ} {f : ν → ν} :
    modifyItem error d key f = .ok d' ↔
      key ∈ d.map Prod.fst ∧ (d.map fun item => if item.1 = key then (item.1, f item.2) else item) = d' := by
  unfold modifyItem
  by_cases hkey : key ∈ d.map Prod.fst
  · rw [if_pos hkey, Except.ok.injEq]
    exact ⟨fun heq => ⟨hkey, heq⟩, fun h => h.2⟩
  · rw [if_neg hkey]
    exact ⟨fun heq => (by cases heq), fun h => absurd h.1 hkey⟩

-- What the loop makes of one value: it takes in the rows of its key, in order.
def gathered (key : ρ → κ) (parse : ρ → Except ε α) (put : ν → ρ → α → ν) (rows : List ρ) (k : κ)
    (value : ν) : ν :=
  rows.foldl (fun value row =>
    if key row = k then
      match parse row with
      | .ok a => put value row a
      | .error _ => value
    else value) value

theorem modifyAll_keys {error : ε} {key : ρ → κ} {parse : ρ → Except ε α} {put : ν → ρ → α → ν}
    {rows : List ρ} {d d' : List (κ × ν)} (h : modifyAll error key parse put d rows = .ok d') :
    d'.map Prod.fst = d.map Prod.fst := by
  induction rows generalizing d with
  | nil =>
      have hd := Except.ok.inj h
      rw [hd]
  | cons row rows ih =>
      simp only [modifyAll, bind_eq_ok, modifyItem_eq_ok] at h
      obtain ⟨a, _, middle, ⟨_, hmiddle⟩, hrest⟩ := h
      rw [ih hrest, ← hmiddle, List.map_map]
      apply List.map_congr_left
      intro item _
      by_cases hitem : item.1 = key row
      · simp [hitem]
      · simp [hitem]

theorem modifyAll_ok {error : ε} {key : ρ → κ} {parse : ρ → Except ε α} {put : ν → ρ → α → ν}
    {rows : List ρ} {d : List (κ × ν)} (hparse : ∀ row ∈ rows, ∃ a, parse row = .ok a)
    (hkeys : ∀ row ∈ rows, key row ∈ d.map Prod.fst) :
    modifyAll error key parse put d rows =
      .ok (d.map fun item => (item.1, gathered key parse put rows item.1 item.2)) := by
  induction rows generalizing d with
  | nil => simp [modifyAll, gathered]
  | cons row rows ih =>
      obtain ⟨a, ha⟩ := hparse row List.mem_cons_self
      have hkey := hkeys row List.mem_cons_self
      have hstep : modifyItem error d (key row) (fun value => put value row a) = _ :=
        modifyItem_eq_ok.mpr ⟨hkey, rfl⟩
      have hsame : ∀ {f : κ × ν → κ × ν}, (∀ item, (f item).1 = item.1) →
          (d.map f).map Prod.fst = d.map Prod.fst := by
        intro f hf
        rw [List.map_map]
        exact List.map_congr_left fun item _ => hf item
      have hitem : ∀ item : κ × ν,
          (if item.1 = key row then (item.1, put item.2 row a) else item).1 = item.1 := by
        intro item
        by_cases heq : item.1 = key row
        · rw [if_pos heq]
        · rw [if_neg heq]
      rw [modifyAll, ha]
      simp only [bind, Except.bind]
      rw [hstep]
      simp only
      rw [ih (fun r hr => hparse r (List.mem_cons_of_mem _ hr)) fun r hr => by
        rw [hsame hitem]
        exact hkeys r (List.mem_cons_of_mem _ hr), List.map_map]
      congr 1
      apply List.map_congr_left
      intro item _
      by_cases heq : item.1 = key row
      · simp [gathered, ha, heq]
      · simp [gathered, heq, Ne.symm heq]

-- Only the rows of the key count.
theorem gathered_eq_filter {key : ρ → κ} {parse : ρ → Except ε α} {put : ν → ρ → α → ν} {rows : List ρ}
    {k : κ} {value : ν} :
    gathered key parse put rows k value =
      gathered key parse put (rows.filter fun row => key row = k) k value := by
  induction rows generalizing value with
  | nil => rfl
  | cons row rows ih =>
      by_cases hrow : key row = k
      · rw [List.filter_cons_of_pos (by simpa using hrow)]
        simp only [gathered, List.foldl_cons] at ih ⊢
        exact ih
      · rw [List.filter_cons_of_neg (by simpa using hrow)]
        have hskip : gathered key parse put (row :: rows) k value = gathered key parse put rows k value := by
          simp [gathered, hrow]
        rw [hskip, ih]

-- Rows of one key that all parse are taken in with what they parse to.
theorem gathered_of_collect {key : ρ → κ} {parse : ρ → Except ε α} {put : ν → ρ → α → ν} {rows : List ρ}
    {as : List α} {k : κ} {value : ν} (hkey : ∀ row ∈ rows, key row = k)
    (h : collect parse rows = .ok as) :
    gathered key parse put rows k value =
      (rows.zip as).foldl (fun value item => put value item.1 item.2) value := by
  have hall := collect_eq_ok.mp h
  induction hall generalizing value with
  | nil => rfl
  | @cons row a rows as ha _ ih =>
      have hstep : gathered key parse put (row :: rows) k value =
          gathered key parse put rows k (put value row a) := by
        simp [gathered, hkey row List.mem_cons_self, ha]
      rw [hstep, List.zip_cons_cons, List.foldl_cons]
      exact ih (fun r hr => hkey r (List.mem_cons_of_mem _ hr)) (collect_eq_ok.mpr (by assumption))

theorem get_of_mem {d : List (κ × ν)} {key : κ} {value : ν} (hnodup : (d.map Prod.fst).Nodup)
    (hmem : (key, value) ∈ d) : get d key = some value := by
  induction d with
  | nil => cases hmem
  | cons item d ih =>
      rw [List.map_cons, List.nodup_cons] at hnodup
      cases List.mem_cons.mp hmem with
      | inl hfirst =>
          rw [← hfirst, get, List.find?_cons_of_pos (by simp)]
          rfl
      | inr hrest =>
          have hne : item.1 ≠ key := by
            intro heq
            have hin := List.mem_map_of_mem (f := Prod.fst) hrest
            exact hnodup.1 (heq ▸ hin)
          rw [get, List.find?_cons_of_neg (by simpa using hne)]
          exact ih hnodup.2 hrest

theorem mem_of_get {d : List (κ × ν)} {key : κ} {value : ν} (h : get d key = some value) :
    (key, value) ∈ d := by
  obtain ⟨item, hfind, hvalue⟩ := Option.map_eq_some_iff.mp h
  have hkey : item.1 = key := by simpa using List.find?_some hfind
  rw [← hkey, ← hvalue]
  exact List.mem_of_find?_eq_some hfind

-- The rows of one of several sources with different keys.
theorem filter_flatMap_key {β : Type} {key : ρ → κ} {source : β → κ} {rows : β → List ρ} {xs : List β}
    (hkey : ∀ x ∈ xs, ∀ row ∈ rows x, key row = source x) (hnodup : (xs.map source).Nodup) {x : β}
    (hx : x ∈ xs) : (xs.flatMap rows).filter (fun row => key row = source x) = rows x := by
  induction xs with
  | nil => cases hx
  | cons first rest ih =>
      rw [List.map_cons, List.nodup_cons] at hnodup
      rw [List.flatMap_cons, List.filter_append]
      have hrest : ∀ x ∈ rest, ∀ row ∈ rows x, key row = source x :=
        fun x hx => hkey x (List.mem_cons_of_mem _ hx)
      by_cases heq : x = first
      · have hall : (rows first).filter (fun row => key row = source x) = rows first := by
          apply List.filter_eq_self.mpr
          intro row hrow
          simpa [heq] using hkey first List.mem_cons_self row hrow
        have hnone : (rest.flatMap rows).filter (fun row => key row = source x) = [] := by
          apply List.filter_eq_nil_iff.mpr
          intro row hrow
          obtain ⟨y, hy, hrow⟩ := List.mem_flatMap.mp hrow
          have hykey := hrest y hy row hrow
          intro hsame
          have hsource : source y = source first := by
            rw [← hykey, ← heq]
            simpa using hsame
          exact hnodup.1 (hsource ▸ List.mem_map_of_mem hy)
        rw [hall, hnone, List.append_nil, heq]
      · have hx' : x ∈ rest := by
          cases List.mem_cons.mp hx with
          | inl hfirst => exact absurd hfirst heq
          | inr hmem => exact hmem
        have hnone : (rows first).filter (fun row => key row = source x) = [] := by
          apply List.filter_eq_nil_iff.mpr
          intro row hrow hsame
          have hfirst := hkey first List.mem_cons_self row hrow
          have hsource : source first = source x := by
            rw [← hfirst]
            simpa using hsame
          exact hnodup.1 (hsource ▸ List.mem_map_of_mem hx')
        rw [hnone, List.nil_append, ih hrest hnodup.2 hx']

-- Groups with keys of their own, none of them empty, are found again.
theorem groupBy_flatten {key : α → κ} {groups : List (κ × List α)}
    (hgroup : ∀ group ∈ groups, group.2 ≠ [] ∧ ∀ a ∈ group.2, key a = group.1)
    (hnodup : (groups.map Prod.fst).Nodup) :
    groupBy key (groups.map Prod.snd).flatten = groups.map Prod.snd := by
  apply List.splitBy_flatten
  · intro hnil
    obtain ⟨group, hmem, hempty⟩ := List.mem_map.mp hnil
    exact (hgroup group hmem).1 hempty
  · intro m hm
    obtain ⟨group, hmem, rfl⟩ := List.mem_map.mp hm
    apply List.Pairwise.isChain
    apply List.pairwise_of_forall_mem_list
    intro a ha b hb
    simp [(hgroup group hmem).2 a ha, (hgroup group hmem).2 b hb]
  · rw [List.isChain_map]
    have hpair : groups.Pairwise fun a b => a.1 ≠ b.1 := List.pairwise_map.mp hnodup
    have hmem : groups.Pairwise fun a b => a ∈ groups ∧ b ∈ groups ∧ a.1 ≠ b.1 := by
      exact List.Pairwise.imp_of_mem (fun ha hb hne => ⟨ha, hb, hne⟩) hpair
    apply List.Pairwise.isChain
    refine hmem.imp ?_
    rintro a b ⟨ha, hb, hne⟩
    refine ⟨(hgroup a ha).1, (hgroup b hb).1, ?_⟩
    have hlast := (hgroup a ha).2 _ (List.getLast_mem (hgroup a ha).1)
    have hfirst := (hgroup b hb).2 _ (List.head_mem (hgroup b hb).1)
    simpa [hlast, hfirst] using hne

theorem mem_setItem {d : List (κ × ν)} {key : κ} {value : ν} {item : κ × ν} (h : item ∈ setItem d key value) :
    item ∈ d ∨ item = (key, value) := by
  unfold setItem at h
  by_cases hkey : key ∈ d.map Prod.fst
  · rw [if_pos hkey] at h
    obtain ⟨old, hold, hitem⟩ := List.mem_map.mp h
    by_cases hsame : old.1 = key
    · rw [if_pos hsame] at hitem
      exact .inr hitem.symm
    · rw [if_neg hsame] at hitem
      exact .inl (hitem ▸ hold)
  · rw [if_neg hkey] at h
    cases List.mem_append.mp h with
    | inl hold => exact .inl hold
    | inr hnew => exact .inr (List.mem_singleton.mp hnew)

-- Filling a dictionary puts nothing in but what the rows say.
theorem mem_foldl_setItem {key : ρ → κ} {value : ρ → ν} {rows : List ρ} {d : List (κ × ν)} {item : κ × ν}
    (h : item ∈ rows.foldl (fun d row => setItem d (key row) (value row)) d) :
    item ∈ d ∨ ∃ row ∈ rows, item = (key row, value row) := by
  induction rows generalizing d with
  | nil => exact .inl h
  | cons row rows ih =>
      cases ih h with
      | inr hlater =>
          obtain ⟨other, hother, hitem⟩ := hlater
          exact .inr ⟨other, List.mem_cons_of_mem _ hother, hitem⟩
      | inl hearlier =>
          cases mem_setItem hearlier with
          | inl hold => exact .inl hold
          | inr hnew => exact .inr ⟨row, List.mem_cons_self, hnew⟩

section Weight

variable (weight : ν → Nat)

-- What the values of a dictionary weigh together.
def weigh (d : List (κ × ν)) : Nat := (d.map fun item => weight item.2).sum

theorem keys_setItem (d : List (κ × ν)) (key : κ) (value : ν) :
    (setItem d key value).map Prod.fst =
      if key ∈ d.map Prod.fst then d.map Prod.fst else d.map Prod.fst ++ [key] := by
  unfold setItem
  by_cases hkey : key ∈ d.map Prod.fst
  · rw [if_pos hkey, if_pos hkey, List.map_map]
    apply List.map_congr_left
    intro item _
    by_cases heq : item.1 = key
    · simp [heq]
    · simp [heq]
  · rw [if_neg hkey, if_neg hkey, List.map_append, List.map_singleton]

theorem mem_keys_setItem {d : List (κ × ν)} {key k : κ} {value : ν} :
    k ∈ (setItem d key value).map Prod.fst ↔ k ∈ d.map Prod.fst ∨ k = key := by
  rw [keys_setItem]
  by_cases hkey : key ∈ d.map Prod.fst
  · rw [if_pos hkey]
    exact ⟨.inl, fun hor => hor.elim id fun heq => heq ▸ hkey⟩
  · rw [if_neg hkey, List.mem_append, List.mem_singleton]

theorem nodup_setItem {d : List (κ × ν)} (h : (d.map Prod.fst).Nodup) (key : κ) (value : ν) :
    ((setItem d key value).map Prod.fst).Nodup := by
  rw [keys_setItem]
  by_cases hkey : key ∈ d.map Prod.fst
  · rw [if_pos hkey]
    exact h
  · rw [if_neg hkey]
    exact h.append (List.nodup_singleton _) (by simpa using hkey)

theorem weigh_setItem_le {d : List (κ × ν)} (h : (d.map Prod.fst).Nodup) (key : κ) (value : ν) :
    weigh weight (setItem d key value) ≤ weigh weight d + weight value := by
  by_cases hkey : key ∈ d.map Prod.fst
  · unfold setItem weigh
    rw [if_pos hkey, List.map_map]
    -- the key occurs once, so just one value is replaced
    induction d with
    | nil => simp
    | cons item d ih =>
        rw [List.map_cons, List.nodup_cons] at h
        simp only [List.map_cons, List.sum_cons, Function.comp_apply]
        by_cases heq : item.1 = key
        · have hrest : d.map ((fun item => weight item.2) ∘ fun item =>
              if item.1 = key then (key, value) else item) = d.map fun item => weight item.2 := by
            apply List.map_congr_left
            intro other hother
            have hne : other.1 ≠ key := by
              intro hsame
              exact h.1 (heq ▸ hsame ▸ List.mem_map_of_mem hother)
            simp [hne]
          rw [hrest]
          simp only [heq, if_true]
          omega
        · have hrest : key ∈ d.map Prod.fst := by
            cases List.mem_cons.mp hkey with
            | inl hfirst => exact absurd hfirst.symm heq
            | inr hmem => exact hmem
          have hle := ih h.2 hrest
          simp only [heq, if_false]
          omega
  · rw [setItem_new value hkey, weigh, List.map_append, List.sum_append]
    simp [weigh]

theorem weigh_foldl_le (key : ρ → κ) (value : ρ → ν) (rows : List ρ) {d : List (κ × ν)}
    (h : (d.map Prod.fst).Nodup) :
    ((rows.foldl (fun d row => setItem d (key row) (value row)) d).map Prod.fst).Nodup ∧
      weigh weight (rows.foldl (fun d row => setItem d (key row) (value row)) d) ≤
        weigh weight d + (rows.map fun row => weight (value row)).sum := by
  induction rows generalizing d with
  | nil => exact ⟨h, by simp⟩
  | cons row rows ih =>
      have hrest := ih (nodup_setItem h (key row) (value row))
      have hstep := weigh_setItem_le weight h (key row) (value row)
      rw [List.foldl_cons, List.map_cons, List.sum_cons]
      refine ⟨hrest.1, ?_⟩
      omega

-- Looking up different keys never finds more than there is.
theorem weigh_get_le {d : List (κ × ν)} {keys : List κ} (hkeys : keys.Nodup) :
    ((keys.filterMap (get d)).map weight).sum ≤ weigh weight d := by
  have hpairs : (keys.filterMap fun key => (get d key).map fun value => (key, value)).Nodup := by
    apply List.Nodup.filterMap _ hkeys
    intro a b item ha hb
    obtain ⟨_, _, ha⟩ := Option.map_eq_some_iff.mp (Option.mem_def.mp ha)
    obtain ⟨_, _, hb⟩ := Option.map_eq_some_iff.mp (Option.mem_def.mp hb)
    rw [← ha, Prod.mk.injEq] at hb
    exact hb.1.symm
  have hsubset : (keys.filterMap fun key => (get d key).map fun value => (key, value)) ⊆ d := by
    intro item hitem
    obtain ⟨key, _, hsome⟩ := List.mem_filterMap.mp hitem
    obtain ⟨value, hget, hpair⟩ := Option.map_eq_some_iff.mp hsome
    rw [← hpair]
    exact mem_of_get hget
  obtain ⟨found, hperm, hsublist⟩ := List.subperm_of_subset hpairs hsubset
  have hvalues : (keys.filterMap (get d)).map weight =
      (keys.filterMap fun key => (get d key).map fun value => (key, value)).map
        fun item => weight item.2 := by
    rw [List.map_filterMap, List.map_filterMap]
    congr 1
    funext key
    cases get d key <;> rfl
  rw [hvalues, ← (hperm.map _).sum_nat, weigh]
  exact (hsublist.map _).sum_le_sum fun _ _ => Nat.zero_le _

end Weight

theorem sortedByKey_of_sorted {d : List (Nat × ν)} (h : d.Pairwise fun a b => a.1 ≤ b.1) :
    sortedByKey d = d := h.insertionSort_eq

end Dict
