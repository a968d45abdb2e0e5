import Mathlib

-- Tables of rows in the order of their insertion, with a primary key, into
-- which a row goes only when its key is not taken.
namespace Table

variable {ρ κ : Type} [DecidableEq κ]

def insertOrIgnore (key : ρ → κ) (table : List ρ) (row : ρ) : List ρ :=
  if key row ∈ table.map key then table else table ++ [row]

def insertAll (key : ρ → κ) (table rows : List ρ) : List ρ := rows.foldl (insertOrIgnore key) table

variable {key : ρ → κ}

theorem insertAll_append (table first second : List ρ) :
    insertAll key table (first ++ second) = insertAll key (insertAll key table first) second :=
  List.foldl_append

theorem mem_keys_insertOrIgnore {table : List ρ} {row : ρ} {k : κ} :
    k ∈ (insertOrIgnore key table row).map key ↔ k ∈ table.map key ∨ k = key row := by
  unfold insertOrIgnore
  by_cases hrow : key row ∈ table.map key
  · rw [if_pos hrow]
    constructor
    · exact .inl
    · intro h
      cases h with
      | inl hk => exact hk
      | inr hk => rw [hk]; exact hrow
  · rw [if_neg hrow, List.map_append, List.mem_append, List.map_singleton, List.mem_singleton]

theorem mem_keys_insertAll {table rows : List ρ} {k : κ} :
    k ∈ (insertAll key table rows).map key ↔ k ∈ table.map key ∨ k ∈ rows.map key := by
  induction rows generalizing table with
  | nil => simp [insertAll]
  | cons row rows ih =>
      have hstep : insertAll key table (row :: rows) =
          insertAll key (insertOrIgnore key table row) rows := rfl
      rw [hstep, ih, mem_keys_insertOrIgnore, List.map_cons, List.mem_cons, or_assoc]

theorem nodup_insertAll {table rows : List ρ} (h : (table.map key).Nodup) :
    ((insertAll key table rows).map key).Nodup := by
  induction rows generalizing table with
  | nil => exact h
  | cons row rows ih =>
      apply ih
      unfold insertOrIgnore
      by_cases hrow : key row ∈ table.map key
      · rw [if_pos hrow]
        exact h
      · rw [if_neg hrow, List.map_append]
        apply h.append (List.nodup_singleton _)
        intro k hk hnew
        rw [List.mem_singleton] at hnew
        exact hrow (hnew ▸ hk)

-- Rows with new keys, no two alike, all go in.
theorem insertAll_of_nodup {table rows : List ρ} (h : ((table ++ rows).map key).Nodup) :
    insertAll key table rows = table ++ rows := by
  induction rows generalizing table with
  | nil => rw [List.append_nil]; rfl
  | cons row rows ih =>
      have hsplit : table ++ row :: rows = (table ++ [row]) ++ rows := by simp
      have hnew : key row ∉ table.map key := by
        rw [List.map_append, List.map_cons] at h
        have hdisjoint := (List.nodup_append.mp h).2.2
        intro hmem
        exact hdisjoint _ hmem _ List.mem_cons_self rfl
      have hstep : insertAll key table (row :: rows) = insertAll key (table ++ [row]) rows := by
        show insertAll key (insertOrIgnore key table row) rows = _
        rw [insertOrIgnore, if_neg hnew]
      rw [hstep, hsplit]
      apply ih
      rw [← hsplit]
      exact h

-- Rows whose keys are all taken change nothing.
theorem insertAll_of_known {table rows : List ρ} (h : ∀ row ∈ rows, key row ∈ table.map key) :
    insertAll key table rows = table := by
  induction rows with
  | nil => rfl
  | cons row rows ih =>
      have hstep : insertOrIgnore key table row = table := by
        rw [insertOrIgnore, if_pos (h row List.mem_cons_self)]
      show insertAll key (insertOrIgnore key table row) rows = table
      rw [hstep]
      exact ih fun other hother => h other (List.mem_cons_of_mem _ hother)

-- Inserting rows one by one into a table that is part of something larger.
theorem foldl_insertOrIgnore {σ : Type} (get : σ → List ρ) (set : List ρ → σ → σ)
    (hget : ∀ table s, get (set table s) = table)
    (hset : ∀ table table' s, set table (set table' s) = set table s) (hsame : ∀ s, set (get s) s = s)
    (rows : List ρ) (s : σ) :
    rows.foldl (fun s row => set (insertOrIgnore key (get s) row) s) s = set (insertAll key (get s) rows) s := by
  induction rows generalizing s with
  | nil => exact (hsame s).symm
  | cons row rows ih =>
      rw [List.foldl_cons, ih, hget, hset]
      rfl

-- No more rows than keys.
theorem length_insertAll_nil (rows : List ρ) :
    (insertAll key [] rows).length = ((rows.map key).dedup).length := by
  have hnodup : ((insertAll key [] rows).map key).Nodup := nodup_insertAll List.nodup_nil
  have hperm : ((insertAll key [] rows).map key).Perm (rows.map key).dedup := by
    apply (List.perm_ext_iff_of_nodup hnodup (List.nodup_dedup _)).mpr
    intro k
    rw [mem_keys_insertAll, List.mem_dedup]
    simp
  rw [← hperm.length_eq, List.length_map]

omit [DecidableEq κ] in
-- Rows that are numbered within their owners have different keys.
theorem nodup_flatMap_key {τ : Type} {rows : τ → List ρ} {owner : τ → κ} {key : ρ → κ × Nat} {ts : List τ}
    (hown : ∀ t ∈ ts, ∀ row ∈ rows t, (key row).1 = owner t)
    (hnumbers : ∀ t ∈ ts, ((rows t).map fun row => (key row).2).Nodup)
    (hnodup : (ts.map owner).Nodup) : ((ts.flatMap rows).map key).Nodup := by
  rw [List.map_flatMap, List.nodup_flatMap]
  constructor
  · intro t ht
    have hsecond : (((rows t).map key).map Prod.snd).Nodup := by
      rw [List.map_map]
      exact hnumbers t ht
    exact hsecond.of_map
  · have hpair : ts.Pairwise fun a b => owner a ≠ owner b := List.pairwise_map.mp hnodup
    apply hpair.imp_of_mem
    intro a b ha hb hne k hka hkb
    obtain ⟨row, hrow, hk⟩ := List.mem_map.mp hka
    obtain ⟨row', hrow', hk'⟩ := List.mem_map.mp hkb
    have hfirst := hown a ha row hrow
    have hsecond := hown b hb row' hrow'
    rw [hk] at hfirst
    rw [hk'] at hsecond
    exact hne (hfirst.symm.trans hsecond)

end Table
