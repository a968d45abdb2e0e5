import Skepticoin.Lib.Guard

-- Finite maps with lookups and deletions that may raise, and the total of a
-- measure over the entries of a map.
namespace FMap

open Guard

abbrev Map (κ ν : Type) := Finmap fun _ : κ => ν

variable {ε κ ν : Type} [DecidableEq κ]

section Access

-- A lookup that raises at a missing key.
def find (error : ε) (key : κ) (m : Map κ ν) : Except ε ν :=
  match m.lookup key with
  | some value => .ok value
  | none => .error error

-- A deletion that raises at a missing key.
def delete (error : ε) (key : κ) (m : Map κ ν) : Except ε (Map κ ν) :=
  if key ∈ m then .ok (m.erase key) else .error error

@[simp] theorem find_eq_ok {error : ε} {key : κ} {m : Map κ ν} {value : ν} :
    find error key m = .ok value ↔ m.lookup key = some value := by
  unfold find
  cases m.lookup key <;> simp

@[simp] theorem delete_eq_ok {error : ε} {key : κ} {m m' : Map κ ν} :
    delete error key m = .ok m' ↔ key ∈ m ∧ m.erase key = m' := by
  unfold delete
  split_ifs with h <;> simp [h]

theorem lookup_insert_eq_ite (key key' : κ) (value : ν) (m : Map κ ν) :
    (m.insert key value).lookup key' = if key' = key then some value else m.lookup key' := by
  split_ifs with h
  · rw [h, Finmap.lookup_insert]
  · exact Finmap.lookup_insert_of_ne m h

theorem lookup_insert_eq_some {key key' : κ} {value value' : ν} {m : Map κ ν} :
    (m.insert key value).lookup key' = some value' ↔
      key' = key ∧ value = value' ∨ key' ≠ key ∧ m.lookup key' = some value' := by
  rw [lookup_insert_eq_ite]
  split_ifs with h <;> simp [h]

theorem lookup_erase_eq_ite (key key' : κ) (m : Map κ ν) :
    (m.erase key).lookup key' = if key' = key then none else m.lookup key' := by
  split_ifs with h
  · rw [h, Finmap.lookup_erase]
  · exact Finmap.lookup_erase_ne h

theorem lookup_singleton_eq_ite (key key' : κ) (value : ν) :
    (Finmap.singleton key value : Map κ ν).lookup key' = if key' = key then some value else none := by
  split_ifs with h
  · rw [h, Finmap.lookup_singleton_eq]
  · rw [Finmap.lookup_eq_none, Finmap.mem_singleton]
    exact h

-- What a map has already, it can take again.
theorem insert_self {m : Map κ ν} {key : κ} {value : ν} (h : m.lookup key = some value) : m.insert key value = m := by
  refine Finmap.ext_lookup fun other => ?_
  rw [lookup_insert_eq_ite]
  split_ifs with heq
  · rw [heq, h]
  · rfl

theorem insert_erase_self {m : Map κ ν} {key erased : κ} {value : ν} (h : m.lookup key = some value)
    (herased : erased ∉ m ∨ erased = key) : (m.erase erased).insert key value = m := by
  refine Finmap.ext_lookup fun other => ?_
  rw [lookup_insert_eq_ite, lookup_erase_eq_ite]
  split_ifs with heq hother
  · rw [heq, h]
  · cases herased with
    | inl hnone =>
        rw [hother]
        exact (Finmap.lookup_eq_none.mpr hnone).symm
    | inr hkey => exact absurd (hother.trans hkey) heq
  · rfl

theorem insert_empty (key : κ) (value : ν) : (∅ : Map κ ν).insert key value = Finmap.singleton key value := by
  refine Finmap.ext_lookup fun other => ?_
  rw [lookup_insert_eq_ite, lookup_singleton_eq_ite, Finmap.lookup_empty]

theorem lookup_singleton_eq_some {key key' : κ} {value value' : ν} :
    (Finmap.singleton key value : Map κ ν).lookup key' = some value' ↔ key' = key ∧ value = value' := by
  rw [lookup_singleton_eq_ite]
  split_ifs with heq <;> simp [heq]

theorem lookup_insert_fresh {m : Map κ ν} {key other : κ} {value value' : ν} (hfresh : key ∉ m)
    (h : m.lookup other = some value') : (m.insert key value).lookup other = some value' := by
  rw [lookup_insert_eq_ite, if_neg, h]
  intro heq
  exact hfresh (heq ▸ Finmap.mem_of_lookup_eq_some h)

-- The items of a map, in the order in which an iteration over it meets them.
structure Items (m : Map κ ν) where
  list : List (κ × ν)
  once : (list.map Prod.fst).Nodup
  mem : ∀ key value, (key, value) ∈ list ↔ m.lookup key = some value

end Access

section Total

variable (measure : ν → Nat)

-- The measure of the value at a key, 0 where there is none.
def measureAt (m : Map κ ν) (key : κ) : Nat := (m.lookup key).elim 0 measure

-- The sum of a measure over the values of a map.
def total (m : Map κ ν) : Nat := (m.entries.map fun entry => measure entry.2).sum

-- The same sum, over the keys that are not reserved.
def totalOutside (reserved : Finset κ) (m : Map κ ν) : Nat :=
  ∑ key ∈ m.keys \ reserved, measureAt measure m key

omit [DecidableEq κ] in
theorem total_empty : total measure (∅ : Map κ ν) = 0 := rfl

omit [DecidableEq κ] in
theorem total_add (f g : ν → Nat) (m : Map κ ν) :
    total (fun value => f value + g value) m = total f m + total g m := by
  unfold total
  rw [← Multiset.sum_map_add]

theorem total_insert_of_notMem {key : κ} {m : Map κ ν} (value : ν) (h : key ∉ m) :
    total measure (m.insert key value) = measure value + total measure m := by
  simp [total, Finmap.entries_insert_of_notMem h]

theorem total_erase {key : κ} {m : Map κ ν} {value : ν} (h : m.lookup key = some value) :
    total measure m = measure value + total measure (m.erase key) := by
  have hsplit := insert_erase_self h (.inr rfl)
  conv => lhs; rw [← hsplit]
  exact total_insert_of_notMem measure value Finmap.notMem_erase_self

-- Adding the keys one by one turns the sum over entries into one over keys.
theorem total_eq_sum_keys (m : Map κ ν) :
    total measure m = ∑ key ∈ m.keys, measureAt measure m key := by
  suffices h : ∀ (keys : Finset κ) (m : Map κ ν), m.keys = keys →
      total measure m = ∑ key ∈ keys, measureAt measure m key from h m.keys m rfl
  intro keys
  induction keys using Finset.induction_on with
  | empty =>
      intro m hm
      obtain rfl : m = ∅ := Finmap.ext_lookup fun key => by
        rw [Finmap.lookup_empty, Finmap.lookup_eq_none, ← Finmap.mem_keys, hm]
        exact Finset.notMem_empty key
      rfl
  | insert key keys hkey ih =>
      intro m hm
      have hmem : key ∈ m := by
        rw [← Finmap.mem_keys, hm]
        exact Finset.mem_insert_self key keys
      obtain ⟨value, hvalue⟩ := Finmap.mem_iff.mp hmem
      have hkeys : (m.erase key).keys = keys := by
        rw [Finmap.keys_erase, hm, Finset.erase_insert hkey]
      have hrest : ∀ key' ∈ keys, measureAt measure (m.erase key) key' = measureAt measure m key' := by
        intro key' hkey'
        have hne : key' ≠ key := fun h => hkey (h ▸ hkey')
        simp [measureAt, Finmap.lookup_erase_ne hne]
      calc total measure m
          = measure value + total measure (m.erase key) := total_erase measure hvalue
        _ = measure value + ∑ key' ∈ keys, measureAt measure m key' := by
            rw [ih _ hkeys, Finset.sum_congr rfl hrest]
        _ = ∑ key' ∈ insert key keys, measureAt measure m key' := by
            rw [Finset.sum_insert hkey, measureAt, hvalue, Option.elim_some]

theorem totalOutside_nil (m : Map κ ν) : totalOutside measure ∅ m = total measure m := by
  rw [totalOutside, Finset.sdiff_empty, total_eq_sum_keys]

-- What is reserved and what is not make up the whole.
theorem totalOutside_add_reserved (reserved : Finset κ) (m : Map κ ν) (h : reserved ⊆ m.keys) :
    totalOutside measure reserved m + ∑ key ∈ reserved, measureAt measure m key =
      total measure m := by
  rw [totalOutside, total_eq_sum_keys, Finset.sum_sdiff h]

theorem totalOutside_add_sum {keys : List κ} {m : Map κ ν} (honce : keys.Nodup) (hmem : ∀ key ∈ keys, key ∈ m) :
    totalOutside measure keys.toFinset m + (keys.map (measureAt measure m)).sum = total measure m := by
  rw [← List.sum_toFinset _ honce]
  apply totalOutside_add_reserved
  intro key hkey
  exact Finmap.mem_keys.mpr (hmem key (List.mem_toFinset.mp hkey))

theorem sum_measureAt_le_total {keys : List κ} {m : Map κ ν} (honce : keys.Nodup) (hmem : ∀ key ∈ keys, key ∈ m) :
    (keys.map (measureAt measure m)).sum ≤ total measure m := by
  rw [← totalOutside_add_sum measure honce hmem]
  exact Nat.le_add_left _ _

-- A key about to be deleted may as well be reserved.
theorem totalOutside_erase (reserved : Finset κ) (key : κ) (m : Map κ ν) :
    totalOutside measure reserved (m.erase key) = totalOutside measure (insert key reserved) m := by
  have hkeys : (m.erase key).keys \ reserved = m.keys \ insert key reserved := by
    rw [Finmap.keys_erase]
    ext key'
    simp only [Finset.mem_sdiff, Finset.mem_erase, Finset.mem_insert, not_or]
    tauto
  rw [totalOutside, totalOutside, hkeys]
  refine Finset.sum_congr rfl fun key' hkey' => ?_
  have hne : key' ≠ key := by
    rintro rfl
    simp at hkey'
  simp [measureAt, Finmap.lookup_erase_ne hne]

theorem totalOutside_insert_le (reserved : Finset κ) (key : κ) (value : ν) (m : Map κ ν) :
    totalOutside measure reserved (m.insert key value) ≤
      totalOutside measure reserved m + measure value := by
  have hsub : (m.insert key value).keys \ reserved ⊆ insert key ((m.keys \ reserved).erase key) := by
    intro key' hkey'
    simp only [Finset.mem_sdiff, Finmap.mem_keys, Finmap.mem_insert] at hkey'
    simp only [Finset.mem_insert, Finset.mem_erase, Finset.mem_sdiff, Finmap.mem_keys]
    tauto
  have hrest : ∀ key' ∈ (m.keys \ reserved).erase key,
      measureAt measure (m.insert key value) key' = measureAt measure m key' := by
    intro key' hkey'
    simp [measureAt, Finmap.lookup_insert_of_ne m (Finset.ne_of_mem_erase hkey')]
  calc totalOutside measure reserved (m.insert key value)
      ≤ ∑ key' ∈ insert key ((m.keys \ reserved).erase key),
          measureAt measure (m.insert key value) key' := Finset.sum_le_sum_of_subset hsub
    _ = measure value + ∑ key' ∈ (m.keys \ reserved).erase key, measureAt measure m key' := by
        rw [Finset.sum_insert (Finset.notMem_erase _ _), Finset.sum_congr rfl hrest, measureAt,
          Finmap.lookup_insert, Option.elim_some]
    _ ≤ measure value + totalOutside measure reserved m :=
        Nat.add_le_add_left (Finset.sum_le_sum_of_subset (Finset.erase_subset _ _)) _
    _ = totalOutside measure reserved m + measure value := Nat.add_comm _ _

end Total

end FMap
