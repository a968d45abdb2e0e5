import Mathlib

-- Taking the elements of a list one by one until they weigh enough.
namespace Greedy

variable {α : Type} (weight : α → Nat)

-- The shortest prefix that weighs enough, where there is one. At least one
-- element is taken.
def take (needed : Nat) : List α → Option (List α)
  | [] => none
  | x :: xs =>
    if needed ≤ weight x then some [x]
    else (take (needed - weight x) xs).map fun taken => x :: taken

variable {weight} {needed : Nat} {xs taken : List α}

theorem take_cons_of_le {x : α} (h : needed ≤ weight x) : take weight needed (x :: xs) = some [x] := if_pos h

theorem take_cons_of_lt {x : α} (h : weight x < needed) :
    take weight needed (x :: xs) = (take weight (needed - weight x) xs).map fun taken => x :: taken :=
  if_neg (Nat.not_le.mpr h)

-- There is enough just when the whole list is enough.
theorem exists_take (hneeded : 0 < needed) :
    (∃ taken, take weight needed xs = some taken) ↔ needed ≤ (xs.map weight).sum := by
  induction xs generalizing needed with
  | nil => simp [take]; omega
  | cons x xs ih =>
      rw [List.map_cons, List.sum_cons]
      cases Nat.lt_or_ge (weight x) needed with
      | inr hle =>
          rw [take_cons_of_le hle]
          exact ⟨fun _ => Nat.le_add_right_of_le hle, fun _ => ⟨[x], rfl⟩⟩
      | inl hlt =>
          have hrest := ih (Nat.sub_pos_of_lt hlt)
          rw [take_cons_of_lt hlt]
          simp only [Option.map_eq_some_iff]
          constructor
          · intro h
            obtain ⟨_, taken, htaken, _⟩ := h
            have hle := hrest.mp ⟨taken, htaken⟩
            omega
          · intro hle
            obtain ⟨taken, htaken⟩ := hrest.mpr (by omega)
            exact ⟨x :: taken, taken, htaken, rfl⟩

theorem take_initial (h : take weight needed xs = some taken) : taken <+: xs := by
  induction xs generalizing needed taken with
  | nil => cases h
  | cons x xs ih =>
      cases Nat.lt_or_ge (weight x) needed with
      | inr hle =>
          rw [take_cons_of_le hle] at h
          exact Option.some.inj h ▸ ⟨xs, rfl⟩
      | inl hlt =>
          rw [take_cons_of_lt hlt] at h
          obtain ⟨rest, hrest, hcons⟩ := Option.map_eq_some_iff.mp h
          exact hcons ▸ List.cons_prefix_cons.mpr ⟨rfl, ih hrest⟩

theorem take_ne_nil (h : take weight needed xs = some taken) : taken ≠ [] := by
  intro hnil
  subst hnil
  cases xs with
  | nil => cases h
  | cons x xs =>
      cases Nat.lt_or_ge (weight x) needed with
      | inr hle =>
          rw [take_cons_of_le hle] at h
          cases h
      | inl hlt =>
          rw [take_cons_of_lt hlt] at h
          obtain ⟨_, _, hcons⟩ := Option.map_eq_some_iff.mp h
          cases hcons

theorem take_enough (h : take weight needed xs = some taken) : needed ≤ (taken.map weight).sum := by
  induction xs generalizing needed taken with
  | nil => cases h
  | cons x xs ih =>
      cases Nat.lt_or_ge (weight x) needed with
      | inr hle =>
          rw [take_cons_of_le hle] at h
          rw [← Option.some.inj h, List.map_singleton, List.sum_singleton]
          exact hle
      | inl hlt =>
          rw [take_cons_of_lt hlt] at h
          obtain ⟨rest, hrest, hcons⟩ := Option.map_eq_some_iff.mp h
          have hle := ih hrest
          rw [← hcons, List.map_cons, List.sum_cons]
          omega

-- What comes before the last element that is taken is not enough.
theorem take_shortest (hneeded : 0 < needed) (h : take weight needed xs = some taken) :
    (taken.dropLast.map weight).sum < needed := by
  induction xs generalizing needed taken with
  | nil => cases h
  | cons x xs ih =>
      cases Nat.lt_or_ge (weight x) needed with
      | inr hle =>
          rw [take_cons_of_le hle] at h
          rw [← Option.some.inj h]
          exact hneeded
      | inl hlt =>
          rw [take_cons_of_lt hlt] at h
          obtain ⟨rest, hrest, hcons⟩ := Option.map_eq_some_iff.mp h
          have hless := ih (Nat.sub_pos_of_lt hlt) hrest
          rw [← hcons, List.dropLast_cons_of_ne_nil (take_ne_nil hrest), List.map_cons, List.sum_cons]
          omega

-- How many are taken shows in the weight of the first ones.
theorem take_length_le_iff (hneeded : 0 < needed) (h : take weight needed xs = some taken) (n : Nat) :
    taken.length ≤ n ↔ needed ≤ ((xs.take n).map weight).sum := by
  induction xs generalizing needed taken n with
  | nil => cases h
  | cons x xs ih =>
      cases n with
      | zero =>
          have hpos := List.length_pos_iff.mpr (take_ne_nil h)
          simp only [List.take_zero, List.map_nil, List.sum_nil]
          omega
      | succ n =>
          rw [List.take_succ_cons, List.map_cons, List.sum_cons]
          cases Nat.lt_or_ge (weight x) needed with
          | inr hle =>
              rw [take_cons_of_le hle] at h
              rw [← Option.some.inj h, List.length_singleton]
              omega
          | inl hlt =>
              rw [take_cons_of_lt hlt] at h
              obtain ⟨rest, hrest, hcons⟩ := Option.map_eq_some_iff.mp h
              have hiff := ih (Nat.sub_pos_of_lt hlt) hrest n
              rw [← hcons, List.length_cons]
              omega

-- What is taken keeps to a condition just when there is enough before the first
-- element that breaks it.
theorem take_all_iff (hneeded : 0 < needed) (h : take weight needed xs = some taken) (p : α → Bool) :
    (∀ x ∈ taken, p x = true) ↔ needed ≤ ((xs.takeWhile p).map weight).sum := by
  induction xs generalizing needed taken with
  | nil => cases h
  | cons x xs ih =>
      cases hp : p x with
      | false =>
          have hfirst : x ∈ taken := by
            obtain ⟨_, hinitial⟩ := take_initial h
            cases taken with
            | nil => exact absurd rfl (take_ne_nil h)
            | cons y taken => exact (List.cons.inj hinitial).1 ▸ List.mem_cons_self
          rw [List.takeWhile_cons_of_neg (by simp [hp]), List.map_nil, List.sum_nil]
          constructor
          · intro hall
            rw [hall x hfirst] at hp
            cases hp
          · intro hle
            omega
      | true =>
          rw [List.takeWhile_cons_of_pos hp, List.map_cons, List.sum_cons]
          cases Nat.lt_or_ge (weight x) needed with
          | inr hle =>
              rw [take_cons_of_le hle] at h
              rw [← Option.some.inj h]
              simp only [List.mem_singleton, forall_eq, hp, true_iff]
              omega
          | inl hlt =>
              rw [take_cons_of_lt hlt] at h
              obtain ⟨rest, hrest, hcons⟩ := Option.map_eq_some_iff.mp h
              have hiff := ih (Nat.sub_pos_of_lt hlt) hrest
              rw [← hcons, List.forall_mem_cons, hiff]
              simp only [hp, true_and]
              omega

end Greedy
