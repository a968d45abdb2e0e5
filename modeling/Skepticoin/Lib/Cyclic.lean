import Mathlib

-- Windows of a list that is read round and round.
namespace Cyclic

variable {α : Type} [Inhabited α]

def window (s : List α) (start length : Nat) : List α :=
  (List.range length).map fun j => s.getD ((start + j) % s.length) default

variable {s : List α} {start length : Nat}

@[simp] theorem window_length (s : List α) (start length : Nat) : (window s start length).length = length := by
  rw [window, List.length_map, List.length_range]

@[simp] theorem window_zero (s : List α) (start : Nat) : window s start 0 = [] := rfl

-- Where the window starts only matters up to whole rounds.
theorem window_mod (s : List α) (start length : Nat) : window s (start % s.length) length = window s start length := by
  unfold window
  apply List.map_congr_left
  intro j _
  rw [Nat.mod_add_mod]

theorem window_add (s : List α) (start first second : Nat) :
    window s start (first + second) = window s start first ++ window s (start + first) second := by
  unfold window
  rw [List.range_add, List.map_append, List.map_map]
  congr 1
  apply List.map_congr_left
  intro j _
  simp only [Function.comp_apply, Nat.add_assoc]

-- A window that does not reach the end is a plain slice.
theorem window_eq_slice (h : start + length ≤ s.length) : window s start length = (s.drop start).take length := by
  apply List.ext_getElem
  · rw [window_length, List.length_take, List.length_drop]
    omega
  · intro j hj _
    rw [window_length] at hj
    have hin : start + j < s.length := by omega
    simp only [window, List.getElem_map, List.getElem_range, List.getElem_take, List.getElem_drop]
    rw [Nat.mod_eq_of_lt hin, List.getD_eq_getElem _ _ hin]

end Cyclic
