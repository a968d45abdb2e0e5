import Skepticoin.Datatypes

namespace Skepticoin

open Guard

variable (crypto : Crypto)

def select_block_height (input_hash : Hash) (current_height : Nat) : Py Nat := do
  raiseIf (current_height = 0) .ZeroDivisionError
  let base := from_bytes (input_hash.1.take 8)
  return base % current_height

-- The while loop; every turn adds at least one byte of a non-empty block.
def select_block_slice.loop (serialized_block : Bytes) (length : Nat) : Nat → Nat → Bytes → Bytes
  | 0, _, result => result
  | fuel + 1, start, result =>
    if result.length < length then
      loop serialized_block length fuel 0
        (result ++ (serialized_block.drop start).take (length - result.length))
    else result

def select_block_slice (hash : Hash) (serialized_block : Bytes) (length : Nat) : Py Bytes := do
  let base := from_bytes ((hash.1.drop 8).take 4)
  raiseIf (serialized_block.length = 0) .ZeroDivisionError
  let start := base % serialized_block.length
  return select_block_slice.loop serialized_block length length start []

def select_slice_from_chain (input_hash : Hash) (current_height : Nat)
    (get_block_by_height : Nat → Py Block) (length : Nat) : Py Bytes := do
  let selected_block_height ← select_block_height input_hash current_height
  let selected_block ← get_block_by_height selected_block_height
  let serialized_block ← selected_block.serialize
  select_block_slice input_hash serialized_block length

def select_n_k_length_slices_from_chain (current_hash : Hash) (current_height : Nat)
    (get_block_by_height : Nat → Py Block) : Nat → Nat → Py Bytes
  | 0, _ => .ok []
  | n + 1, k => do
    let b ← select_slice_from_chain current_hash current_height get_block_by_height k
    let result ← select_n_k_length_slices_from_chain (crypto.sha256d (current_hash.1 ++ b))
      current_height get_block_by_height n k
    return b ++ result

-- The fuel of the loop suffices: the slice has the length asked for.
theorem select_block_slice_loop_length (serialized_block : Bytes) (length fuel start : Nat)
    (result : Bytes) (hstart : start < serialized_block.length) (hresult : result.length ≤ length)
    (hfuel : length ≤ result.length + fuel) :
    (select_block_slice.loop serialized_block length fuel start result).length = length := by
  induction fuel generalizing start result with
  | zero =>
      rw [select_block_slice.loop]
      omega
  | succ fuel ih =>
      rw [select_block_slice.loop]
      split_ifs with hlt
      · have hchunk : ((serialized_block.drop start).take (length - result.length)).length =
            min (length - result.length) (serialized_block.length - start) := by simp
        refine ih 0 _ (by omega) ?_ ?_
        · rw [List.length_append, hchunk]
          omega
        · rw [List.length_append, hchunk]
          omega
      · omega

theorem select_block_slice_length {hash : Hash} {serialized_block slice : Bytes} {length : Nat}
    (h : select_block_slice hash serialized_block length = .ok slice) : slice.length = length := by
  simp only [select_block_slice, bind_eq_ok, raiseIf_eq_ok, exists_const, pure_eq_ok] at h
  obtain ⟨hne, rfl⟩ := h
  exact select_block_slice_loop_length _ _ _ _ _ (Nat.mod_lt _ (by omega)) (by simp) (by simp)

theorem select_n_k_length_slices_length {current_hash : Hash} {current_height n k : Nat}
    {get_block_by_height : Nat → Py Block} {slices : Bytes}
    (h : select_n_k_length_slices_from_chain crypto current_hash current_height get_block_by_height n k =
      .ok slices) : slices.length = n * k := by
  induction n generalizing current_hash slices with
  | zero =>
      cases h
      simp
  | succ n ih =>
      simp only [select_n_k_length_slices_from_chain, select_slice_from_chain, bind_eq_ok, pure_eq_ok]
        at h
      obtain ⟨b, ⟨_, _, _, _, _, _, hb⟩, rest, hrest, rfl⟩ := h
      rw [List.length_append, select_block_slice_length hb, ih hrest, Nat.succ_mul, Nat.add_comm]

end Skepticoin
