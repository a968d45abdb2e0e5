import Skepticoin.Hash

namespace Skepticoin

variable (crypto : Crypto)

-- One pass over the chunks of two: a pair is hashed, a last odd one kept.
def hash_chunks : List Hash → List Hash
  | left :: right :: rest => crypto.sha256d (left.1 ++ right.1) :: hash_chunks rest
  | rest => rest

-- The recursion of get_merkle_root. On no hashes at all it never ends in the
-- source, until Python gives up.
def get_merkle_root.loop : Nat → List Hash → Py Hash
  | _, [hash] => .ok hash
  | 0, _ => .error .RecursionError
  | fuel + 1, list_of_hashes => loop fuel (hash_chunks crypto list_of_hashes)

def get_merkle_root (list_of_hashes : List Hash) : Py Hash :=
  get_merkle_root.loop crypto list_of_hashes.length list_of_hashes

theorem hash_chunks_length (list_of_hashes : List Hash) :
    (hash_chunks crypto list_of_hashes).length = (list_of_hashes.length + 1) / 2 := by
  induction list_of_hashes using hash_chunks.induct with
  | case1 left right rest ih =>
      simp only [hash_chunks, List.length_cons, ih]
      omega
  | case2 rest hrest =>
      match rest with
      | [] => simp [hash_chunks]
      | [_] => simp [hash_chunks]
      | left :: right :: rest => exact absurd rfl (hrest left right rest)

-- The fuel suffices: every pass over two or more hashes leaves fewer.
theorem get_merkle_root_loop_ok (fuel : Nat) (list_of_hashes : List Hash) (h : list_of_hashes ≠ [])
    (hfuel : list_of_hashes.length ≤ fuel + 1) :
    ∃ root, get_merkle_root.loop crypto fuel list_of_hashes = .ok root := by
  induction fuel generalizing list_of_hashes with
  | zero =>
      match list_of_hashes with
      | [] => exact absurd rfl h
      | [hash] => exact ⟨hash, rfl⟩
      | _ :: _ :: _ => simp at hfuel
  | succ fuel ih =>
      match list_of_hashes with
      | [] => exact absurd rfl h
      | [hash] => exact ⟨hash, rfl⟩
      | left :: right :: rest =>
          refine ih (hash_chunks crypto (left :: right :: rest)) (by simp [hash_chunks]) ?_
          rw [hash_chunks_length]
          simp only [List.length_cons] at hfuel ⊢
          omega

theorem get_merkle_root_ok (list_of_hashes : List Hash) (h : list_of_hashes ≠ []) :
    ∃ root, get_merkle_root crypto list_of_hashes = .ok root :=
  get_merkle_root_loop_ok crypto _ _ h (Nat.le_succ _)

end Skepticoin
