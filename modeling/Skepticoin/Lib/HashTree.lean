import Skepticoin.Lib.Guard

-- Binary trees with data at the leaves, hashed bottom up without a mark that
-- tells leaves from inner nodes, and the rounds of pairing that build them.
inductive HashTree (α : Type) where
  | leaf (a : α)
  | node (left right : HashTree α)

namespace HashTree

variable {α β δ : Type}

def leaves : HashTree α → List α
  | .leaf a => [a]
  | .node left right => left.leaves ++ right.leaves

section Root

variable (hash : β → δ) (pair : δ → δ → β) (content : α → β)

def root : HashTree α → δ
  | .leaf a => hash (content a)
  | .node left right => hash (pair left.root right.root)

-- What the root is the hash of.
def top : HashTree α → β
  | .leaf a => content a
  | .node left right => pair (left.root hash pair content) (right.root hash pair content)

-- What is hashed on the way to the root.
def hashed : HashTree α → List β
  | .leaf a => [content a]
  | .node left right => pair (left.root hash pair content) (right.root hash pair content) ::
    (left.hashed ++ right.hashed)

-- Two different things among some have one hash.
def Collision (xs : List β) : Prop := ∃ x ∈ xs, ∃ y ∈ xs, x ≠ y ∧ hash x = hash y

end Root

section Commitment

variable {hash : β → δ} {pair : δ → δ → β} {content : α → β}

theorem root_eq_top (tree : HashTree α) : tree.root hash pair content = hash (tree.top hash pair content) := by
  cases tree with
  | leaf a => rfl
  | node left right => rfl

theorem top_mem (tree : HashTree α) : tree.top hash pair content ∈ tree.hashed hash pair content := by
  cases tree with
  | leaf a => exact List.mem_singleton_self _
  | node left right => exact List.mem_cons_self

theorem Collision.mono {xs ys : List β} (h : Collision hash xs) (hsub : xs ⊆ ys) : Collision hash ys := by
  obtain ⟨x, hx, y, hy, hne, heq⟩ := h
  exact ⟨x, hsub hx, y, hsub hy, hne, heq⟩

theorem top_eq_of_root_eq {first second : HashTree α}
    (hroot : first.root hash pair content = second.root hash pair content)
    (hnone : ¬Collision hash (first.hashed hash pair content ++ second.hashed hash pair content)) :
    first.top hash pair content = second.top hash pair content := by
  by_contra hne
  rw [first.root_eq_top, second.root_eq_top] at hroot
  exact hnone ⟨_, List.mem_append_left _ first.top_mem, _, List.mem_append_right _ second.top_mem, hne, hroot⟩

-- Where no leaf reads like a pair, trees of one root have the same leaves, or
-- there is a collision. The induction is on the first tree; that the shapes
-- agree comes out on the way.
theorem leaves_eq_of_root_eq (hpair : ∀ a b c d, pair a b = pair c d → a = c ∧ b = d)
    (first second : HashTree α) (hfirst : ∀ a ∈ first.leaves, ∀ x y, content a ≠ pair x y)
    (hsecond : ∀ a ∈ second.leaves, ∀ x y, content a ≠ pair x y)
    (hroot : first.root hash pair content = second.root hash pair content)
    (hnone : ¬Collision hash (first.hashed hash pair content ++ second.hashed hash pair content)) :
    first.leaves.map content = second.leaves.map content := by
  have htop := top_eq_of_root_eq hroot hnone
  induction first generalizing second with
  | leaf a =>
      cases second with
      | leaf b =>
          have hsame : content a = content b := htop
          simp [leaves, hsame]
      | node left right => exact absurd htop (hfirst a (List.mem_singleton_self a) _ _)
  | node left right ihleft ihright =>
      cases second with
      | leaf b => exact absurd htop.symm (hsecond b (List.mem_singleton_self b) _ _)
      | node left' right' =>
          obtain ⟨hl, hr⟩ := hpair _ _ _ _ htop
          have hnoneLeft : ¬Collision hash (left.hashed hash pair content ++ left'.hashed hash pair content) := by
            intro hcollision
            apply hnone
            apply hcollision.mono
            simp only [hashed]
            grind
          have hnoneRight : ¬Collision hash (right.hashed hash pair content ++ right'.hashed hash pair content) := by
            intro hcollision
            apply hnone
            apply hcollision.mono
            simp only [hashed]
            grind
          simp only [leaves, List.mem_append] at hfirst hsecond
          have hleft := ihleft left' (fun a ha => hfirst a (.inl ha)) (fun a ha => hsecond a (.inl ha)) hl hnoneLeft
            (top_eq_of_root_eq hl hnoneLeft)
          have hright := ihright right' (fun a ha => hfirst a (.inr ha)) (fun a ha => hsecond a (.inr ha)) hr
            hnoneRight (top_eq_of_root_eq hr hnoneRight)
          rw [leaves, leaves, List.map_append, List.map_append, hleft, hright]

end Commitment

section Rounds

-- One round: neighbours become one tree, and a last odd one is kept.
def pairUp : List (HashTree α) → List (HashTree α)
  | left :: right :: rest => .node left right :: pairUp rest
  | rest => rest

theorem pairUp_leaves (trees : List (HashTree α)) :
    (pairUp trees).flatMap leaves = trees.flatMap leaves := by
  fun_induction pairUp trees with
  | case1 left right rest ih => simp [leaves, ih]
  | case2 rest _ => rfl

end Rounds

end HashTree
