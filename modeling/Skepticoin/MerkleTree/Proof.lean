import Skepticoin.Lib.Guard
import Skepticoin.MerkleTree

namespace Skepticoin

open Guard

-- The children are () or a pair.
inductive MerkleNode where
  | childless (index : Nat) (value : Option Hash)
  | parent (index : Nat) (left right : MerkleNode) (value : Option Hash)

-- For a parent, a lower bound of the indexes of the leaves.
def MerkleNode.index : MerkleNode → Nat
  | .childless index _ => index
  | .parent index _ _ _ => index

def MerkleNode.hash (crypto : Crypto) : MerkleNode → Py Hash
  | .childless _ (some value) => .ok value
  | .childless _ none => .ok (crypto.sha256d [])
  | .parent _ _ _ (some _) => .error (.ValueError "Only store values at the leaves")
  | .parent _ left right none => do
    let left_hash ← left.hash crypto
    let right_hash ← right.hash crypto
    return crypto.sha256d (left_hash.1 ++ right_hash.1)

def node_chunks : List MerkleNode → List MerkleNode
  | left :: right :: rest => .parent left.index left right none :: node_chunks rest
  | rest => rest

-- The recursion of _get_merkle_tree, which on no nodes at all never ends, as
-- that of get_merkle_root.
def get_merkle_tree.loop : Nat → List MerkleNode → Py MerkleNode
  | _, [node] => .ok node
  | 0, _ => .error .RecursionError
  | fuel + 1, list_of_nodes => loop fuel (node_chunks list_of_nodes)

def leaf_nodes (list_of_hashes : List Hash) (start : Nat) : List MerkleNode :=
  (list_of_hashes.zipIdx start).map fun leaf => .childless leaf.2 (some leaf.1)

def get_merkle_tree (list_of_hashes : List Hash) : Py MerkleNode :=
  get_merkle_tree.loop list_of_hashes.length (leaf_nodes list_of_hashes 0)

def get_proof (crypto : Crypto) : MerkleNode → Nat → Py MerkleNode
  | .childless index value, _ => .ok (.childless index value)
  | .parent index left right _, index_of_interest =>
    if index_of_interest ≥ right.index then do
      let other_hash ← left.hash crypto
      let recursion_result ← get_proof crypto right index_of_interest
      return .parent index (.childless left.index (some other_hash)) recursion_result none
    else do
      let other_hash ← right.hash crypto
      let recursion_result ← get_proof crypto left index_of_interest
      return .parent index recursion_result (.childless right.index (some other_hash)) none

variable {crypto : Crypto}

section Root

-- Nodes and their hashes stay in step through one pass.
theorem node_chunks_hash {nodes : List MerkleNode} {hashes : List Hash}
    (h : List.Forall₂ (fun node hash => node.hash crypto = .ok hash) nodes hashes) :
    List.Forall₂ (fun node hash => node.hash crypto = .ok hash) (node_chunks nodes) (hash_chunks crypto hashes) := by
  fun_induction node_chunks nodes generalizing hashes with
  | case1 left right rest ih =>
      cases h with
      | cons hleft h =>
          cases h with
          | cons hright hrest =>
              refine .cons ?_ (ih hrest)
              simp [MerkleNode.hash, hleft, hright]
  | case2 rest hrest =>
      cases h with
      | nil => exact .nil
      | cons hfirst h =>
          cases h with
          | nil => exact .cons hfirst .nil
          | cons _ _ => exact absurd rfl (hrest _ _ _)

-- The two recursions take the same passes, whatever they end with.
theorem tree_loop_hash (fuel : Nat) {nodes : List MerkleNode} {hashes : List Hash}
    (h : List.Forall₂ (fun node hash => node.hash crypto = .ok hash) nodes hashes) :
    (do
      let tree ← get_merkle_tree.loop fuel nodes
      tree.hash crypto) = get_merkle_root.loop crypto fuel hashes := by
  induction fuel generalizing nodes hashes with
  | zero =>
      cases h with
      | nil => rfl
      | cons hfirst h =>
          cases h with
          | nil => exact hfirst
          | cons _ _ => rfl
  | succ fuel ih =>
      cases h with
      | nil => exact ih .nil
      | cons hfirst h =>
          cases h with
          | nil => exact hfirst
          | cons hsecond hrest => exact ih (node_chunks_hash (.cons hfirst (.cons hsecond hrest)))

variable (crypto) in
theorem leaf_nodes_hash (list_of_hashes : List Hash) (start : Nat) :
    List.Forall₂ (fun node hash => node.hash crypto = .ok hash) (leaf_nodes list_of_hashes start) list_of_hashes := by
  induction list_of_hashes generalizing start with
  | nil => exact .nil
  | cons hash rest ih => exact .cons rfl (ih (start + 1))

end Root

section Spans

-- The leaves below a node are the hashes of one stretch of the list, from the
-- index of the node on and in order; values are at the leaves only.
def MerkleNode.Spans (start : Nat) (hashes : List Hash) : MerkleNode → Prop
  | .childless index value => index = start ∧ ∃ hash, value = some hash ∧ hashes = [hash]
  | .parent index left right value => index = start ∧ value = none ∧ ∃ first second, hashes = first ++ second ∧
    left.Spans start first ∧ right.Spans (start + first.length) second

-- A level of the tree: nodes whose stretches follow one another.
def Level : Nat → List Hash → List MerkleNode → Prop
  | _, hashes, [] => hashes = []
  | start, hashes, node :: nodes => ∃ first second, hashes = first ++ second ∧
    node.Spans start first ∧ Level (start + first.length) second nodes

theorem spans_index {start : Nat} {hashes : List Hash} {node : MerkleNode} (h : node.Spans start hashes) :
    node.index = start := by
  cases node with
  | childless index value => exact h.1
  | parent index left right value => exact h.1

theorem node_chunks_level {nodes : List MerkleNode} {start : Nat} {hashes : List Hash}
    (h : Level start hashes nodes) : Level start hashes (node_chunks nodes) := by
  fun_induction node_chunks nodes generalizing start hashes with
  | case1 left right rest ih =>
      obtain ⟨first, _, rfl, hleft, second, third, rfl, hright, hrest⟩ := h
      refine ⟨first ++ second, third, (List.append_assoc _ _ _).symm, ?_, ?_⟩
      · exact ⟨spans_index hleft, rfl, first, second, rfl, hleft, hright⟩
      · rw [List.length_append, ← Nat.add_assoc]
        exact ih hrest
  | case2 rest _ => exact h

theorem tree_loop_spans {fuel : Nat} {nodes : List MerkleNode} {start : Nat} {hashes : List Hash} {tree : MerkleNode}
    (h : Level start hashes nodes) (htree : get_merkle_tree.loop fuel nodes = .ok tree) :
    tree.Spans start hashes := by
  have hone : ∀ node, Level start hashes [node] → node.Spans start hashes := by
    rintro node ⟨first, second, hsplit, hspans, hrest⟩
    obtain rfl : second = [] := hrest
    rwa [hsplit, List.append_nil]
  fun_induction get_merkle_tree.loop fuel nodes with
  | case1 fuel node => exact Except.ok.inj htree ▸ hone node h
  | case2 nodes _ => cases htree
  | case3 fuel nodes _ ih => exact ih (node_chunks_level h) htree

theorem leaf_nodes_level (list_of_hashes : List Hash) (start : Nat) :
    Level start list_of_hashes (leaf_nodes list_of_hashes start) := by
  induction list_of_hashes generalizing start with
  | nil => rfl
  | cons hash rest ih => exact ⟨[hash], rest, rfl, ⟨rfl, hash, rfl, rfl⟩, ih (start + 1)⟩

variable (crypto) in
theorem spans_hash {node : MerkleNode} {start : Nat} {hashes : List Hash} (h : node.Spans start hashes) :
    ∃ hash, node.hash crypto = .ok hash := by
  induction node generalizing start hashes with
  | childless index value =>
      obtain ⟨_, hash, rfl, _⟩ := h
      exact ⟨hash, rfl⟩
  | parent index left right value ihleft ihright =>
      obtain ⟨_, rfl, first, second, _, hleft, hright⟩ := h
      obtain ⟨left_hash, hl⟩ := ihleft hleft
      obtain ⟨right_hash, hr⟩ := ihright hright
      exact ⟨crypto.sha256d (left_hash.1 ++ right_hash.1), by simp [MerkleNode.hash, hl, hr]⟩

end Spans

section Proof

-- What a proof keeps of a tree: the way down to one leaf, and beside it, for
-- each subtree that is left, a childless node with its hash.
inductive ProofOf (crypto : Crypto) (index_of_interest : Nat) (value : Hash) : MerkleNode → MerkleNode → Prop
  | leaf : ProofOf crypto index_of_interest value
    (.childless index_of_interest (some value)) (.childless index_of_interest (some value))
  | left {index : Nat} {left right proof : MerkleNode} {sibling : Hash} :
    ProofOf crypto index_of_interest value left proof → right.hash crypto = .ok sibling →
    ProofOf crypto index_of_interest value
      (.parent index left right none) (.parent index proof (.childless right.index (some sibling)) none)
  | right {index : Nat} {left right proof : MerkleNode} {sibling : Hash} :
    ProofOf crypto index_of_interest value right proof → left.hash crypto = .ok sibling →
    ProofOf crypto index_of_interest value
      (.parent index left right none) (.parent index (.childless left.index (some sibling)) proof none)

theorem ProofOf.hash_eq {index_of_interest : Nat} {value : Hash} {node proof : MerkleNode}
    (h : ProofOf crypto index_of_interest value node proof) : proof.hash crypto = node.hash crypto := by
  induction h with
  | leaf => rfl
  | left _ hsibling ih => rw [MerkleNode.hash, MerkleNode.hash, ih, MerkleNode.hash, hsibling]
  | right _ hsibling ih => rw [MerkleNode.hash, MerkleNode.hash, ih, MerkleNode.hash, hsibling]

-- The index of the right child tells on which side the leaf is.
variable (crypto) in
theorem get_proof_ok {node : MerkleNode} {start : Nat} {hashes : List Hash} (h : node.Spans start hashes)
    {offset : Nat} (hoffset : offset < hashes.length) :
    ∃ proof, get_proof crypto node (start + offset) = .ok proof ∧
      ProofOf crypto (start + offset) hashes[offset] node proof := by
  induction node generalizing start hashes offset with
  | childless index value =>
      obtain ⟨rfl, hash, rfl, rfl⟩ := h
      obtain rfl : offset = 0 := by simpa using hoffset
      exact ⟨_, rfl, .leaf⟩
  | parent index left right value ihleft ihright =>
      obtain ⟨rfl, rfl, first, second, rfl, hleft, hright⟩ := h
      have hindex := spans_index hright
      rw [List.length_append] at hoffset
      by_cases hside : first.length ≤ offset
      · obtain ⟨sibling, hsibling⟩ := spans_hash crypto hleft
        have hlt : offset - first.length < second.length := by omega
        obtain ⟨proof, hproof, hof⟩ := ihright hright hlt
        have hsame : index + first.length + (offset - first.length) = index + offset := by omega
        rw [hsame] at hproof hof
        refine ⟨.parent index (.childless left.index (some sibling)) proof none, ?_, ?_⟩
        · rw [get_proof, if_pos (by omega), hsibling, hproof]
          rfl
        · rw [List.getElem_append_right hside]
          exact .right hof hsibling
      · obtain ⟨sibling, hsibling⟩ := spans_hash crypto hright
        have hlt : offset < first.length := by omega
        obtain ⟨proof, hproof, hof⟩ := ihleft hleft hlt
        refine ⟨.parent index proof (.childless right.index (some sibling)) none, ?_, ?_⟩
        · rw [get_proof, if_neg (by omega), hsibling, hproof]
          rfl
        · rw [List.getElem_append_left (by omega)]
          exact .left hof hsibling

end Proof

-- The tree, the root and every proof agree, for every number of hashes.
theorem merkle_proof_agrees (crypto : Crypto) {list_of_hashes : List Hash} {index_of_interest : Nat}
    (h : index_of_interest < list_of_hashes.length) :
    ∃ tree root proof, get_merkle_tree list_of_hashes = .ok tree ∧ tree.Spans 0 list_of_hashes ∧
      get_merkle_root crypto list_of_hashes = .ok root ∧ tree.hash crypto = .ok root ∧
      get_proof crypto tree index_of_interest = .ok proof ∧ proof.hash crypto = .ok root ∧
      ProofOf crypto index_of_interest list_of_hashes[index_of_interest] tree proof := by
  have hne : list_of_hashes ≠ [] := List.ne_nil_of_length_pos (by omega)
  obtain ⟨root, hroot⟩ := get_merkle_root_ok crypto list_of_hashes hne
  have hsteps := tree_loop_hash list_of_hashes.length (leaf_nodes_hash crypto list_of_hashes 0)
  obtain ⟨tree, htree, hhash⟩ := bind_eq_ok.mp (hsteps.trans hroot)
  have hspans := tree_loop_spans (leaf_nodes_level list_of_hashes 0) htree
  obtain ⟨proof, hproof, hof⟩ := get_proof_ok crypto hspans h
  rw [Nat.zero_add] at hproof hof
  exact ⟨tree, root, proof, htree, hspans, hroot, hhash, hproof, hof.hash_eq.trans hhash, hof⟩

def five_hashes : List Hash := [.ofNat 32 1, .ofNat 32 2, .ofNat 32 3, .ofNat 32 4, .ofNat 32 5]

-- The last of five hashes is promoted twice, and its proof has one sibling.
theorem merkle_proof_agrees_five :
    ∃ tree root proof, get_merkle_tree five_hashes = .ok tree ∧ tree.Spans 0 five_hashes ∧
      get_merkle_root .residue five_hashes = .ok root ∧ tree.hash .residue = .ok root ∧
      get_proof .residue tree 4 = .ok proof ∧ proof.hash .residue = .ok root ∧
      ProofOf .residue 4 (.ofNat 32 5) tree proof := by
  have h : 4 < five_hashes.length := by decide
  exact merkle_proof_agrees .residue h

end Skepticoin
