import Skepticoin.Chain
import Skepticoin.Lib.HashTree

namespace Skepticoin

open Guard HashTree

variable (crypto : Crypto)

-- What one pass over the chunks of two hashes.
def chunk_inputs : List Hash → List Bytes
  | left :: right :: rest => (left.1 ++ right.1) :: chunk_inputs rest
  | _ => []

-- What get_merkle_root hashes, pass by pass.
def merkle_inputs.loop : Nat → List Hash → List Bytes
  | _, [_] => []
  | 0, _ => []
  | fuel + 1, list_of_hashes => chunk_inputs list_of_hashes ++ loop fuel (hash_chunks crypto list_of_hashes)

def merkle_inputs (list_of_hashes : List Hash) : List Bytes :=
  merkle_inputs.loop crypto list_of_hashes.length list_of_hashes

-- The byte strings that calc_merkle_root_hash hashes: the transactions, and
-- the pairs of hashes above them.
def hashed_strings (transactions : List Transaction) : List Bytes :=
  transactions.filterMap (fun transaction => transaction.serialize.toOption) ++
    merkle_inputs crypto (transactions.filterMap fun transaction => (transaction.hash crypto).toOption)

def pairBytes (left right : Hash) : Bytes := left.1 ++ right.1

def merkleRoot (tree : HashTree Bytes) : Hash := tree.root crypto.sha256d pairBytes id

def merkleHashed (tree : HashTree Bytes) : List Bytes := tree.hashed crypto.sha256d pairBytes id

variable {crypto}

theorem pairBytes_inj (a b c d : Hash) (h : pairBytes a b = pairBytes c d) : a = c ∧ b = d := by
  obtain ⟨hleft, hright⟩ := List.append_inj h (a.2.trans c.2.symm)
  exact ⟨Subtype.ext hleft, Subtype.ext hright⟩

theorem pairBytes_length (a b : Hash) : (pairBytes a b).length = 64 := by
  rw [pairBytes, List.length_append, a.2, b.2]

-- A pass over hashes is a round of pairing over the trees below them.
theorem hash_chunks_roots (trees : List (HashTree Bytes)) :
    hash_chunks crypto (trees.map (merkleRoot crypto)) = (pairUp trees).map (merkleRoot crypto) := by
  fun_induction pairUp trees with
  | case1 left right rest ih =>
      rw [List.map_cons, List.map_cons, hash_chunks, ih]
      rfl
  | case2 rest hrest =>
      cases rest with
      | nil => rfl
      | cons left rest =>
          cases rest with
          | nil => rfl
          | cons right rest => exact absurd rfl (hrest left right rest)

theorem pairUp_hashed (trees : List (HashTree Bytes)) : ∀ tree ∈ pairUp trees, ∀ bytes ∈ merkleHashed crypto tree,
    bytes ∈ chunk_inputs (trees.map (merkleRoot crypto)) ∨ ∃ below ∈ trees, bytes ∈ merkleHashed crypto below := by
  fun_induction pairUp trees with
  | case1 left right rest ih =>
      intro tree htree bytes hbytes
      rw [List.map_cons, List.map_cons, chunk_inputs]
      cases List.mem_cons.mp htree with
      | inl hnew =>
          rw [hnew] at hbytes
          cases List.mem_cons.mp hbytes with
          | inl htop => exact .inl (htop ▸ List.mem_cons_self)
          | inr hbelow =>
              right
              cases List.mem_append.mp hbelow with
              | inl hleft => exact ⟨left, List.mem_cons_self, hleft⟩
              | inr hright => exact ⟨right, List.mem_cons_of_mem _ List.mem_cons_self, hright⟩
      | inr hrest =>
          apply (ih tree hrest bytes hbytes).imp (List.mem_cons_of_mem _)
          intro hbelow
          obtain ⟨below, hmem, hhashed⟩ := hbelow
          exact ⟨below, List.mem_cons_of_mem _ (List.mem_cons_of_mem _ hmem), hhashed⟩
  | case2 rest _ => exact fun tree htree bytes hbytes => .inr ⟨tree, htree, hbytes⟩

-- The passes come to one tree with the same leaves in the same order.
theorem merkle_loop_tree {fuel : Nat} {trees : List (HashTree Bytes)} {root : Hash} (hne : trees ≠ [])
    (h : get_merkle_root.loop crypto fuel (trees.map (merkleRoot crypto)) = .ok root) :
    ∃ tree, tree.leaves = trees.flatMap HashTree.leaves ∧ merkleRoot crypto tree = root ∧
      ∀ bytes ∈ merkleHashed crypto tree,
        bytes ∈ merkle_inputs.loop crypto fuel (trees.map (merkleRoot crypto)) ∨
          ∃ below ∈ trees, bytes ∈ merkleHashed crypto below := by
  induction fuel generalizing trees with
  | zero =>
      match trees with
      | [] => exact absurd rfl hne
      | [tree] =>
          exact ⟨tree, by simp, Except.ok.inj h, fun bytes hbytes => .inr ⟨tree, List.mem_singleton_self _, hbytes⟩⟩
      | _ :: _ :: _ => cases h
  | succ fuel ih =>
      match trees with
      | [tree] =>
          exact ⟨tree, by simp, Except.ok.inj h, fun bytes hbytes => .inr ⟨tree, List.mem_singleton_self _, hbytes⟩⟩
      | [] => exact absurd rfl hne
      | left :: right :: rest =>
          have hnext : get_merkle_root.loop crypto fuel
              (hash_chunks crypto ((left :: right :: rest).map (merkleRoot crypto))) = .ok root := h
          rw [hash_chunks_roots] at hnext
          have hpaired : pairUp (left :: right :: rest) ≠ [] := List.cons_ne_nil _ _
          obtain ⟨tree, hleaves, hroot, hhashed⟩ := ih hpaired hnext
          refine ⟨tree, hleaves.trans (pairUp_leaves _), hroot, ?_⟩
          intro bytes hbytes
          have hinputs : merkle_inputs.loop crypto (fuel + 1) ((left :: right :: rest).map (merkleRoot crypto)) =
              chunk_inputs ((left :: right :: rest).map (merkleRoot crypto)) ++
                merkle_inputs.loop crypto fuel ((pairUp (left :: right :: rest)).map (merkleRoot crypto)) := by
            rw [← hash_chunks_roots]
            rfl
          rw [hinputs, List.mem_append]
          cases hhashed bytes hbytes with
          | inl hlater => exact .inl (.inr hlater)
          | inr hbelow =>
              obtain ⟨below, hbelow, hbytes⟩ := hbelow
              exact (pairUp_hashed _ below hbelow bytes hbytes).imp_left .inl

-- Every hash is that of the bytes, which are not as long as a pair of hashes.
def OwnHash (crypto : Crypto) (transaction : Transaction) : Prop :=
  ∃ bytes, transaction.serialize = .ok bytes ∧ transaction.hash crypto = .ok (crypto.sha256d bytes) ∧
    bytes.length ≠ 64

theorem merkle_tree_of_root {transactions : List Transaction} {root : Hash} (hne : transactions ≠ [])
    (hown : ∀ transaction ∈ transactions, OwnHash crypto transaction)
    (hroot : calc_merkle_root_hash crypto transactions = .ok root) :
    ∃ tree, List.Forall₂ (fun transaction bytes => transaction.serialize = .ok bytes) transactions tree.leaves ∧
      (∀ bytes ∈ tree.leaves, bytes.length ≠ 64) ∧ merkleRoot crypto tree = root ∧
      merkleHashed crypto tree ⊆ hashed_strings crypto transactions := by
  obtain ⟨strings, hstrings⟩ := collect_ok Transaction.serialize transactions fun transaction ht => by
    obtain ⟨bytes, hbytes, _⟩ := hown transaction ht
    exact ⟨bytes, hbytes⟩
  have hall := collect_eq_ok.mp hstrings
  have hhashes : List.Forall₂ (fun transaction hash => transaction.hash crypto = .ok hash) transactions
      (strings.map crypto.sha256d) := by
    rw [List.forall₂_map_right_iff]
    refine ((List.forall₂_and_left (p := OwnHash crypto) _ _).mpr ⟨hown, hall⟩).imp fun transaction bytes h => ?_
    obtain ⟨⟨own, hown, hhash, _⟩, hbytes⟩ := h
    rw [hhash, Except.ok.inj (hown.symm.trans hbytes)]
  have hroots : (strings.map HashTree.leaf).map (merkleRoot crypto) = strings.map crypto.sha256d := by
    rw [List.map_map]
    rfl
  have hloop : get_merkle_root.loop crypto (strings.map crypto.sha256d).length
      ((strings.map HashTree.leaf).map (merkleRoot crypto)) = .ok root := by
    rw [calc_merkle_root_hash, collect_eq_ok.mpr hhashes] at hroot
    rw [hroots]
    exact hroot
  have hstringsNe : strings.map HashTree.leaf ≠ [] := by
    intro hnil
    rw [List.map_eq_nil_iff.mp hnil] at hall
    exact hne (List.forall₂_nil_right_iff.mp hall)
  obtain ⟨tree, hleaves, htree, hhashed⟩ := merkle_loop_tree hstringsNe hloop
  have hsame : tree.leaves = strings := by
    rw [hleaves, List.flatMap_map]
    exact List.flatMap_singleton' strings
  refine ⟨tree, hsame ▸ hall, ?_, htree, ?_⟩
  · intro bytes hbytes
    rw [hsame] at hbytes
    obtain ⟨transaction, ht, hserialize⟩ := forall₂_mem_left hall.flip hbytes
    obtain ⟨own, hown, _, hlength⟩ := hown transaction ht
    rw [← Except.ok.inj (hown.symm.trans hserialize)]
    exact hlength
  · intro bytes hbytes
    rw [hashed_strings, List.mem_append, filterMap_toOption hall, filterMap_toOption hhashes]
    cases hhashed bytes hbytes with
    | inl hinput =>
        rw [hroots] at hinput
        exact .inr hinput
    | inr hleaf =>
        obtain ⟨below, hbelow, hmem⟩ := hleaf
        obtain ⟨own, hown, rfl⟩ := List.mem_map.mp hbelow
        exact .inl (List.mem_singleton.mp hmem ▸ hown)

-- Equal roots come from equal lists, or from a collision.
theorem merkle_root_commits {first second : List Transaction} {root : Hash} (hfirstNe : first ≠ [])
    (hsecondNe : second ≠ []) (hown : ∀ transaction ∈ first ++ second, OwnHash crypto transaction)
    (hfirst : calc_merkle_root_hash crypto first = .ok root)
    (hsecond : calc_merkle_root_hash crypto second = .ok root) :
    (first.length = second.length ∧
      List.Forall₂ (fun a b => a.serialize = b.serialize) first second) ∨
    Collision crypto.sha256d (hashed_strings crypto first ++ hashed_strings crypto second) := by
  obtain ⟨tree, hleaves, hlength, hroot, hsub⟩ :=
    merkle_tree_of_root hfirstNe (fun t ht => hown t (List.mem_append_left _ ht)) hfirst
  obtain ⟨tree', hleaves', hlength', hroot', hsub'⟩ :=
    merkle_tree_of_root hsecondNe (fun t ht => hown t (List.mem_append_right _ ht)) hsecond
  have hnotPair : ∀ bytes : Bytes, bytes.length ≠ 64 → ∀ a b, id bytes ≠ pairBytes a b := by
    intro bytes hbytes a b heq
    rw [id_eq] at heq
    rw [heq, pairBytes_length] at hbytes
    exact hbytes rfl
  by_cases hcollision : Collision crypto.sha256d (merkleHashed crypto tree ++ merkleHashed crypto tree')
  · right
    apply hcollision.mono
    exact List.append_subset.mpr ⟨List.subset_append_of_subset_left _ hsub,
      List.subset_append_of_subset_right _ hsub'⟩
  · left
    have hsame := leaves_eq_of_root_eq pairBytes_inj tree tree'
      (fun bytes hbytes => hnotPair bytes (hlength bytes hbytes))
      (fun bytes hbytes => hnotPair bytes (hlength' bytes hbytes)) (hroot.trans hroot'.symm) hcollision
    rw [List.map_id, List.map_id] at hsame
    rw [← hsame] at hleaves'
    have hboth : List.Forall₂ (fun a b => a.serialize = b.serialize) first second :=
      forall₂_comp hleaves hleaves'.flip fun a bytes b ha hb => ha.trans hb.symm
    exact ⟨hboth.length_eq, hboth⟩

-- The two transactions of sample_second, against themselves.
theorem merkle_root_commits_sample :
    (sample_second.transactions.length = sample_second.transactions.length ∧
      List.Forall₂ (fun a b => a.serialize = b.serialize) sample_second.transactions sample_second.transactions) ∨
    Collision Crypto.residue.sha256d (hashed_strings .residue sample_second.transactions ++
      hashed_strings .residue sample_second.transactions) := by
  obtain ⟨root, hroot⟩ : ∃ root, calc_merkle_root_hash .residue sample_second.transactions = .ok root :=
    ⟨(calc_merkle_root_hash .residue sample_second.transactions).toOption.getD zero_hash, by decide +kernel⟩
  have hne : sample_second.transactions ≠ [] := by decide +kernel
  have hown : ∀ transaction ∈ sample_second.transactions, transaction.cached_hash = none ∧
      (∃ bytes ∈ transaction.serialize.toOption, bytes.length ≠ 64) := by
    decide +kernel
  refine merkle_root_commits hne hne ?_ hroot hroot
  intro transaction ht
  obtain ⟨huncached, bytes, hbytes, hlength⟩ := hown transaction (by simpa using ht)
  have hserialize := mem_toOption.mp hbytes
  exact ⟨bytes, hserialize, by rw [Transaction.hash, huncached]; simp [hserialize], hlength⟩

end Skepticoin
