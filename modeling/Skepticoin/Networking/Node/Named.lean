import Skepticoin.CoinState.Named
import Skepticoin.Networking.Node.Heights

namespace Skepticoin

open Guard FMap Effect

variable {crypto : Crypto} {names : Hash → Block} {coinstate : CoinState} {block : Block} {hash : Hash}

-- The hash of the block names it.
def WellNamed (crypto : Crypto) (names : Hash → Block) (block : Block) : Prop :=
  ∀ h, block.hash crypto = .ok h → Named names h block

theorem Leveled.built (h : Leveled crypto (WellNamed crypto names) coinstate) : Built crypto names coinstate := by
  obtain ⟨entries, hgrown, _, _⟩ := h.grown
  refine built_of_grown hgrown fun k other hmem => ?_
  have hrep := hgrown.represents
  exact h.blocks k other ((hrep.known k other).mpr hmem) k (hrep.hashed k other hmem)

-- What a block that claims too much leads to.
section Gap

-- The branch of a block has nothing right below its own height.
def Gapped (names : Hash → Block) (hash : Hash) : Prop :=
  ∃ bytes, BranchBytes names hash bytes ∧ bytes (names hash).height ≠ none ∧ bytes ((names hash).height - 1) = none

-- The heights between the head and a block on top of it are missing.
theorem gapped_on_head {head : Block} (hconsistent : Consistent crypto coinstate)
    (hbuilt : Built crypto names coinstate)
    (hhead : coinstate.head = .ok head) (hcurrent : coinstate.current_chain_hash = some block.previous_block_hash)
    (hgap : head.height + 1 < block.height) (hnamed : Named names hash block) : Gapped names hash := by
  obtain ⟨index, hchain⟩ := hconsistent.active_chain_of_head hhead
  have hindex : coinstate.block_by_height_by_hash.lookup block.previous_block_hash = some index := by
    have hheights := hchain.by_height
    rw [CoinState.by_height_at_head, hcurrent] at hheights
    exact getItem_eq_ok.mp hheights
  have hne : block.previous_block_hash ≠ zero_hash := by
    have hknown := hbuilt.met.known _ (Finmap.mem_of_lookup_eq_some hindex)
    exact fun heq => hbuilt.branched.rooted (heq ▸ hknown)
  have hbranch := hbuilt.branched.indexed _ index hindex
  rw [hnamed.previous] at hne hbranch
  refine ⟨_, .child hne hbranch, ?_, ?_⟩
  · rw [Function.update_self]
    exact Option.some_ne_none _
  · have hnot : block.height - 1 ∉ index := fun hin => absurd ((hchain.heights _).mp hin) (by omega)
    rw [← hnamed.height, Function.update_of_ne (by omega), index_bytes, Finmap.lookup_eq_none.mpr hnot]
    rfl

theorem recent_heights_first {height : Nat} (h : 0 < height) :
    ∃ rest, get_recent_block_heights height = height :: (height - 1) :: rest := by
  have holdness : List.range 10 ++ (List.range' 4 60).map (fun x => x ^ 2) =
      0 :: 1 :: ((List.range 10).drop 2 ++ (List.range' 4 60).map fun x => x ^ 2) := rfl
  rw [get_recent_block_heights, holdness, List.filterMap_cons, List.filterMap_cons, if_pos (Nat.zero_le _),
    if_pos (show 1 ≤ height from h)]
  exact ⟨_, rfl⟩

-- In whatever coinstate such a block is the head, no request can be made.
theorem Built.request_raises (hbuilt : Built crypto names coinstate)
    (hcurrent : coinstate.current_chain_hash = some hash) (hgapped : Gapped names hash) :
    get_get_blocks_message crypto coinstate = .error .KeyError := by
  obtain ⟨bytes, hbranch, htop, hbelow⟩ := hgapped
  obtain ⟨current, hmem, hsame⟩ := hbuilt.branched.current
  obtain rfl : hash = current := Option.some.inj (hcurrent.symm.trans hsame)
  obtain ⟨index, hindex⟩ := Finmap.mem_iff.mp hmem
  obtain ⟨head, hhead⟩ := Finmap.mem_iff.mp (hbuilt.met.known hash hmem)
  obtain ⟨_, hnamed⟩ := hbuilt.met.named hash head hhead
  obtain rfl := (hbuilt.branched.indexed hash index hindex).unique hbranch
  rw [← hnamed.height] at htop hbelow
  have hpositive : 0 < head.height := by
    refine Nat.pos_of_ne_zero fun hzero => htop ?_
    rw [hzero] at hbelow ⊢
    exact hbelow
  obtain ⟨rest, hrest⟩ := recent_heights_first hpositive
  obtain ⟨own, hown⟩ : ∃ own, index.lookup head.height = some own := by
    rw [index_bytes, ne_eq, Option.map_eq_none_iff] at htop
    exact Option.ne_none_iff_exists'.mp htop
  obtain ⟨own_hash, hhash⟩ := hbuilt.met.hashed hash index hindex head.height own hown
  have hmissing : getItem index (head.height - 1) = .error .KeyError := by
    rw [index_bytes, Option.map_eq_none_iff] at hbelow
    rw [getItem, find, hbelow]
  simp only [get_get_blocks_message, CoinState.head, CoinState.by_height_at_head, hcurrent, getItem_eq_ok.mpr hhead,
    hrest, collect, getItem_eq_ok.mpr hindex, getItem_eq_ok.mpr hown, hhash, hmissing, bind, Except.bind]

end Gap

namespace Node

variable {node : Node} {received : Received} {next : CoinState}

structure OfNamed (crypto : Crypto) (names : Hash → Block) (node : Node) : Prop where
  coinstate : Built crypto names node.chain_manager.coinstate
  last : ∀ last, node.chain_manager.last_known_valid_coinstate = some last → Built crypto names last

theorem OnLevel.of_named (h : OnLevel crypto (WellNamed crypto names) node) : OfNamed crypto names node :=
  ⟨h.coinstate.built, fun last hlast => (h.last last hlast).built⟩

theorem Taken.built (h : Taken crypto node received hash next)
    (hbuilt : Built crypto names node.chain_manager.coinstate) (hnamed : Named names hash received.block) :
    Built crypto names next :=
  .add hbuilt (fun hzero => hbuilt.branched.rooted (hzero ▸ h.parent)) h.hash hnamed h.added

-- A block on top of the head becomes the head.
theorem Taken.on_head (h : Taken crypto node received hash next)
    (hbuilt : Built crypto names node.chain_manager.coinstate)
    (hcurrent : node.chain_manager.coinstate.current_chain_hash = some received.block.previous_block_hash) :
    next.current_chain_hash = some hash := by
  have hne : received.block.previous_block_hash ≠ zero_hash := fun hzero =>
    hbuilt.branched.rooted (hzero ▸ h.parent)
  obtain ⟨current, hnext, hchoice⟩ := (extended_of_add h.hash hne h.added).current _ hcurrent
  cases hchoice with
  | inl hself => rw [hnext, hself]
  | inr hother => exact absurd rfl hother.2

theorem handle_block_received_of_named (hnamed : WellNamed crypto names received.block) :
    Spec (OfNamed crypto names) (handle_block_received crypto received) fun _ => OfNamed crypto names := by
  intro node h
  obtain ⟨hcoinstate, hlast⟩ := (handle_block_received_cases crypto node received).keeps h.coinstate h.last
    fun k next hcase =>
      have htaken : Taken crypto node received k next :=
        hcase.elim (fun hpasses => hpasses.toTaken) fun hskips => hskips.toTaken
      htaken.built h.coinstate (hnamed k htaken.hash)
  exact ⟨hcoinstate, hlast⟩

end Node

end Skepticoin
