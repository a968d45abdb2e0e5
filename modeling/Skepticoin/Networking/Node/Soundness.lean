import Skepticoin.Networking.Node.Vouching

namespace Skepticoin

open Guard FMap Effect

namespace Node

variable {crypto : Crypto} {node start : Node} {received : Received} {before messages : List Received}
  {h : Hash} {block : Block} {S next : CoinState}

def OnCurrentChain (coinstate : CoinState) (h : Hash) : Prop :=
  ∃ current, coinstate.current_chain_hash = some current ∧ Ancestor coinstate h current

def KnownAtStart (start : Node) (h : Hash) : Prop :=
  h ∈ start.chain_manager.coinstate.block_by_hash ∨
    ∃ last, start.chain_manager.last_known_valid_coinstate = some last ∧ h ∈ last.block_by_hash

-- The block passes in the coinstate that it was added to in the run, which
-- holds its ancestors as a later one does.
def PassesWhenAdded (crypto : Crypto) (start : Node) (messages : List Received) (S : CoinState) (h : Hash)
    (block : Block) : Prop :=
  ∃ before received after next, messages = before ++ received :: after ∧ received.block = block ∧
    Taken crypto (run crypto start before) received h next ∧
    (∀ k b, next.block_by_hash.lookup k = some b → S.block_by_hash.lookup k = some b) ∧
    validate_block_in_coinstate crypto block (run crypto start before).chain_manager.coinstate = .ok ()

-- What has been added above the checkpoints and lies on the current chain.
def ValidatedChain (crypto : Crypto) (start : Node) (messages : List Received) (S : CoinState) : Prop :=
  ∀ h block, S.block_by_hash.lookup h = some block → OnCurrentChain S h →
    MAX_KNOWN_HASH_HEIGHT < block.height → ¬KnownAtStart start h →
    PassesWhenAdded crypto start messages S h block

-- A block that is taken without validation would pass it.
def SkipsValid (crypto : Crypto) (node : Node) (received : Received) : Prop :=
  ∀ h next, Skips crypto node received h next → MAX_KNOWN_HASH_HEIGHT < received.block.height →
    validate_block_in_coinstate crypto received.block node.chain_manager.coinstate = .ok ()

-- The same for every block of a coinstate, on whichever branch.
def AllPass (crypto : Crypto) (start : Node) (messages : List Received) (S : CoinState) : Prop :=
  ∀ h block, S.block_by_hash.lookup h = some block → MAX_KNOWN_HASH_HEIGHT < block.height →
    ¬KnownAtStart start h → PassesWhenAdded crypto start messages S h block

theorem PassesWhenAdded.append (hpasses : PassesWhenAdded crypto start before S h block) (received : Received) :
    PassesWhenAdded crypto start (before ++ [received]) S h block := by
  obtain ⟨first, received', after, next, hsplit, hrest⟩ := hpasses
  exact ⟨first, received', after ++ [received], next, by simp [hsplit], hrest⟩

theorem PassesWhenAdded.grow (hpasses : PassesWhenAdded crypto start before S h block)
    (hgrow : ∀ k b, S.block_by_hash.lookup k = some b → next.block_by_hash.lookup k = some b) :
    PassesWhenAdded crypto start before next h block := by
  obtain ⟨first, received, after, added, hsplit, hblock, htaken, hbelow, hvalid⟩ := hpasses
  exact ⟨first, received, after, added, hsplit, hblock, htaken, fun k b hlookup => hgrow k b (hbelow k b hlookup),
    hvalid⟩

theorem AllPass.append (hall : AllPass crypto start before S) (received : Received) :
    AllPass crypto start (before ++ [received]) S :=
  fun h block hlookup hheight hnew => (hall h block hlookup hheight hnew).append received

-- One more block that has been taken, with or without validation.
theorem AllPass.taken (hall : AllPass crypto start before (run crypto start before).chain_manager.coinstate)
    (htaken : Taken crypto (run crypto start before) received h next)
    (hvalid : MAX_KNOWN_HASH_HEIGHT < received.block.height → validate_block_in_coinstate crypto received.block
      (run crypto start before).chain_manager.coinstate = .ok ()) :
    AllPass crypto start (before ++ [received]) next := by
  intro k block hlookup hheight hnew
  cases htaken.lookup.mp hlookup with
  | inl hown =>
      obtain ⟨hk, hblock⟩ := hown
      rw [hblock] at hheight ⊢
      rw [hk]
      exact ⟨before, received, [], next, rfl, rfl, htaken, fun _ _ hb => hb, hvalid hheight⟩
  | inr hold =>
      apply ((hall k block hold hheight hnew).append received).grow
      intro _ _ hb
      exact htaken.lookup.mpr (.inr hb)

-- Both copies of the coinstate hold blocks only that pass.
def Sound (crypto : Crypto) (start : Node) (messages : List Received) (node : Node) : Prop :=
  AllPass crypto start messages node.chain_manager.coinstate ∧
    ∀ last, node.chain_manager.last_known_valid_coinstate = some last → AllPass crypto start messages last

theorem Sound.handled (hsound : Sound crypto start before (run crypto start before))
    (hskips : SkipsValid crypto (run crypto start before) received) {after : Node}
    (hcase : Handled crypto (run crypto start before) received after) :
    Sound crypto start (before ++ [received]) after := by
  obtain ⟨hcurrent, hlast⟩ := hsound
  have hnext : ∀ h next, Passes crypto (run crypto start before) received h next ∨
      Skips crypto (run crypto start before) received h next → AllPass crypto start (before ++ [received]) next := by
    intro h next htaken
    cases htaken with
    | inl hpasses => exact hcurrent.taken hpasses.toTaken fun _ => hpasses.validates
    | inr hskipped => exact hcurrent.taken hskipped.toTaken (hskips h next hskipped)
  exact hcase.keeps (hcurrent.append received) (fun last hsome => (hlast last hsome).append received) hnext

-- In a run that skips the validation of good blocks only, what is taken to be
-- valid is.
theorem validated_chain_of_skips_valid
    (hskips : ∀ before received after, messages = before ++ received :: after →
      SkipsValid crypto (run crypto start before) received) :
    ∀ S, (run crypto start messages).chain_manager.last_known_valid_coinstate = some S →
      ValidatedChain crypto start messages S := by
  have hsound : Sound crypto start messages (run crypto start messages) := by
    apply run_induction (P := Sound crypto start)
    · refine ⟨?_, ?_⟩
      · intro h block hlookup _ hnew
        exact absurd (.inl (Finmap.mem_of_lookup_eq_some hlookup)) hnew
      · intro last hlast h block hlookup _ hnew
        exact absurd (.inr ⟨last, hlast, Finmap.mem_of_lookup_eq_some hlookup⟩) hnew
    · intro before received after hsplit hbefore
      exact hbefore.handled (hskips before received after hsplit) (handle_block_received_cases crypto _ received)
  intro S hlast h block hlookup _ hheight hnew
  exact hsound.2 S hlast h block hlookup hheight hnew

-- A child of the block that would not validate, itself validated against what
-- was computed from that block.
section Unsound

def childBlock : Block :=
  (construct_block_for_mining .residue strayCoinstate [] ⟨.ofNat 64 7⟩ (1 + strayBlock.timestamp) [] 0).toOption.getD
    strayBlock

def unsoundMessages : List Received := [sent 1 strayBlock, sent 0 childBlock]

def childCoinstate : CoinState :=
  (strayCoinstate.add_block_no_validation .residue childBlock).toOption.getD .empty

theorem split_pair {first second : Received} {after : List Received}
    (hsplit : [first, second] = before ++ received :: after) :
    before = [] ∧ received = first ∨ before = [first] ∧ received = second := by
  cases before with
  | nil => exact .inl ⟨rfl, (List.cons.inj hsplit).1.symm⟩
  | cons head tail =>
      obtain ⟨hhead, htail⟩ := List.cons.inj hsplit
      cases tail with
      | nil => exact .inr ⟨by rw [hhead], (List.cons.inj htail).1.symm⟩
      | cons next rest =>
          have hlength := congrArg List.length htail
          simp at hlength

theorem unsound_run :
    (run .residue genesisNode unsoundMessages).chain_manager.last_known_valid_coinstate = some childCoinstate ∧
    childCoinstate.block_by_hash.lookup strayHash = some strayBlock ∧
    childCoinstate.current_chain_hash = some (BlockStore.residueHash childBlock) ∧
    childCoinstate.block_by_hash.lookup (BlockStore.residueHash childBlock) = some childBlock ∧
    childBlock.previous_block_hash = strayHash ∧ strayBlock.height = 163001 ∧ childBlock.height = 163002 ∧
    strayHash ∉ zeroCoinstate.block_by_hash := by
  decide +kernel

theorem genesisNode_manager : genesisNode.chain_manager = ⟨zeroCoinstate, [], some zeroCoinstate⟩ := by
  simp only [genesisNode]

theorem unvalidated_block_trusted :
    genesisNode.chain_manager = ⟨zeroCoinstate, [], some zeroCoinstate⟩ ∧
    ¬∀ S, (run .residue genesisNode unsoundMessages).chain_manager.last_known_valid_coinstate = some S →
      ValidatedChain .residue genesisNode unsoundMessages S := by
  obtain ⟨hlast, hstray, hcurrent, hchild, hprevious, hheight, hheight', hnew⟩ := unsound_run
  refine ⟨genesisNode_manager, ?_⟩
  intro hvalidated
  have hchain : OnCurrentChain childCoinstate strayHash := by
    refine ⟨BlockStore.residueHash childBlock, hcurrent, .step hchild ?_⟩
    rw [hprevious]
    exact .refl hstray
  have hunknown : ¬KnownAtStart genesisNode strayHash := by
    simp only [KnownAtStart, genesisNode_manager, Option.some.injEq, exists_eq_left', or_self]
    exact hnew
  have habove : MAX_KNOWN_HASH_HEIGHT < strayBlock.height := by
    rw [max_known_hash_height_eq, hheight]
    decide
  obtain ⟨before, received, after, next, hsplit, hblock, _, _, hvalid⟩ :=
    hvalidated childCoinstate hlast strayHash strayBlock hstray hchain habove hunknown
  cases split_pair hsplit with
  | inl hfirst =>
      simp only [hfirst.1, run_nil, genesisNode_manager] at hvalid
      exact stray_run.2.2.2 hvalid
  | inr hsecond =>
      rw [hsecond.2, sent_block] at hblock
      rw [hblock] at hheight'
      omega

end Unsound

-- A good block that is taken without validation, and one on top of it.
section Good

def pastNode : Node where
  chain_manager := ⟨checkpointCoinstate, [], some checkpointCoinstate⟩
  block_store := BlockStore.newStore
  broadcast := []

def topBlock : Block :=
  (construct_block_for_mining checkpointCrypto pastCoinstate [] ⟨.ofNat 64 7⟩ (1 + pastBlock.timestamp)
    [] 0).toOption.getD pastBlock

def topCoinstate : CoinState :=
  (pastCoinstate.add_block_no_validation checkpointCrypto topBlock).toOption.getD .empty

theorem validated_chain_of_skips_valid_past :
    (run checkpointCrypto pastNode [sent 1 pastBlock, sent 0 topBlock]).chain_manager.last_known_valid_coinstate =
      some topCoinstate ∧
    ValidatedChain checkpointCrypto pastNode [sent 1 pastBlock, sent 0 topBlock] topCoinstate := by
  have hlast : (run checkpointCrypto pastNode
      [sent 1 pastBlock, sent 0 topBlock]).chain_manager.last_known_valid_coinstate = some topCoinstate := by
    decide +kernel
  have hpast : validate_block_in_coinstate checkpointCrypto pastBlock checkpointCoinstate = .ok () := by
    decide +kernel
  refine ⟨hlast, validated_chain_of_skips_valid ?_ topCoinstate hlast⟩
  intro before received after hsplit h next hskips _
  cases split_pair hsplit with
  | inl hfirst =>
      simp only [hfirst.1, hfirst.2, run_nil, sent_block, pastNode]
      exact hpast
  | inr hsecond =>
      rw [hsecond.2] at hskips
      exact absurd (.inl rfl) hskips.unchecked

end Good

end Node

end Skepticoin
