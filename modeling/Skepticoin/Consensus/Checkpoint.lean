import Skepticoin.CoinState.Theorems

namespace Skepticoin

open Guard FMap

-- The blocks that a coinstate has accepted since it was set up with the
-- genesis block, newest first.
inductive Accepted (crypto : Crypto) : List Block → CoinState → Prop
  | zero {coinstate : CoinState} :
    CoinState.zero crypto = .ok coinstate → Accepted crypto [genesis_block crypto] coinstate
  | add {blocks : List Block} {block : Block} {coinstate next : CoinState} (current_timestamp : Nat) :
    Accepted crypto blocks coinstate →
    coinstate.add_block crypto block current_timestamp = .ok next →
    Accepted crypto (block :: blocks) next

-- The block stands one higher than the block that it names as the previous one.
def Fits (coinstate : CoinState) (block : Block) : Prop :=
  ∃ parent, coinstate.block_by_hash.lookup block.previous_block_hash = some parent ∧
    block.height = parent.height + 1

section Heights

variable {crypto : Crypto} {blocks : List Block} {coinstate next : CoinState} {block : Block}
  {current_timestamp : Nat}

theorem fits_of_validate (hvalid : validate_block_in_coinstate crypto block coinstate = .ok ())
    (hheight : MAX_KNOWN_HASH_HEIGHT < block.height) : Fits coinstate block := by
  rw [validate_block_in_coinstate_of_lt hheight] at hvalid
  have hchecks := validate_block_past_checkpoints_eq_ok.mp hvalid
  obtain ⟨_, _, _, _, _, hcoinbase, _⟩ := hchecks
  exact (validate_coinbase_transaction_in_coinstate_eq_ok.mp hcoinbase).1

-- What one accepted block changes: its entry under its hash, and the head if
-- it extends that or stands higher.
theorem add_block_no_validation_head
    (hadd : coinstate.add_block_no_validation crypto block = .ok next) :
    ∃ hash, block.hash crypto = .ok hash ∧
      next.block_by_hash = coinstate.block_by_hash.insert hash block ∧
      (next.current_chain_hash = some hash ∨ next.current_chain_hash = coinstate.current_chain_hash) ∧
      (next.current_chain_hash ≠ coinstate.current_chain_hash →
        coinstate.current_chain_hash = none ∨
        coinstate.current_chain_hash = some block.previous_block_hash ∨
        ∃ head, coinstate.head = .ok head ∧ head.get_total_work < block.get_total_work) := by
  obtain ⟨_, _, hash, _, current, _, _, hhash, _, hcurrent, rfl⟩ :=
    CoinState.add_block_no_validation_eq_ok.mp hadd
  refine ⟨hash, hhash, rfl, ?_⟩
  simp only [CoinState.next_current_chain_hash] at hcurrent
  cases hold : coinstate.current_chain_hash with
  | none =>
      rw [hold] at hcurrent
      have heq : hash = current := Except.ok.inj hcurrent
      exact ⟨.inl (by rw [heq]), fun _ => .inl rfl⟩
  | some c =>
      simp only [hold] at hcurrent
      by_cases hextends : c = block.previous_block_hash
      · rw [if_pos hextends] at hcurrent
        have heq : hash = current := Except.ok.inj hcurrent
        exact ⟨.inl (by rw [heq]), fun _ => .inr (.inl (by rw [hextends]))⟩
      · simp only [if_neg hextends, bind_eq_ok, getItem_eq_ok, pure_eq_ok] at hcurrent
        obtain ⟨head, hhead, hchoice⟩ := hcurrent
        by_cases hmore : block.get_total_work > head.get_total_work
        · rw [if_pos hmore] at hchoice
          have hlookup : coinstate.head = .ok head := by
            rw [CoinState.head, hold]
            exact getItem_eq_ok.mpr hhead
          exact ⟨.inl (by rw [hchoice]), fun _ => .inr (.inr ⟨head, hlookup, hmore⟩)⟩
        · rw [if_neg hmore] at hchoice
          exact ⟨.inr (by rw [hchoice]), fun hne => absurd (by rw [hchoice]) hne⟩

theorem known_hash_of_validate {block : Block}
    (hvalid : validate_block_in_coinstate crypto block coinstate = .ok ())
    (hheight : block.height ≤ MAX_KNOWN_HASH_HEIGHT) :
    ∀ hash ∈ known_hash block.height, block.hash crypto = .ok hash := by
  intro hash hknown
  rw [validate_block_in_coinstate, if_pos hheight, Option.mem_def.mp hknown] at hvalid
  simp only [bind_eq_ok, raiseIf_eq_ok, not_not] at hvalid
  obtain ⟨_, hhash, rfl⟩ := hvalid
  exact hhash

theorem Accepted.known (hrun : Accepted crypto blocks coinstate) : ∀ h block,
    coinstate.block_by_hash.lookup h = some block → block ∈ blocks ∧ block.hash crypto = .ok h := by
  induction hrun with
  | zero hzero =>
      rw [CoinState.zero_eq] at hzero
      obtain ⟨hash, hhash, hblocks, _⟩ := add_block_no_validation_head hzero
      intro h block hlookup
      rw [hblocks] at hlookup
      cases lookup_insert_eq_some.mp hlookup with
      | inl hnew =>
          obtain ⟨rfl, rfl⟩ := hnew
          exact ⟨List.mem_singleton_self _, hhash⟩
      | inr hold => cases hold.2
  | @add blocks new coinstate next _ _ hadd ih =>
      obtain ⟨_, _, hadd⟩ := CoinState.add_block_eq_ok.mp hadd
      obtain ⟨hash, hhash, hblocks, _⟩ := add_block_no_validation_head hadd
      intro h block hlookup
      rw [hblocks] at hlookup
      cases lookup_insert_eq_some.mp hlookup with
      | inl hnew =>
          obtain ⟨rfl, rfl⟩ := hnew
          exact ⟨List.mem_cons_self, hhash⟩
      | inr hkept =>
          have hold := ih h block hkept.2
          exact ⟨List.mem_cons_of_mem _ hold.1, hold.2⟩

theorem Accepted.head_known (hrun : Accepted crypto blocks coinstate) : ∃ c head,
    coinstate.current_chain_hash = some c ∧ coinstate.block_by_hash.lookup c = some head := by
  induction hrun with
  | zero hzero =>
      rw [CoinState.zero_eq] at hzero
      obtain ⟨_, _, hash, _, current, _, _, _, _, hcurrent, rfl⟩ :=
        CoinState.add_block_no_validation_eq_ok.mp hzero
      have heq : hash = current := Except.ok.inj hcurrent
      exact ⟨hash, genesis_block crypto, by rw [heq], Finmap.lookup_insert _⟩
  | @add blocks new coinstate next _ _ hadd ih =>
      obtain ⟨_, _, hadd⟩ := CoinState.add_block_eq_ok.mp hadd
      obtain ⟨hash, _, hblocks, hcurrent, _⟩ := add_block_no_validation_head hadd
      obtain ⟨c, head, hc, hhead⟩ := ih
      rw [hblocks]
      cases hcurrent with
      | inl hnew => exact ⟨hash, new, hnew, Finmap.lookup_insert _⟩
      | inr hkept =>
          by_cases heq : c = hash
          · exact ⟨c, new, hkept.trans hc, by rw [heq, Finmap.lookup_insert]⟩
          · exact ⟨c, head, hkept.trans hc, by rw [lookup_insert_eq_ite, if_neg heq, hhead]⟩

-- No two of the blocks have one hash at different heights.
def HashFixesHeight (crypto : Crypto) (blocks : List Block) : Prop :=
  ∀ a ∈ blocks, ∀ b ∈ blocks, ∀ h, a.hash crypto = .ok h → b.hash crypto = .ok h → a.height = b.height

theorem Accepted.fits (hrun : Accepted crypto blocks coinstate) (hequal : HashFixesHeight crypto blocks) :
    ∀ h block, coinstate.block_by_hash.lookup h = some block →
      MAX_KNOWN_HASH_HEIGHT < block.height → Fits coinstate block := by
  induction hrun with
  | zero hzero =>
      intro h block hlookup hheight
      have hmem := ((Accepted.zero hzero).known h block hlookup).1
      have hblock := List.mem_singleton.mp hmem
      have hgenesis : (genesis_block crypto).height = 0 := rfl
      rw [hblock, hgenesis] at hheight
      omega
  | @add blocks new coinstate next _ hrun hadd ih =>
      obtain ⟨_, hvalid, hadd⟩ := CoinState.add_block_eq_ok.mp hadd
      obtain ⟨hash, hhash, hblocks, _⟩ := add_block_no_validation_head hadd
      have hold := ih fun a ha b hb => hequal a (List.mem_cons_of_mem _ ha) b (List.mem_cons_of_mem _ hb)
      -- the new block may take the place of a parent, but not at another height
      have hkept : ∀ block, Fits coinstate block → Fits next block := by
        intro block hfits
        obtain ⟨parent, hparent, hheight⟩ := hfits
        by_cases heq : block.previous_block_hash = hash
        · have hknown := hrun.known _ parent hparent
          have hsame : parent.height = new.height :=
            hequal parent (List.mem_cons_of_mem _ hknown.1) new List.mem_cons_self hash
              (by rw [hknown.2, heq]) hhash
          exact ⟨new, by rw [hblocks, heq, Finmap.lookup_insert], by omega⟩
        · exact ⟨parent, by rw [hblocks, lookup_insert_eq_ite, if_neg heq, hparent], hheight⟩
      intro h block hlookup hheight
      rw [hblocks] at hlookup
      cases lookup_insert_eq_some.mp hlookup with
      | inl hnew => exact hkept _ (fits_of_validate (hnew.2 ▸ hvalid) hheight)
      | inr hother => exact hkept _ (hold h block hother.2 hheight)

-- Above the last checkpoint every block stands one higher than its parent, and
-- a head gives way only to a block of more work. Up to there, the shortcut asks
-- for the known hash at the heights that have one.
theorem heights_fit_past_checkpoints (hrun : Accepted crypto blocks coinstate) :
    (HashFixesHeight crypto blocks → ∀ h block, coinstate.block_by_hash.lookup h = some block →
      MAX_KNOWN_HASH_HEIGHT < block.height → Fits coinstate block) ∧
    ∀ block current_timestamp next, coinstate.add_block crypto block current_timestamp = .ok next →
      (MAX_KNOWN_HASH_HEIGHT < block.height →
        Fits coinstate block ∧
        (next.current_chain_hash ≠ coinstate.current_chain_hash → next.head = .ok block ∧
          ∃ head, coinstate.head = .ok head ∧ head.get_total_work < block.get_total_work)) ∧
      (block.height ≤ MAX_KNOWN_HASH_HEIGHT →
        ∀ hash ∈ known_hash block.height, block.hash crypto = .ok hash) := by
  refine ⟨hrun.fits, fun block current_timestamp next hadd => ?_⟩
  obtain ⟨_, hvalid, hadd⟩ := CoinState.add_block_eq_ok.mp hadd
  constructor
  · intro hheight
    have hfits := fits_of_validate hvalid hheight
    refine ⟨hfits, fun hreplaced => ?_⟩
    obtain ⟨hash, _, hblocks, hcurrent, hwork⟩ := add_block_no_validation_head hadd
    have hnew : next.current_chain_hash = some hash := hcurrent.resolve_right hreplaced
    have hhead : next.head = .ok block := by
      rw [CoinState.head, hnew, hblocks]
      exact getItem_eq_ok.mpr (Finmap.lookup_insert _)
    refine ⟨hhead, ?_⟩
    rcases hwork hreplaced with hnone | hextends | hmore
    · obtain ⟨c, _, hc, _⟩ := hrun.head_known
      rw [hnone] at hc
      cases hc
    · obtain ⟨parent, hparent, hone⟩ := hfits
      have hlookup : coinstate.head = .ok parent := by
        rw [CoinState.head, hextends]
        exact getItem_eq_ok.mpr hparent
      have hless : parent.get_total_work < block.get_total_work := by
        unfold Block.get_total_work
        omega
      exact ⟨parent, hlookup, hless⟩
    · exact hmore
  · exact known_hash_of_validate hvalid

-- What was accepted up to the last checkpoint has the known hash, where its
-- height has one.
theorem Accepted.known_hashes (hrun : Accepted crypto blocks coinstate) : ∀ block ∈ blocks,
    block ≠ genesis_block crypto → block.height ≤ MAX_KNOWN_HASH_HEIGHT →
      ∀ hash ∈ known_hash block.height, block.hash crypto = .ok hash := by
  induction hrun with
  | zero _ =>
      intro block hmem hne
      exact absurd (List.mem_singleton.mp hmem) hne
  | add _ _ hadd ih =>
      intro block hmem hne hheight hash hknown
      cases List.mem_cons.mp hmem with
      | inr hold => exact ih block hold hne hheight hash hknown
      | inl hnew =>
          obtain ⟨_, hvalid, _⟩ := CoinState.add_block_eq_ok.mp hadd
          rw [hnew] at hheight hknown ⊢
          exact known_hash_of_validate hvalid hheight hash hknown

-- The blocks below a hash, along the previous block hashes.
inductive Ancestor (coinstate : CoinState) : Hash → Hash → Prop
  | refl {h : Hash} {block : Block} :
    coinstate.block_by_hash.lookup h = some block → Ancestor coinstate h h
  | step {a h : Hash} {block : Block} :
    coinstate.block_by_hash.lookup h = some block → Ancestor coinstate a block.previous_block_hash →
    Ancestor coinstate a h

theorem max_known_hash : ∃ hash, known_hash MAX_KNOWN_HASH_HEIGHT = some hash := by
  rw [max_known_hash_height_eq, ← Option.isSome_iff_exists]
  decide +kernel

-- Every history that leads above the last checkpoint goes through it: heights
-- go down one by one from there, and at its height only its hash was accepted.
theorem checkpoint_below (hrun : Accepted crypto blocks coinstate) (hequal : HashFixesHeight crypto blocks) :
    ∀ h block, coinstate.block_by_hash.lookup h = some block → MAX_KNOWN_HASH_HEIGHT < block.height →
      ∃ hash, known_hash MAX_KNOWN_HASH_HEIGHT = some hash ∧ Ancestor coinstate hash h := by
  obtain ⟨hash, hhash⟩ := max_known_hash
  intro h block
  generalize hn : block.height = n
  induction n using Nat.strong_induction_on generalizing h block with
  | _ n ih =>
      intro hlookup hheight
      obtain ⟨parent, hparent, hone⟩ := hrun.fits hequal h block hlookup (hn ▸ hheight)
      by_cases hlast : MAX_KNOWN_HASH_HEIGHT < parent.height
      · obtain ⟨hash', hhash', hancestor⟩ := ih parent.height (by omega) _ parent rfl hparent hlast
        exact ⟨hash', hhash', .step hlookup hancestor⟩
      · have hsame : parent.height = MAX_KNOWN_HASH_HEIGHT := by omega
        obtain ⟨hmem, hown⟩ := hrun.known _ parent hparent
        have hne : parent ≠ genesis_block crypto := by
          intro heq
          have hzero : (genesis_block crypto).height = 0 := rfl
          rw [heq, hzero, max_known_hash_height_eq] at hsame
          omega
        have hcheckpoint := hrun.known_hashes parent hmem hne (by omega) hash (by rw [hsame]; exact hhash)
        have heq : block.previous_block_hash = hash := Except.ok.inj (hown.symm.trans hcheckpoint)
        refine ⟨hash, hhash, .step hlookup ?_⟩
        rw [heq] at hparent ⊢
        exact .refl hparent

end Heights

-- A block that fits together by itself, whatever height it claims and wherever
-- it is attached.
def claimedBlock (height : Nat) (previous : Hash) : Block :=
  let coinbase := (construct_coinbase_transaction height [] ∅ [] ⟨.ofNat 64 7⟩).toOption.getD
    genesis_transaction
  { header := {
      summary := {
        height
        previous_block_hash := previous
        merkle_root_hash := (calc_merkle_root_hash .residue [coinbase]).toOption.getD zero_hash
        timestamp := genesis_header.summary.timestamp + height
        target := .ofNat 32 (2 ^ 256 - 1)
        nonce := 0 }
      pow_evidence := {
        summary_hash := zero_hash
        chain_sample := to_bytes CHAIN_SAMPLE_TOTAL_SIZE 0
        block_hash := zero_hash } }
    transactions := [coinbase] }

def zeroCoinstate : CoinState := (CoinState.zero .residue).toOption.getD .empty

def highBlock : Block :=
  claimedBlock 7 (((genesis_block .residue).hash .residue).toOption.getD zero_hash)

def highCoinstate : CoinState :=
  (zeroCoinstate.add_block_no_validation .residue highBlock).toOption.getD .empty

def lowBlock : Block := claimedBlock 3 ((highBlock.hash .residue).toOption.getD zero_hash)

def lowCoinstate : CoinState :=
  (highCoinstate.add_block_no_validation .residue lowBlock).toOption.getD .empty

theorem high_runs : CoinState.zero .residue = .ok zeroCoinstate ∧
    zeroCoinstate.add_block .residue highBlock 1615757200 = .ok highCoinstate ∧
    highCoinstate.add_block .residue lowBlock 1615757200 = .ok lowCoinstate ∧
    highCoinstate.head = .ok highBlock ∧ lowCoinstate.head = .ok lowBlock ∧
    highCoinstate.block_by_hash.lookup highBlock.previous_block_hash = some (genesis_block .residue) ∧
    lowCoinstate.block_by_hash.lookup lowBlock.previous_block_hash = some highBlock ∧
    highCoinstate.current_chain_hash = some lowBlock.previous_block_hash ∧
    (genesis_block .residue).height = 0 ∧ highBlock.height = 7 ∧ lowBlock.height = 3 := by
  decide +kernel

-- Between the checkpoints a block may claim to stand seven heights above its
-- parent, and the next one to stand lower again and still become the head.
theorem shortcut_attaches_any_height :
    (∃ h, Accepted .residue [highBlock, genesis_block .residue] highCoinstate ∧
      highCoinstate.block_by_hash.lookup h = some highBlock ∧ ¬ Fits highCoinstate highBlock) ∧
    Accepted .residue [lowBlock, highBlock, genesis_block .residue] lowCoinstate ∧
      highCoinstate.head = .ok highBlock ∧ lowCoinstate.head = .ok lowBlock ∧
      lowBlock.get_total_work < highBlock.get_total_work ∧ ¬ Fits lowCoinstate lowBlock := by
  obtain ⟨hzero, hhigh, hlow, hhead, hhead', hparent, hparent', hcurrent, h0, h7, h3⟩ := high_runs
  have haccepted : Accepted .residue [highBlock, genesis_block .residue] highCoinstate :=
    .add 1615757200 (.zero hzero) hhigh
  have hlookup : highCoinstate.block_by_hash.lookup lowBlock.previous_block_hash = some highBlock := by
    rw [CoinState.head, hcurrent] at hhead
    exact getItem_eq_ok.mp hhead
  refine ⟨⟨_, haccepted, hlookup, ?_⟩, .add 1615757200 haccepted hlow, hhead, hhead', ?_, ?_⟩
  · intro hfits
    obtain ⟨parent, hknown, hone⟩ := hfits
    rw [hparent] at hknown
    have hsame := Option.some.inj hknown
    rw [← hsame] at hone
    omega
  · unfold Block.get_total_work
    omega
  · intro hfits
    obtain ⟨parent, hknown, hone⟩ := hfits
    rw [hparent'] at hknown
    have hsame := Option.some.inj hknown
    rw [← hsame] at hone
    omega

-- A block with the known hash of the last checkpoint, as far as the hash of its
-- header is chosen to be that, and a block mined on top of it.
def checkpointBlock : Block :=
  claimedBlock 163000 (((genesis_block .residue).hash .residue).toOption.getD zero_hash)

def checkpointCrypto : Crypto :=
  { Crypto.residue with
    sha256d bytes :=
      if checkpointBlock.header.serialize = .ok bytes then (known_hash 163000).getD zero_hash
      else Crypto.residue.sha256d bytes }

def checkpointCoinstate : CoinState :=
  ((CoinState.zero checkpointCrypto).toOption.getD .empty
    |>.add_block_no_validation checkpointCrypto checkpointBlock).toOption.getD .empty

def pastBlock : Block :=
  (construct_block_for_mining checkpointCrypto checkpointCoinstate [] ⟨.ofNat 64 7⟩
    (1 + checkpointBlock.timestamp) [] 0).toOption.getD checkpointBlock

def pastCoinstate : CoinState :=
  (checkpointCoinstate.add_block_no_validation checkpointCrypto pastBlock).toOption.getD .empty

theorem past_accepted :
    Accepted checkpointCrypto [pastBlock, checkpointBlock, genesis_block checkpointCrypto] pastCoinstate ∧
      HashFixesHeight checkpointCrypto [pastBlock, checkpointBlock, genesis_block checkpointCrypto] ∧
      pastBlock.height = 163001 ∧
      ∃ h, pastCoinstate.block_by_hash.lookup h = some pastBlock := by
  have hruns : CoinState.zero checkpointCrypto = .ok ((CoinState.zero checkpointCrypto).toOption.getD .empty) ∧
      ((CoinState.zero checkpointCrypto).toOption.getD .empty).add_block checkpointCrypto checkpointBlock
        1615920200 = .ok checkpointCoinstate ∧
      checkpointCoinstate.add_block checkpointCrypto pastBlock 1615920200 = .ok pastCoinstate ∧
      pastCoinstate.head = .ok pastBlock ∧ pastBlock.height = 163001 ∧
      ∀ a ∈ [pastBlock, checkpointBlock, genesis_block checkpointCrypto],
        ∀ b ∈ [pastBlock, checkpointBlock, genesis_block checkpointCrypto],
          a.hash checkpointCrypto = b.hash checkpointCrypto → a.height = b.height := by
    decide +kernel
  obtain ⟨hzero, hcheckpoint, hpast, hhead, hheight, hdistinct⟩ := hruns
  have hrun : Accepted checkpointCrypto [pastBlock, checkpointBlock, genesis_block checkpointCrypto]
      pastCoinstate := .add 1615920200 (.add 1615920200 (.zero hzero) hcheckpoint) hpast
  obtain ⟨c, head, hc, hlookup⟩ := hrun.head_known
  have hhead' : pastCoinstate.head = .ok head := by
    rw [CoinState.head, hc]
    exact getItem_eq_ok.mpr hlookup
  have hblock : pastBlock = head := Except.ok.inj (hhead.symm.trans hhead')
  exact ⟨hrun, fun a ha b hb h h1 h2 => hdistinct a ha b hb (h1.trans h2.symm), hheight,
    c, hblock ▸ hlookup⟩

theorem past_height : MAX_KNOWN_HASH_HEIGHT < pastBlock.height := by
  obtain ⟨_, _, hheight, _⟩ := past_accepted
  rw [max_known_hash_height_eq, hheight]
  decide

theorem heights_fit_past_checkpoints_past : ∃ h block,
    pastCoinstate.block_by_hash.lookup h = some block ∧ block.height = 163001 ∧
      Fits pastCoinstate block := by
  obtain ⟨hrun, hequal, hheight, h, hlookup⟩ := past_accepted
  exact ⟨h, pastBlock, hlookup, hheight,
    (heights_fit_past_checkpoints hrun).1 hequal h pastBlock hlookup past_height⟩

theorem checkpoint_below_past : ∃ h hash, pastCoinstate.block_by_hash.lookup h = some pastBlock ∧
    known_hash MAX_KNOWN_HASH_HEIGHT = some hash ∧ Ancestor pastCoinstate hash h := by
  obtain ⟨hrun, hequal, _, h, hlookup⟩ := past_accepted
  obtain ⟨hash, hhash, hancestor⟩ := checkpoint_below hrun hequal h pastBlock hlookup past_height
  exact ⟨h, hash, hlookup, hhash, hancestor⟩

end Skepticoin
