import Skepticoin.Lib.Run
import Skepticoin.Mining.LostUpdate
import Skepticoin.Mining.Template
import Skepticoin.Networking.Node.Named

namespace Skepticoin

open Guard FMap Effect

namespace MinerWatcher

-- The watcher, and for each miner that is at work the coinstate that its
-- template was built on.
structure Session where
  watcher : MinerWatcher
  templates : Map Nat CoinState

section Sessions

variable (crypto : Crypto)

-- A request that raises leaves the miner without a template, and an output
-- uses the template up.
def Session.open_templates (s : Session) (result : Py Unit) : Event → Map Nat CoinState
  | .block_received _ => s.templates
  | .request_scrypt_input _ miner_id _ =>
    match result with
    | .ok () => s.templates.insert miner_id s.watcher.node.chain_manager.coinstate
    | .error _ => s.templates.erase miner_id
  | .scrypt_output _ _ miner_id _ => s.templates.erase miner_id

def Session.step (s : Session) (event : Event) : Session where
  watcher := (event.action crypto s.watcher).2
  templates := s.open_templates (event.action crypto s.watcher).1 event

-- The miner's output, whenever it comes, finds the parent of its template, and
-- the evidence is that of the template on its own coinstate.
def Finishes (watcher : MinerWatcher) (built_on : CoinState) (miner_id : Nat) : Prop :=
  ∃ summary current_height transactions,
    getItem watcher.mining_args miner_id = .ok (summary, current_height, transactions) ∧
    summary.previous_block_hash ∈ watcher.coinstate.block_by_height_by_hash ∧
    ∀ summary_hash, construct_summary_hash crypto summary current_height = .ok summary_hash →
      construct_pow_evidence_after_scrypt crypto summary_hash watcher.coinstate summary current_height transactions =
        construct_pow_evidence crypto built_on summary current_height transactions

def Session.AllFinish (s : Session) : Prop :=
  ∀ miner_id built_on, s.templates.lookup miner_id = some built_on → Finishes crypto s.watcher built_on miner_id

-- The parent of the miner's template, if it has one, is in the coinstate.
def Session.ParentIn (s : Session) (coinstate : CoinState) (miner_id : Nat) : Prop :=
  ∀ built_on summary current_height transactions, s.templates.lookup miner_id = some built_on →
    getItem s.watcher.mining_args miner_id = .ok (summary, current_height, transactions) →
    summary.previous_block_hash ∈ coinstate.block_by_height_by_hash

-- A request finds the parents of the other miners' templates in the coinstate
-- that it makes the watcher's own.
def Session.KeepsParents (s : Session) : Event → Prop
  | .block_received _ => True
  | .request_scrypt_input _ miner_id _ =>
    ∀ other, other ≠ miner_id → s.ParentIn s.watcher.node.chain_manager.coinstate other
  | .scrypt_output _ _ _ _ => True

-- The blocks that are taken or mined are the ones that their hashes name.
def Session.BringsNamed (names : Hash → Block) (s : Session) : Event → Prop
  | .block_received received =>
    ∀ h next, Node.Taken crypto s.watcher.node received h next → Named names h received.block
  | .request_scrypt_input _ _ _ => True
  | .scrypt_output current_timestamp _ miner_id summary_hash => ∀ block h next,
    Completes crypto s.watcher current_timestamp miner_id summary_hash block h next → Named names h block

end Sessions

section Handlers

variable {crypto : Crypto} {watcher : MinerWatcher} {current_timestamp miner_id : Nat}
  {next_public_key : SECP256k1PublicKey} {summary_hash : Hash}

-- An output that does not complete a block leaves everything as it was.
theorem output_cases (crypto : Crypto) (watcher : MinerWatcher) (current_timestamp miner_id : Nat)
    (next_public_key : SECP256k1PublicKey) (summary_hash : Hash) :
    let after := (handle_scrypt_output_message crypto current_timestamp next_public_key miner_id summary_hash watcher).2
    after = watcher ∨ ∃ block, Mined crypto current_timestamp block watcher after ∧
      ∀ next, watcher.coinstate.add_block crypto block current_timestamp = .ok next →
        ∃ h, Completes crypto watcher current_timestamp miner_id summary_hash block h next := by
  unfold handle_scrypt_output_message
  rw [bind_run_ok (read_run watcher)]
  cases hargs : getItem watcher.mining_args miner_id with
  | error e =>
      rw [bind_run_error (raw_run _ _)]
      exact .inl rfl
  | ok args =>
      obtain ⟨summary, current_height, transactions⟩ := args
      rw [bind_run_ok (raw_run _ _)]
      cases hevidence : construct_pow_evidence_after_scrypt crypto summary_hash watcher.coinstate summary
          current_height transactions with
      | error e =>
          simp only [hevidence]
          rw [bind_run_error (raw_run _ _)]
          exact .inl rfl
      | ok evidence =>
          simp only [hevidence]
          rw [bind_run_ok (raw_run _ _)]
          cases hhash : Block.hash crypto ⟨⟨summary, evidence⟩, transactions, none⟩ with
          | error e =>
              rw [bind_run_error (raw_run _ _)]
              exact .inl rfl
          | ok h =>
              rw [bind_run_ok (raw_run _ _)]
              by_cases hsolved : h.1 < summary.target.1
              · rw [if_pos hsolved]
                refine .inr ⟨_, keep_mined_block_mined crypto current_timestamp next_public_key watcher _, ?_⟩
                intro next hadd
                exact ⟨h, ⟨⟨current_height, hargs, hevidence⟩, rfl, hhash, hsolved, hadd⟩⟩
              · rw [if_neg hsolved]
                exact .inl rfl

-- An output whose parent is gone raises at the first slice of the chain sample.
theorem output_raises {summary : BlockSummary} {current_height : Nat} {transactions : List Transaction}
    (hargs : getItem watcher.mining_args miner_id = .ok (summary, current_height, transactions))
    (hheight : current_height ≠ 0)
    (hgone : summary.previous_block_hash ∉ watcher.coinstate.block_by_height_by_hash) :
    handle_scrypt_output_message crypto current_timestamp next_public_key miner_id summary_hash watcher =
      (.error .KeyError, watcher) := by
  have hblock : ∀ height, get_block_by_height watcher.coinstate summary.previous_block_hash height =
      .error .KeyError := by
    intro height
    rw [get_block_by_height, getItem, find, Finmap.lookup_eq_none.mpr hgone]
    rfl
  have hslice : select_slice_from_chain summary_hash current_height
      (get_block_by_height watcher.coinstate summary.previous_block_hash) CHAIN_SAMPLE_SIZE = .error .KeyError := by
    rw [select_slice_from_chain, select_block_height, raiseIf, if_neg hheight]
    simp only [hblock]
    rfl
  have hevidence : construct_pow_evidence_after_scrypt crypto summary_hash watcher.coinstate summary current_height
      transactions = .error .KeyError := by
    rw [construct_pow_evidence_after_scrypt, if_neg hheight, CHAIN_SAMPLE_COUNT, select_n_k_length_slices_from_chain,
      hslice]
    rfl
  unfold handle_scrypt_output_message
  rw [bind_run_ok (read_run watcher), hargs, bind_run_ok (raw_run _ _)]
  simp only [hevidence]
  exact bind_run_error (raw_run _ _)

end Handlers

section Runs

variable {crypto : Crypto} {names : Hash → Block} {s : Session}

theorem template_parent {coinstate : CoinState} (hbuilt : Built crypto names coinstate)
    {transactions all : List Transaction} {key : SECP256k1PublicKey} {timestamp nonce height : Nat}
    {random_data : Bytes} {summary : BlockSummary}
    (htemplate : construct_block_pow_evidence_input crypto coinstate transactions key timestamp random_data nonce =
      .ok (summary, height, all)) :
    summary.previous_block_hash ≠ zero_hash ∧
      summary.previous_block_hash ∈ coinstate.block_by_height_by_hash := by
  obtain ⟨current, head, _, _, hcurrent, hhead, _, _, _, _, hprevious, _⟩ :=
    construct_block_pow_evidence_input_eq_ok htemplate
  obtain ⟨current', hmem, hcurrent'⟩ := hbuilt.branched.current
  obtain rfl := Option.some.inj (hcurrent.symm.trans hcurrent')
  rw [hprevious]
  refine ⟨?_, hmem⟩
  intro hzero
  exact hbuilt.branched.rooted (hzero ▸ Finmap.mem_of_lookup_eq_some hhead)

-- What holds along a run: every coinstate has been built from named blocks, and
-- a template names the parent it was built on.
structure Session.Sound (crypto : Crypto) (names : Hash → Block) (s : Session) : Prop where
  network : Built crypto names s.watcher.node.chain_manager.coinstate
  last : ∀ last, s.watcher.node.chain_manager.last_known_valid_coinstate = some last → Built crypto names last
  own : Built crypto names s.watcher.coinstate
  args : ∀ miner_id summary current_height transactions,
    getItem s.watcher.mining_args miner_id = .ok (summary, current_height, transactions) →
    summary.previous_block_hash ≠ zero_hash
  templates : ∀ miner_id built_on, s.templates.lookup miner_id = some built_on →
    Built crypto names built_on ∧ ∃ summary current_height transactions,
      getItem s.watcher.mining_args miner_id = .ok (summary, current_height, transactions) ∧
      summary.previous_block_hash ∈ built_on.block_by_height_by_hash

-- Where the parent is found the evidence is right as well.
theorem Session.Sound.all_finish_iff (hsound : s.Sound crypto names) :
    s.AllFinish crypto ↔ ∀ miner_id, s.ParentIn s.watcher.coinstate miner_id := by
  constructor
  · intro hfinish miner_id built_on summary current_height transactions htemplate hargs
    obtain ⟨_, _, _, hargs', hmem, _⟩ := hfinish miner_id built_on htemplate
    obtain ⟨rfl, _⟩ := Prod.mk.inj (Except.ok.inj (hargs.symm.trans hargs'))
    exact hmem
  · intro hparents miner_id built_on htemplate
    obtain ⟨hbuilt, summary, current_height, transactions, hargs, hmem⟩ :=
      hsound.templates miner_id built_on htemplate
    have hmem' := hparents miner_id built_on summary current_height transactions htemplate hargs
    refine ⟨summary, current_height, transactions, hargs, hmem', fun summary_hash hsummary => ?_⟩
    rw [construct_pow_evidence, hsummary]
    exact hsound.own.evidence_eq hbuilt hmem' hmem summary_hash current_height transactions

theorem Session.Sound.received {received : Received} (hsound : s.Sound crypto names)
    (hbrings : s.BringsNamed crypto names (.block_received received)) :
    (s.step crypto (.block_received received)).Sound crypto names := by
  have hnext : ∀ h next, Node.Passes crypto s.watcher.node received h next ∨
      Node.Skips crypto s.watcher.node received h next → Built crypto names next := by
    intro h next hcase
    have htaken : Node.Taken crypto s.watcher.node received h next :=
      hcase.elim (fun hpasses => hpasses.toTaken) fun hskips => hskips.toTaken
    exact htaken.built hsound.network (hbrings h next htaken)
  obtain ⟨hnetwork, hlast⟩ :=
    (Node.handle_block_received_cases crypto s.watcher.node received).keeps hsound.network hsound.last hnext
  exact ⟨hnetwork, hlast, hsound.own, hsound.args, hsound.templates⟩

-- A request that raises takes the coinstate over and no more.
theorem step_request_error {current_timestamp miner_id nonce : Nat} {e : PyError}
    (hrequest : handle_request_scrypt_input_message crypto current_timestamp miner_id nonce s.watcher =
      (.error e, { s.watcher with coinstate := s.watcher.node.chain_manager.coinstate })) :
    s.step crypto (.request_scrypt_input current_timestamp miner_id nonce) = {
      watcher := { s.watcher with coinstate := s.watcher.node.chain_manager.coinstate }
      templates := s.templates.erase miner_id } := by
  rw [Session.step, Event.action, hrequest, Session.open_templates]

theorem step_request_ok {current_timestamp miner_id nonce : Nat} {after : MinerWatcher}
    (hrequest : handle_request_scrypt_input_message crypto current_timestamp miner_id nonce s.watcher =
      (.ok (), after)) :
    s.step crypto (.request_scrypt_input current_timestamp miner_id nonce) = {
      watcher := after
      templates := s.templates.insert miner_id s.watcher.node.chain_manager.coinstate } := by
  rw [Session.step, Event.action, hrequest, Session.open_templates]

theorem Session.Sound.requested (hsound : s.Sound crypto names) (current_timestamp miner_id nonce : Nat) :
    (s.step crypto (.request_scrypt_input current_timestamp miner_id nonce)).Sound crypto names := by
  cases request_cases crypto s.watcher current_timestamp miner_id nonce with
  | inl herror =>
      obtain ⟨e, hrequest⟩ := herror
      rw [step_request_error hrequest]
      refine ⟨hsound.network, hsound.last, hsound.network, hsound.args, ?_⟩
      intro other built_on htemplate
      rw [lookup_erase_eq_ite] at htemplate
      split_ifs at htemplate
      exact hsound.templates other built_on htemplate
  | inr hok =>
      obtain ⟨_, summary, current_height, transactions, _, _, htemplate, hrequest⟩ := hok
      obtain ⟨hne, hmem⟩ := template_parent hsound.network htemplate
      rw [step_request_ok hrequest]
      refine ⟨hsound.network, hsound.last, hsound.network, ?_, ?_⟩
      · intro other summary' current_height' transactions' hargs
        rw [getItem_insert] at hargs
        split_ifs at hargs
        · obtain ⟨rfl, _⟩ := Prod.mk.inj (Except.ok.inj hargs)
          exact hne
        · exact hsound.args other _ _ _ hargs
      · intro other built_on hbuilt_on
        simp only [getItem_insert]
        rw [lookup_insert_eq_ite] at hbuilt_on
        split_ifs at hbuilt_on ⊢
        · rw [← Option.some.inj hbuilt_on]
          exact ⟨hsound.network, summary, current_height, transactions, rfl, hmem⟩
        · exact hsound.templates other built_on hbuilt_on

theorem Session.Sound.parents_requested (hsound : s.Sound crypto names) (current_timestamp miner_id nonce : Nat) :
    (∀ other, (s.step crypto (.request_scrypt_input current_timestamp miner_id nonce)).ParentIn
      (s.step crypto (.request_scrypt_input current_timestamp miner_id nonce)).watcher.coinstate other) ↔
      s.KeepsParents (.request_scrypt_input current_timestamp miner_id nonce) := by
  unfold Session.KeepsParents
  cases request_cases crypto s.watcher current_timestamp miner_id nonce with
  | inl herror =>
      obtain ⟨e, hrequest⟩ := herror
      rw [step_request_error hrequest]
      unfold Session.ParentIn
      simp only [lookup_erase_eq_ite]
      constructor
      · intro hall other hother built_on summary current_height transactions hbuilt_on
        exact hall other built_on summary current_height transactions (by rw [if_neg hother, hbuilt_on])
      · intro hothers other built_on summary current_height transactions hbuilt_on
        split_ifs at hbuilt_on with hother
        exact hothers other hother built_on summary current_height transactions hbuilt_on
  | inr hok =>
      obtain ⟨_, summary, current_height, transactions, _, _, htemplate, hrequest⟩ := hok
      obtain ⟨_, hmem⟩ := template_parent hsound.network htemplate
      rw [step_request_ok hrequest]
      unfold Session.ParentIn
      simp only [lookup_insert_eq_ite, getItem_insert]
      constructor
      · intro hall other hother built_on summary' current_height' transactions' hbuilt_on hargs
        apply hall other built_on summary' current_height' transactions'
        · rw [if_neg hother, hbuilt_on]
        · rw [if_neg hother, hargs]
      · intro hothers other built_on summary' current_height' transactions' hbuilt_on hargs
        split_ifs at hbuilt_on hargs with hother
        · obtain ⟨rfl, _⟩ := Prod.mk.inj (Except.ok.inj hargs)
          exact hmem
        · exact hothers other hother built_on summary' current_height' transactions' hbuilt_on hargs

theorem Session.Sound.mined {current_timestamp miner_id : Nat} {summary_hash h : Hash} {block : Block}
    {next : CoinState} (hsound : s.Sound crypto names)
    (hcompletes : Completes crypto s.watcher current_timestamp miner_id summary_hash block h next)
    (hnamed : Named names h block) :
    Built crypto names next ∧ ∀ k ∈ s.watcher.coinstate.block_by_height_by_hash, k ∈ next.block_by_height_by_hash := by
  obtain ⟨current_height, hargs, _⟩ := hcompletes.evidence
  have hne : block.previous_block_hash ≠ zero_hash := hsound.args _ _ _ _ hargs
  obtain ⟨_, _, hadd⟩ := CoinState.add_block_eq_ok.mp hcompletes.accepted
  exact ⟨.add hsound.own hne hcompletes.hash hnamed hadd, fun k => Built.index_mono hne hcompletes.hash hadd⟩

theorem Session.Sound.output {current_timestamp miner_id : Nat} {next_public_key : SECP256k1PublicKey}
    {summary_hash : Hash} (hsound : s.Sound crypto names)
    (hbrings : s.BringsNamed crypto names (.scrypt_output current_timestamp next_public_key miner_id summary_hash)) :
    (s.step crypto (.scrypt_output current_timestamp next_public_key miner_id summary_hash)).Sound crypto names := by
  have htemplates : ∀ other built_on, (s.templates.erase miner_id).lookup other = some built_on →
      s.templates.lookup other = some built_on := by
    intro other built_on htemplate
    rw [lookup_erase_eq_ite] at htemplate
    split_ifs at htemplate
    exact htemplate
  unfold Session.step Event.action Session.open_templates
  cases output_cases crypto s.watcher current_timestamp miner_id next_public_key summary_hash with
  | inl hsame =>
      rw [hsame]
      exact ⟨hsound.network, hsound.last, hsound.own, hsound.args,
        fun other built_on htemplate => hsound.templates other built_on (htemplates other built_on htemplate)⟩
  | inr hmined =>
      obtain ⟨block, ⟨hargs, hnetwork, hlast, hown⟩, hcompletes⟩ := hmined
      refine ⟨hnetwork ▸ hsound.own, ?_, ?_, ?_, ?_⟩
      · intro last hsome
        cases hlast with
        | inl hkept => exact hsound.last last (hkept ▸ hsome)
        | inr hset =>
            rw [← Option.some.inj (hset.symm.trans hsome)]
            exact hsound.own
      · cases hown with
        | inl hkept => exact hkept ▸ hsound.own
        | inr hadd =>
            obtain ⟨h, hcompletes⟩ := hcompletes _ hadd
            exact (hsound.mined hcompletes (hbrings block h _ hcompletes)).1
      · simp only [hargs]
        exact hsound.args
      · intro other built_on htemplate
        simp only [hargs]
        exact hsound.templates other built_on (htemplates other built_on htemplate)

theorem Session.Sound.parents_output {current_timestamp miner_id : Nat} {next_public_key : SECP256k1PublicKey}
    {summary_hash : Hash} (hsound : s.Sound crypto names)
    (hbrings : s.BringsNamed crypto names (.scrypt_output current_timestamp next_public_key miner_id summary_hash))
    (hparents : ∀ other, s.ParentIn s.watcher.coinstate other) (other : Nat) :
    (s.step crypto (.scrypt_output current_timestamp next_public_key miner_id summary_hash)).ParentIn
      (s.step crypto (.scrypt_output current_timestamp next_public_key miner_id summary_hash)).watcher.coinstate
      other := by
  intro built_on summary current_height transactions htemplate
  have hbefore : s.templates.lookup other = some built_on := by
    simp only [Session.step, Session.open_templates, lookup_erase_eq_ite] at htemplate
    split_ifs at htemplate
    exact htemplate
  unfold Session.step Event.action
  cases output_cases crypto s.watcher current_timestamp miner_id next_public_key summary_hash with
  | inl hsame =>
      rw [hsame]
      exact hparents other built_on summary current_height transactions hbefore
  | inr hmined =>
      obtain ⟨block, ⟨hargs, _, _, hown⟩, hcompletes⟩ := hmined
      simp only [hargs]
      intro hitem
      have hmem := hparents other built_on summary current_height transactions hbefore hitem
      cases hown with
      | inl hkept => exact hkept ▸ hmem
      | inr hadd =>
          obtain ⟨h, hcompletes⟩ := hcompletes _ hadd
          exact (hsound.mined hcompletes (hbrings block h _ hcompletes)).2 _ hmem

theorem Session.Sound.stepped (hsound : s.Sound crypto names) {event : Event}
    (hbrings : s.BringsNamed crypto names event) : (s.step crypto event).Sound crypto names := by
  cases event with
  | block_received received => exact hsound.received hbrings
  | request_scrypt_input current_timestamp miner_id nonce => exact hsound.requested current_timestamp miner_id nonce
  | scrypt_output current_timestamp next_public_key miner_id summary_hash => exact hsound.output hbrings

theorem Session.Sound.all_finish_stepped (hsound : s.Sound crypto names) {event : Event}
    (hbrings : s.BringsNamed crypto names event) (hfinish : s.AllFinish crypto) :
    (s.step crypto event).AllFinish crypto ↔ s.KeepsParents event := by
  rw [(hsound.stepped hbrings).all_finish_iff]
  have hparents := hsound.all_finish_iff.mp hfinish
  cases event with
  | block_received received => exact ⟨fun _ => trivial, fun _ => hparents⟩
  | request_scrypt_input current_timestamp miner_id nonce =>
      exact hsound.parents_requested current_timestamp miner_id nonce
  | scrypt_output current_timestamp next_public_key miner_id summary_hash =>
      exact ⟨fun _ => trivial, fun _ => hsound.parents_output hbrings hparents⟩

-- The watcher of a session is the one that the handlers lead to.
theorem session_watcher (s : Session) (events : List Event) :
    (Run.after (Session.step crypto) s events).watcher = run crypto s.watcher events := by
  induction events generalizing s with
  | nil => rfl
  | cons event events ih => exact ih (s.step crypto event)

-- At every moment of a run all the miners at work can finish just when every
-- request has kept the parents of the other templates.
theorem evidence_matches_template_iff {start : MinerWatcher}
    (hnetwork : Built crypto names start.node.chain_manager.coinstate)
    (hlast : ∀ last, start.node.chain_manager.last_known_valid_coinstate = some last → Built crypto names last)
    (hown : Built crypto names start.coinstate) (hargs : start.mining_args = ∅) {events : List Event}
    (hbrings : Run.Each (Session.step crypto) (Session.BringsNamed crypto names) ⟨start, ∅⟩ events) :
    Run.Throughout (Session.step crypto) (Session.AllFinish crypto) ⟨start, ∅⟩ events ↔
      Run.Each (Session.step crypto) Session.KeepsParents ⟨start, ∅⟩ events := by
  have hsound : Session.Sound crypto names ⟨start, ∅⟩ := by
    refine ⟨hnetwork, hlast, hown, ?_, ?_⟩
    · intro miner_id _ _ _ hlookup
      rw [hargs, getItem_eq_ok] at hlookup
      cases hlookup
    · intro miner_id built_on hlookup
      cases hlookup
  have hfinish : Session.AllFinish crypto ⟨start, ∅⟩ := by
    intro miner_id built_on hlookup
    cases hlookup
  apply hbrings.throughout_iff (Session.Sound crypto names) _ _ hsound hfinish
  · exact fun s event hs hbrings _ => hs.stepped hbrings
  · exact fun s event hs hbrings hfinish => hs.all_finish_stepped hbrings hfinish

end Runs

-- A miner starts on a block that has not been validated yet. Another one asks
-- at once, or after that block has been rolled back.
section RolledBack

def unvalidatedEvents : List Event :=
  [.block_received (Node.sent 1 Node.topBlock), .request_scrypt_input (1 + Node.topBlock.timestamp) 0 0]

def secondRequest : Event := .request_scrypt_input (1 + Node.topBlock.timestamp) 1 0

def wrongBlock : Block := claimedBlock 163005 topHash

def rolledBackEvents : List Event := unvalidatedEvents ++ [.block_received (Node.sent 0 wrongBlock), secondRequest]

def pastBlocks : List Block := [genesis_block checkpointCrypto, checkpointBlock, pastBlock, Node.topBlock]

def hashOf (block : Block) : Hash := (block.hash checkpointCrypto).toOption.getD zero_hash

def pastNames (h : Hash) : Block := (pastBlocks.find? fun block => hashOf block = h).getD Node.topBlock

theorem past_named : ∀ block ∈ pastBlocks, block.hash checkpointCrypto = .ok (hashOf block) ∧
    Named pastNames (hashOf block) block := by
  have hnames : ∀ block ∈ pastBlocks, block.hash checkpointCrypto = .ok (hashOf block) ∧ hashOf block ≠ zero_hash ∧
      block.header = (pastNames (hashOf block)).header ∧ block.serialize = (pastNames (hashOf block)).serialize := by
    decide +kernel
  intro block hmem
  obtain ⟨hhash, hne, hheader, hbytes⟩ := hnames block hmem
  exact ⟨hhash, hne, hheader, hbytes⟩

theorem past_built : Built checkpointCrypto pastNames pastCoinstate := by
  have hruns : CoinState.zero checkpointCrypto = .ok ((CoinState.zero checkpointCrypto).toOption.getD .empty) ∧
      ((CoinState.zero checkpointCrypto).toOption.getD .empty).add_block_no_validation checkpointCrypto
        checkpointBlock = .ok checkpointCoinstate ∧
      checkpointCoinstate.add_block_no_validation checkpointCrypto pastBlock = .ok pastCoinstate ∧
      checkpointBlock.previous_block_hash ≠ zero_hash ∧ pastBlock.previous_block_hash ≠ zero_hash := by
    decide +kernel
  obtain ⟨hzero, hcheckpoint, hpast, hne, hne'⟩ := hruns
  obtain ⟨hhash, hnamed⟩ := past_named (genesis_block checkpointCrypto) (by simp [pastBlocks])
  obtain ⟨hhash', hnamed'⟩ := past_named checkpointBlock (by simp [pastBlocks])
  obtain ⟨hhash'', hnamed''⟩ := past_named pastBlock (by simp [pastBlocks])
  have hgenesis : (genesis_block checkpointCrypto).previous_block_hash = zero_hash :=
    Block.parent_eq_none.mp CoinState.genesis_parent
  have hroot := Built.root hgenesis hhash hnamed (CoinState.zero_eq.symm.trans hzero)
  exact .add (.add hroot hne hhash' hnamed' hcheckpoint) hne' hhash'' hnamed'' hpast

theorem keeps_parents_of_single {s : Session} {single : Nat} {previous : Hash}
    (hkeys : s.templates.keys = {single})
    (hprevious : (getItem s.watcher.mining_args single).map (fun args => args.1.previous_block_hash) = .ok previous)
    (hmem : previous ∈ s.watcher.node.chain_manager.coinstate.block_by_height_by_hash)
    (current_timestamp miner_id nonce : Nat) :
    s.KeepsParents (.request_scrypt_input current_timestamp miner_id nonce) := by
  intro other _ built_on summary current_height transactions hlookup hargs
  have hother : other ∈ s.templates.keys := Finmap.mem_keys.mpr (Finmap.mem_of_lookup_eq_some hlookup)
  rw [hkeys, Finset.mem_singleton] at hother
  rw [hother] at hargs
  rw [hargs] at hprevious
  have hsame : summary.previous_block_hash = previous := Except.ok.inj hprevious
  rw [hsame]
  exact hmem

theorem unvalidated_keeps_parents :
    (Run.after (Session.step checkpointCrypto) ⟨minedStart, ∅⟩ unvalidatedEvents).KeepsParents secondRequest := by
  have hsession :
      (Run.after (Session.step checkpointCrypto) ⟨minedStart, ∅⟩ unvalidatedEvents).templates.keys = {0} ∧
      (getItem (Run.after (Session.step checkpointCrypto) ⟨minedStart, ∅⟩ unvalidatedEvents).watcher.mining_args 0).map
        (fun args => args.1.previous_block_hash) = .ok topHash ∧
      topHash ∈ (Run.after (Session.step checkpointCrypto) ⟨minedStart, ∅⟩
        unvalidatedEvents).watcher.node.chain_manager.coinstate.block_by_height_by_hash := by
    decide +kernel
  generalize Run.after (Session.step checkpointCrypto) ⟨minedStart, ∅⟩ unvalidatedEvents = s at hsession ⊢
  obtain ⟨hkeys, hprevious, hmem⟩ := hsession
  exact keeps_parents_of_single hkeys hprevious hmem (1 + Node.topBlock.timestamp) 1 0

-- Nothing is rolled back in between, and both miners can finish.
theorem evidence_matches_template_iff_unvalidated :
    Run.Throughout (Session.step checkpointCrypto) (Session.AllFinish checkpointCrypto) ⟨minedStart, ∅⟩
      (unvalidatedEvents ++ [secondRequest]) := by
  have hbrings : Run.Each (Session.step checkpointCrypto) (Session.BringsNamed checkpointCrypto pastNames)
      ⟨minedStart, ∅⟩ (unvalidatedEvents ++ [secondRequest]) := by
    refine ⟨?_, trivial, trivial, trivial⟩
    intro h next htaken
    obtain ⟨hhash, hnamed⟩ := past_named Node.topBlock (by simp [pastBlocks])
    have hown := htaken.hash
    rw [Node.sent_block] at hown ⊢
    obtain rfl : hashOf Node.topBlock = h := Except.ok.inj (hhash.symm.trans hown)
    exact hnamed
  have hmanager : minedStart.node.chain_manager = ⟨pastCoinstate, [], some pastCoinstate⟩ := by simp only [minedStart]
  have hnetwork : Built checkpointCrypto pastNames minedStart.node.chain_manager.coinstate := by
    simp only [hmanager]
    exact past_built
  have hlast : ∀ last, minedStart.node.chain_manager.last_known_valid_coinstate = some last →
      Built checkpointCrypto pastNames last := by
    intro last hsome
    rw [hmanager, Option.some.injEq] at hsome
    exact hsome ▸ past_built
  have hown : Built checkpointCrypto pastNames minedStart.coinstate := by
    rw [show minedStart.coinstate = pastCoinstate by simp only [minedStart]]
    exact past_built
  have hargs : minedStart.mining_args = ∅ := by simp only [minedStart]
  apply (evidence_matches_template_iff hnetwork hlast hown hargs hbrings).mpr
  have hfirst : Run.Each (Session.step checkpointCrypto) Session.KeepsParents ⟨minedStart, ∅⟩ unvalidatedEvents := by
    refine ⟨trivial, ?_, trivial⟩
    intro other _ built_on _ _ _ hlookup
    cases hlookup
  -- with @ the run in the statement stays folded
  exact hfirst.snoc @unvalidated_keeps_parents

-- What follows for a miner whose parent is gone.
theorem cannot_finish {crypto : Crypto} {s : Session} {built_on : CoinState} {miner_id height : Nat} {previous : Hash}
    (htemplate : s.templates.lookup miner_id = some built_on)
    (hargs : (getItem s.watcher.mining_args miner_id).map (fun args => (args.1.previous_block_hash, args.2.1)) =
      .ok (previous, height))
    (hheight : height ≠ 0) (hgone : previous ∉ s.watcher.coinstate.block_by_height_by_hash) :
    ¬s.AllFinish crypto ∧ ∀ current_timestamp next_public_key summary_hash,
      (handle_scrypt_output_message crypto current_timestamp next_public_key miner_id summary_hash s.watcher).1 =
        .error .KeyError := by
  obtain ⟨⟨summary, current_height, transactions⟩, hitem, hsame⟩ := map_eq_ok.mp hargs
  obtain ⟨hprevious, rfl⟩ := Prod.mk.inj hsame
  rw [← hprevious] at hgone
  constructor
  · intro hfinish
    obtain ⟨_, _, _, hitem', hmem, _⟩ := hfinish miner_id built_on htemplate
    obtain ⟨rfl, _⟩ := Prod.mk.inj (Except.ok.inj (hitem.symm.trans hitem'))
    exact hgone hmem
  · intro current_timestamp next_public_key summary_hash
    rw [output_raises hitem hheight hgone]

theorem rolled_back_cannot_finish :
    ¬(Run.after (Session.step checkpointCrypto) ⟨minedStart, ∅⟩ rolledBackEvents).AllFinish checkpointCrypto ∧
    ∀ current_timestamp next_public_key summary_hash,
      (handle_scrypt_output_message checkpointCrypto current_timestamp next_public_key 0 summary_hash
        (Run.after (Session.step checkpointCrypto) ⟨minedStart, ∅⟩ rolledBackEvents).watcher).1 =
          .error .KeyError := by
  have hsession :
      (Run.after (Session.step checkpointCrypto) ⟨minedStart, ∅⟩ rolledBackEvents).templates.lookup 0 =
        some Node.topCoinstate ∧
      (getItem (Run.after (Session.step checkpointCrypto) ⟨minedStart, ∅⟩ rolledBackEvents).watcher.mining_args 0).map
        (fun args => (args.1.previous_block_hash, args.2.1)) = .ok (topHash, 163003) ∧
      topHash ∉ (Run.after (Session.step checkpointCrypto) ⟨minedStart, ∅⟩
        rolledBackEvents).watcher.coinstate.block_by_height_by_hash := by
    decide +kernel
  generalize Run.after (Session.step checkpointCrypto) ⟨minedStart, ∅⟩ rolledBackEvents = s at hsession ⊢
  obtain ⟨htemplate, hargs, hgone⟩ := hsession
  exact cannot_finish htemplate hargs (by decide) hgone

def topTemplate : Py (BlockSummary × Nat × List Transaction) :=
  getItem (run checkpointCrypto minedStart unvalidatedEvents).mining_args 0

-- Whatever the first miner answers raises, though on the coinstate of its
-- template there is evidence for it.
theorem template_parent_rolled_back :
    ¬Run.Throughout (Session.step checkpointCrypto) (Session.AllFinish checkpointCrypto) ⟨minedStart, ∅⟩
      rolledBackEvents ∧
    (∀ current_timestamp next_public_key summary_hash,
      (handle_scrypt_output_message checkpointCrypto current_timestamp next_public_key 0 summary_hash
        (run checkpointCrypto minedStart rolledBackEvents)).1 = .error .KeyError) ∧
    ∃ summary current_height transactions evidence, topTemplate = .ok (summary, current_height, transactions) ∧
      construct_pow_evidence checkpointCrypto Node.topCoinstate summary current_height transactions = .ok evidence := by
  obtain ⟨hfinish, hraises⟩ := rolled_back_cannot_finish
  rw [session_watcher] at hraises
  refine ⟨fun hall => hfinish hall.last, hraises, ?_⟩
  have hevidence : (topTemplate >>= fun template =>
      construct_pow_evidence checkpointCrypto Node.topCoinstate template.1 template.2.1
        template.2.2).toOption.isSome := by
    decide +kernel
  obtain ⟨evidence, hbind⟩ := Option.isSome_iff_exists.mp hevidence
  obtain ⟨⟨summary, current_height, transactions⟩, htemplate, hconstruct⟩ := bind_eq_ok.mp (mem_toOption.mp hbind)
  exact ⟨summary, current_height, transactions, evidence, htemplate, hconstruct⟩

end RolledBack

end MinerWatcher

end Skepticoin
