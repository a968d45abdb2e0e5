import Skepticoin.Consensus.Checkpoint

namespace Skepticoin

open Guard FMap

section Readding

variable (crypto : Crypto)

-- Every entry of the three maps is kept, and a block that is there already
-- changes nothing.
structure Undisturbed (coinstate next : CoinState) (block : Block) : Prop where
  blocks : ∀ h other, coinstate.block_by_hash.lookup h = some other → next.block_by_hash.lookup h = some other
  unspent : ∀ h m, coinstate.unspent_transaction_outs_by_hash.lookup h = some m →
    next.unspent_transaction_outs_by_hash.lookup h = some m
  indexes : ∀ h index, coinstate.block_by_height_by_hash.lookup h = some index →
    next.block_by_height_by_hash.lookup h = some index
  again : ∀ h, block.hash crypto = .ok h → coinstate.block_by_hash.lookup h = some block → next = coinstate

-- A block that is new and names a block, or one that is the end of a chain
-- already and has no more work than the current head.
def Harmless (coinstate : CoinState) (block : Block) : Prop :=
  ∃ h, block.hash crypto = .ok h ∧
    (h ∉ coinstate.block_by_hash ∧ block.previous_block_hash ≠ zero_hash ∨
      coinstate.block_by_hash.lookup h = some block ∧ h ∈ coinstate.heads ∧
        ∀ head, coinstate.head = .ok head → block.get_total_work ≤ head.get_total_work)

inductive HarmlessRun : CoinState → Prop
  | zero {coinstate : CoinState} : CoinState.zero crypto = .ok coinstate → HarmlessRun coinstate
  | add {coinstate next : CoinState} {block : Block} (current_timestamp : Nat) : HarmlessRun coinstate →
      Harmless crypto coinstate block → coinstate.add_block crypto block current_timestamp = .ok next →
      HarmlessRun next

-- What such a run keeps: what stands under a hash is what adding its block
-- again would put there.
structure Settled (coinstate : CoinState) : Prop where
  hashed : ∀ h block, coinstate.block_by_hash.lookup h = some block → block.hash crypto = .ok h
  unspent_known : ∀ h, h ∈ coinstate.unspent_transaction_outs_by_hash ↔ h ∈ coinstate.block_by_hash
  indexes_known : ∀ h, h ∈ coinstate.block_by_height_by_hash ↔ h ∈ coinstate.block_by_hash
  heads_known : ∀ h block, coinstate.heads.lookup h = some block → coinstate.block_by_hash.lookup h = some block
  current : ∃ c ∈ coinstate.heads, coinstate.current_chain_hash = some c
  applied : ∀ h block, coinstate.block_by_hash.lookup h = some block → ∃ before after,
    coinstate.previous_unspent_transaction_outs block = .ok before ∧
    uto_apply_block crypto before block = .ok after ∧
    coinstate.unspent_transaction_outs_by_hash.lookup h = some after
  indexed : ∀ h block, coinstate.block_by_hash.lookup h = some block → block.previous_block_hash ≠ zero_hash →
    ∃ index, coinstate.block_by_height_by_hash.lookup block.previous_block_hash = some index ∧
      coinstate.block_by_height_by_hash.lookup h = some (index.insert block.height block)
  extended : ∀ h block, coinstate.block_by_hash.lookup h = some block → block.previous_block_hash ≠ zero_hash →
    block.previous_block_hash ∉ coinstate.heads
  root : ∀ h block, coinstate.block_by_hash.lookup h = some block → block.previous_block_hash = zero_hash →
    h ∈ coinstate.heads → coinstate.block_by_height_by_hash = Finmap.singleton h (Finmap.singleton 0 block)

end Readding

section Settled

variable {crypto : Crypto} {coinstate next : CoinState} {block : Block} {h : Hash}

theorem settled_zero (hzero : CoinState.zero crypto = .ok coinstate) : Settled crypto coinstate := by
  rw [CoinState.zero_eq] at hzero
  have hroot : (genesis_block crypto).previous_block_hash = zero_hash := rfl
  obtain ⟨before, after, hash, index, current, hbefore, hafter, hhash, hindex, hcurrent, rfl⟩ :=
    CoinState.add_block_no_validation_eq_ok.mp hzero
  rw [CoinState.next_block_by_height_by_hash, if_pos hroot] at hindex
  have hsingle := Except.ok.inj hindex
  have hchosen : hash = current := Except.ok.inj hcurrent
  have herase : (∅ : Map Hash Block).erase (genesis_block crypto).previous_block_hash = ∅ :=
    Finmap.ext_lookup fun k => by simp [lookup_erase_eq_ite]
  simp only [CoinState.empty, herase, insert_empty, ← hsingle, ← hchosen]
  have honly : ∀ k block, (Finmap.singleton hash (genesis_block crypto) : Map Hash Block).lookup k = some block →
      k = hash ∧ genesis_block crypto = block := fun k block => lookup_singleton_eq_some.mp
  refine ⟨?_, fun k => ?_, fun k => ?_, fun k block => id, ⟨hash, ?_, rfl⟩, ?_, ?_, ?_, ?_⟩
  · intro k block hlookup
    obtain ⟨rfl, rfl⟩ := honly k block hlookup
    exact hhash
  · rw [Finmap.mem_singleton, Finmap.mem_singleton]
  · rw [Finmap.mem_singleton, Finmap.mem_singleton]
  · exact (Finmap.mem_singleton _ _ _).mpr rfl
  · intro k block hlookup
    obtain ⟨rfl, rfl⟩ := honly k block hlookup
    refine ⟨before, after, ?_, hafter, Finmap.lookup_singleton_eq⟩
    rw [CoinState.previous_unspent_transaction_outs, if_pos hroot] at hbefore ⊢
    exact hbefore
  · intro k block hlookup hne
    obtain ⟨_, rfl⟩ := honly k block hlookup
    exact absurd hroot hne
  · intro k block hlookup hne
    obtain ⟨_, rfl⟩ := honly k block hlookup
    exact absurd hroot hne
  · intro k block hlookup _ _
    obtain ⟨rfl, rfl⟩ := honly k block hlookup
    rfl

theorem next_current {c hash current : Hash} (hc : coinstate.current_chain_hash = some c)
    (hcurrent : coinstate.next_current_chain_hash hash block = .ok current) :
    current = hash ∨ current = c ∧ c ≠ block.previous_block_hash := by
  simp only [CoinState.next_current_chain_hash, hc] at hcurrent
  by_cases hextends : c = block.previous_block_hash
  · rw [if_pos hextends] at hcurrent
    exact .inl (Except.ok.inj hcurrent).symm
  · simp only [if_neg hextends, bind_eq_ok, pure_eq_ok] at hcurrent
    obtain ⟨head, _, hchoice⟩ := hcurrent
    split_ifs at hchoice
    · exact .inl hchoice.symm
    · exact .inr ⟨hchoice.symm, hextends⟩

theorem next_current_eq {c hash current : Hash} {top : Block} (hc : coinstate.current_chain_hash = some c)
    (htop : coinstate.block_by_hash.lookup c = some top)
    (hcurrent : coinstate.next_current_chain_hash hash block = .ok current) :
    current = if c = block.previous_block_hash ∨ top.get_total_work < block.get_total_work then hash else c := by
  simp only [CoinState.next_current_chain_hash, hc] at hcurrent
  by_cases hextends : c = block.previous_block_hash
  · rw [if_pos hextends] at hcurrent
    rw [if_pos (.inl hextends), Except.ok.inj hcurrent]
  · simp only [if_neg hextends, bind_eq_ok, getItem_eq_ok, htop, Option.some.injEq, exists_eq_left', pure_eq_ok]
      at hcurrent
    rw [← hcurrent]
    simp only [hextends, false_or, gt_iff_lt]

-- What is different after a block that names a block.
structure Extended (crypto : Crypto) (coinstate next : CoinState) (h : Hash) (block : Block) : Prop where
  blocks : next.block_by_hash = coinstate.block_by_hash.insert h block
  heads : next.heads = (coinstate.heads.erase block.previous_block_hash).insert h block
  unspent : ∃ before after, coinstate.previous_unspent_transaction_outs block = .ok before ∧
    uto_apply_block crypto before block = .ok after ∧
    next.unspent_transaction_outs_by_hash = coinstate.unspent_transaction_outs_by_hash.insert h after
  indexes : ∃ below, coinstate.block_by_height_by_hash.lookup block.previous_block_hash = some below ∧
    next.block_by_height_by_hash = coinstate.block_by_height_by_hash.insert h (below.insert block.height block)
  current : ∀ c, coinstate.current_chain_hash = some c → ∃ current, next.current_chain_hash = some current ∧
    (current = h ∨ current = c ∧ c ≠ block.previous_block_hash)

theorem extended_of_add (hhash : block.hash crypto = .ok h) (hne : block.previous_block_hash ≠ zero_hash)
    (hadd : coinstate.add_block_no_validation crypto block = .ok next) : Extended crypto coinstate next h block := by
  obtain ⟨before, after, hash, index, current, hbefore, hafter, hhash', hindex, hcurrent, rfl⟩ :=
    CoinState.add_block_no_validation_eq_ok.mp hadd
  obtain rfl : hash = h := Except.ok.inj (hhash'.symm.trans hhash)
  simp only [CoinState.next_block_by_height_by_hash, if_neg hne, bind_eq_ok, getItem_eq_ok, pure_eq_ok] at hindex
  obtain ⟨below, hbelow, rfl⟩ := hindex
  exact ⟨rfl, rfl, ⟨before, after, hbefore, hafter, rfl⟩, ⟨below, hbelow, rfl⟩,
    fun c hc => ⟨current, rfl, next_current hc hcurrent⟩⟩

section Extended

variable (hsettled : Settled crypto coinstate) (hnew : Extended crypto coinstate next h block)
  (hfresh : h ∉ coinstate.block_by_hash)

include hnew

theorem Extended.block_cases {k : Hash} {other : Block} (hlookup : next.block_by_hash.lookup k = some other) :
    k = h ∧ block = other ∨ k ≠ h ∧ coinstate.block_by_hash.lookup k = some other := by
  rw [hnew.blocks] at hlookup
  exact lookup_insert_eq_some.mp hlookup

include hsettled hfresh

theorem Extended.unspent_kept {k : Hash} {m : UnspentTransactionOuts}
    (hlookup : coinstate.unspent_transaction_outs_by_hash.lookup k = some m) :
    next.unspent_transaction_outs_by_hash.lookup k = some m := by
  obtain ⟨_, _, _, _, hmap⟩ := hnew.unspent
  rw [hmap]
  exact lookup_insert_fresh (fun hin => hfresh ((hsettled.unspent_known h).mp hin)) hlookup

theorem Extended.index_kept {k : Hash} {index : Map Nat Block}
    (hlookup : coinstate.block_by_height_by_hash.lookup k = some index) :
    next.block_by_height_by_hash.lookup k = some index := by
  obtain ⟨_, _, hmap⟩ := hnew.indexes
  rw [hmap]
  exact lookup_insert_fresh (fun hin => hfresh ((hsettled.indexes_known h).mp hin)) hlookup

theorem Extended.previous_unspent_kept {other : Block} {m : UnspentTransactionOuts}
    (hprevious : coinstate.previous_unspent_transaction_outs other = .ok m) :
    next.previous_unspent_transaction_outs other = .ok m := by
  rw [CoinState.previous_unspent_transaction_outs] at hprevious ⊢
  split_ifs at hprevious ⊢
  · exact hprevious
  · exact getItem_eq_ok.mpr (hnew.unspent_kept hsettled hfresh (getItem_eq_ok.mp hprevious))

theorem Extended.undisturbed (hhash : block.hash crypto = .ok h) : Undisturbed crypto coinstate next block := by
  refine ⟨fun k other hlookup => ?_, fun _ _ => hnew.unspent_kept hsettled hfresh,
    fun _ _ => hnew.index_kept hsettled hfresh, fun k hk hlookup => ?_⟩
  · rw [hnew.blocks]
    exact lookup_insert_fresh hfresh hlookup
  · rw [← Except.ok.inj (hhash.symm.trans hk)] at hlookup
    exact absurd (Finmap.mem_of_lookup_eq_some hlookup) hfresh

-- The block that is named is known, and so it is another one.
omit hfresh in
theorem Extended.previous_known : block.previous_block_hash ∈ coinstate.block_by_hash := by
  obtain ⟨below, hbelow, _⟩ := hnew.indexes
  exact (hsettled.indexes_known _).mp (Finmap.mem_of_lookup_eq_some hbelow)

theorem Extended.applied {k : Hash} {other : Block} (hlookup : next.block_by_hash.lookup k = some other) :
    ∃ before after, next.previous_unspent_transaction_outs other = .ok before ∧
      uto_apply_block crypto before other = .ok after ∧
      next.unspent_transaction_outs_by_hash.lookup k = some after := by
  cases hnew.block_cases hlookup with
  | inl hown =>
      obtain ⟨rfl, rfl⟩ := hown
      obtain ⟨before, after, hbefore, hafter, hmap⟩ := hnew.unspent
      refine ⟨before, after, hnew.previous_unspent_kept hsettled hfresh hbefore, hafter, ?_⟩
      rw [hmap]
      exact Finmap.lookup_insert _
  | inr hold =>
      obtain ⟨before, after, hbefore, hafter, hat⟩ := hsettled.applied k other hold.2
      exact ⟨before, after, hnew.previous_unspent_kept hsettled hfresh hbefore, hafter,
        hnew.unspent_kept hsettled hfresh hat⟩

theorem Extended.indexed {k : Hash} {other : Block} (hlookup : next.block_by_hash.lookup k = some other)
    (hparent : other.previous_block_hash ≠ zero_hash) :
    ∃ index, next.block_by_height_by_hash.lookup other.previous_block_hash = some index ∧
      next.block_by_height_by_hash.lookup k = some (index.insert other.height other) := by
  cases hnew.block_cases hlookup with
  | inl hown =>
      obtain ⟨rfl, rfl⟩ := hown
      obtain ⟨below, hbelow, hmap⟩ := hnew.indexes
      refine ⟨below, hnew.index_kept hsettled hfresh hbelow, ?_⟩
      rw [hmap]
      exact Finmap.lookup_insert _
  | inr hold =>
      obtain ⟨index, hbelow, hat⟩ := hsettled.indexed k other hold.2 hparent
      exact ⟨index, hnew.index_kept hsettled hfresh hbelow, hnew.index_kept hsettled hfresh hat⟩

theorem Extended.previous_no_head {k : Hash} {other : Block} (hlookup : next.block_by_hash.lookup k = some other)
    (hparent : other.previous_block_hash ≠ zero_hash) : other.previous_block_hash ∉ next.heads := by
  rw [hnew.heads, Finmap.mem_insert, Finmap.mem_erase, not_or, not_and]
  cases hnew.block_cases hlookup with
  | inl hown =>
      obtain ⟨rfl, rfl⟩ := hown
      have hknown := hnew.previous_known hsettled
      exact ⟨fun heq => hfresh (heq ▸ hknown), fun herased => absurd rfl herased⟩
  | inr hold =>
      obtain ⟨index, hbelow, _⟩ := hsettled.indexed k other hold.2 hparent
      have hknown := (hsettled.indexes_known _).mp (Finmap.mem_of_lookup_eq_some hbelow)
      exact ⟨fun heq => hfresh (heq ▸ hknown), fun _ => hsettled.extended k other hold.2 hparent⟩

-- The root is no head any more: before, it was the only known block.
omit hfresh in
theorem Extended.root_no_head (hne : block.previous_block_hash ≠ zero_hash) {k : Hash} {other : Block}
    (hlookup : next.block_by_hash.lookup k = some other) (hroot : other.previous_block_hash = zero_hash) :
    k ∉ next.heads := by
  intro hhead
  cases hnew.block_cases hlookup with
  | inl hown => exact hne (hown.2 ▸ hroot)
  | inr hold =>
      rw [hnew.heads, Finmap.mem_insert, Finmap.mem_erase] at hhead
      obtain ⟨hother, hbefore⟩ := hhead.resolve_left hold.1
      obtain ⟨below, hbelow, _⟩ := hnew.indexes
      rw [hsettled.root k other hold.2 hroot hbefore] at hbelow
      exact hother (lookup_singleton_eq_some.mp hbelow).1.symm

omit hfresh in
theorem Extended.heads_known {k : Hash} {other : Block} (hlookup : next.heads.lookup k = some other) :
    next.block_by_hash.lookup k = some other := by
  rw [hnew.heads] at hlookup
  rw [hnew.blocks, lookup_insert_eq_some]
  cases lookup_insert_eq_some.mp hlookup with
  | inl hown => exact .inl hown
  | inr hold =>
      obtain ⟨hk, hin⟩ := hold
      rw [lookup_erase_eq_ite] at hin
      split_ifs at hin
      exact .inr ⟨hk, hsettled.heads_known k other hin⟩

omit hfresh in
theorem Extended.current_head : ∃ c ∈ next.heads, next.current_chain_hash = some c := by
  obtain ⟨c, hhead, hc⟩ := hsettled.current
  obtain ⟨current, hcurrent, hchoice⟩ := hnew.current c hc
  refine ⟨current, ?_, hcurrent⟩
  rw [hnew.heads, Finmap.mem_insert, Finmap.mem_erase]
  cases hchoice with
  | inl hown => exact .inl hown
  | inr hsame =>
      obtain ⟨rfl, hother⟩ := hsame
      exact .inr ⟨hother, hhead⟩

theorem Extended.settled (hhash : block.hash crypto = .ok h) (hne : block.previous_block_hash ≠ zero_hash) :
    Settled crypto next := by
  obtain ⟨_, after, _, _, hunspent⟩ := hnew.unspent
  obtain ⟨below, _, hindexes⟩ := hnew.indexes
  refine ⟨fun k other hlookup => ?_, fun k => ?_, fun k => ?_, fun _ _ => hnew.heads_known hsettled,
    hnew.current_head hsettled, fun _ _ => hnew.applied hsettled hfresh, fun _ _ => hnew.indexed hsettled hfresh,
    fun _ _ => hnew.previous_no_head hsettled hfresh, fun k other hlookup hroot hhead => ?_⟩
  · cases hnew.block_cases hlookup with
    | inl hown =>
        obtain ⟨rfl, rfl⟩ := hown
        exact hhash
    | inr hold => exact hsettled.hashed k other hold.2
  · rw [hunspent, hnew.blocks, Finmap.mem_insert, Finmap.mem_insert, hsettled.unspent_known]
  · rw [hindexes, hnew.blocks, Finmap.mem_insert, Finmap.mem_insert, hsettled.indexes_known]
  · exact absurd hhead (hnew.root_no_head hsettled hne hlookup hroot)

end Extended

-- A head names no head, unless it stands under the zero hash itself.
theorem Settled.previous_of_head (hsettled : Settled crypto coinstate)
    (hlookup : coinstate.block_by_hash.lookup h = some block) (hhead : h ∈ coinstate.heads) :
    block.previous_block_hash ∉ coinstate.heads ∨ block.previous_block_hash = h := by
  by_cases hroot : block.previous_block_hash = zero_hash
  · have hsingle := hsettled.root h block hlookup hroot hhead
    by_cases hin : block.previous_block_hash ∈ coinstate.heads
    · obtain ⟨other, hother⟩ := Finmap.mem_iff.mp hin
      have hknown := Finmap.mem_of_lookup_eq_some (hsettled.heads_known _ other hother)
      rw [← hsettled.indexes_known, hsingle, Finmap.mem_singleton] at hknown
      exact .inr hknown
    · exact .inl hin
  · exact .inl (hsettled.extended h block hlookup hroot)

theorem Settled.add_again (hsettled : Settled crypto coinstate) (hhash : block.hash crypto = .ok h)
    (hlookup : coinstate.block_by_hash.lookup h = some block) (hhead : h ∈ coinstate.heads)
    (hwork : ∀ head, coinstate.head = .ok head → block.get_total_work ≤ head.get_total_work)
    (hadd : coinstate.add_block_no_validation crypto block = .ok next) : next = coinstate := by
  obtain ⟨before, after, hash, index, current, hbefore, hafter, hhash', hindex, hcurrent, hnext⟩ :=
    CoinState.add_block_no_validation_eq_ok.mp hadd
  obtain rfl : hash = h := Except.ok.inj (hhash'.symm.trans hhash)
  have hprevious := hsettled.previous_of_head hlookup hhead
  have hunspent : coinstate.unspent_transaction_outs_by_hash.lookup hash = some after := by
    obtain ⟨before', after', hbefore', hafter', hat⟩ := hsettled.applied hash block hlookup
    rw [← Except.ok.inj (hbefore.symm.trans hbefore'), hafter] at hafter'
    rw [hat, Except.ok.inj hafter']
  have hindexes : index = coinstate.block_by_height_by_hash := by
    by_cases hroot : block.previous_block_hash = zero_hash
    · rw [CoinState.next_block_by_height_by_hash, if_pos hroot] at hindex
      rw [hsettled.root hash block hlookup hroot hhead, Except.ok.inj hindex]
    · simp only [CoinState.next_block_by_height_by_hash, if_neg hroot, bind_eq_ok, getItem_eq_ok, pure_eq_ok] at hindex
      obtain ⟨below, hbelow, rfl⟩ := hindex
      obtain ⟨below', hbelow', hat⟩ := hsettled.indexed hash block hlookup hroot
      rw [← Option.some.inj (hbelow.symm.trans hbelow')] at hat
      exact insert_self hat
  have hheads : coinstate.heads.lookup hash = some block := by
    obtain ⟨other, hother⟩ := Finmap.mem_iff.mp hhead
    rw [hother, ← hlookup, hsettled.heads_known hash other hother]
  obtain ⟨c, hchead, hc⟩ := hsettled.current
  obtain ⟨top, htop⟩ := Finmap.mem_iff.mp hchead
  have hctop := hsettled.heads_known c top htop
  have hcurrentSame : current = c := by
    rw [next_current_eq hc hctop hcurrent]
    split_ifs with hmoves
    · cases hmoves with
      | inl hextends =>
          rw [hextends]
          exact (hprevious.resolve_left fun hno => hno (hextends ▸ hchead)).symm
      | inr hmore =>
          have hhead' : coinstate.head = .ok top := by simp [CoinState.head, hc, hctop]
          exact absurd (hwork top hhead') (Nat.not_le.mpr hmore)
    · rfl
  rw [insert_self hlookup, insert_self hunspent, hindexes, insert_erase_self hheads hprevious, hcurrentSame,
    ← hc] at hnext
  exact hnext.symm

theorem Settled.undisturbed_of_harmless (hsettled : Settled crypto coinstate)
    (hharmless : Harmless crypto coinstate block)
    (hadd : coinstate.add_block_no_validation crypto block = .ok next) :
    Settled crypto next ∧ Undisturbed crypto coinstate next block := by
  obtain ⟨h, hhash, hnew | hagain⟩ := hharmless
  · obtain ⟨hfresh, hne⟩ := hnew
    have hnew := extended_of_add hhash hne hadd
    exact ⟨hnew.settled hsettled hfresh hhash hne, hnew.undisturbed hsettled hfresh hhash⟩
  · obtain ⟨hlookup, hhead, hwork⟩ := hagain
    rw [hsettled.add_again hhash hlookup hhead hwork hadd]
    exact ⟨hsettled, fun _ _ hin => hin, fun _ _ hin => hin, fun _ _ hin => hin, fun _ _ _ => rfl⟩

-- A new block without parent starts the index anew, another block of the same
-- hash takes the place of the first, an inner block becomes a head again, and a
-- head with more work becomes the current one.
theorem Settled.harmless_of_undisturbed (hsettled : Settled crypto coinstate)
    (hadd : coinstate.add_block_no_validation crypto block = .ok next)
    (hundisturbed : Undisturbed crypto coinstate next block) : Harmless crypto coinstate block := by
  obtain ⟨before, after, hash, index, current, _, _, hhash, hindex, hcurrent, hnext⟩ :=
    CoinState.add_block_no_validation_eq_ok.mp hadd
  obtain ⟨c, hchead, hc⟩ := hsettled.current
  obtain ⟨top, htop⟩ := Finmap.mem_iff.mp hchead
  have hctop := hsettled.heads_known c top htop
  refine ⟨hash, hhash, ?_⟩
  cases hlookup : coinstate.block_by_hash.lookup hash with
  | none =>
      have hfresh := Finmap.lookup_eq_none.mp hlookup
      refine .inl ⟨hfresh, fun hroot => ?_⟩
      rw [CoinState.next_block_by_height_by_hash, if_pos hroot] at hindex
      have hcin := (hsettled.indexes_known c).mpr (Finmap.mem_of_lookup_eq_some hctop)
      obtain ⟨own, hown⟩ := Finmap.mem_iff.mp hcin
      have hstill := hundisturbed.indexes c own hown
      rw [← hnext, ← Except.ok.inj hindex] at hstill
      rw [(lookup_singleton_eq_some.mp hstill).1] at hctop
      exact hfresh (Finmap.mem_of_lookup_eq_some hctop)
  | some stored =>
      have hstill := hundisturbed.blocks hash stored hlookup
      rw [← hnext, Finmap.lookup_insert] at hstill
      have hsame : block = stored := Option.some.inj hstill
      subst hsame
      have hunchanged := hundisturbed.again hash hhash hlookup
      rw [hunchanged] at hnext
      have hhead : hash ∈ coinstate.heads := by
        rw [← hnext, Finmap.mem_insert]
        exact .inl rfl
      refine .inr ⟨rfl, hhead, fun head hat => ?_⟩
      have htopAt : coinstate.head = .ok top := by simp [CoinState.head, hc, hctop]
      rw [← Except.ok.inj (htopAt.symm.trans hat)]
      by_contra hmore
      have hmoved := next_current_eq hc hctop hcurrent
      rw [if_pos (.inr (Nat.lt_of_not_le hmore))] at hmoved
      have hcurrentAt : coinstate.current_chain_hash = some current := by rw [← hnext]
      rw [hc, hmoved] at hcurrentAt
      rw [Option.some.inj hcurrentAt, hlookup] at hctop
      exact hmore (Nat.le_of_eq (by rw [Option.some.inj hctop]))

theorem HarmlessRun.settled (hrun : HarmlessRun crypto coinstate) : Settled crypto coinstate := by
  induction hrun with
  | zero hzero => exact settled_zero hzero
  | add _ _ hharmless hadd ih =>
      obtain ⟨_, _, hadd⟩ := CoinState.add_block_eq_ok.mp hadd
      exact (ih.undisturbed_of_harmless hharmless hadd).1

end Settled

-- After a run of harmless additions just a harmless one leaves everything that
-- is there as it is.
theorem adding_undisturbed_iff {crypto : Crypto} {coinstate next : CoinState} {block : Block} {current_timestamp : Nat}
    (hrun : HarmlessRun crypto coinstate) (hadd : coinstate.add_block crypto block current_timestamp = .ok next) :
    Undisturbed crypto coinstate next block ↔ Harmless crypto coinstate block := by
  obtain ⟨_, _, hadd⟩ := CoinState.add_block_eq_ok.mp hadd
  constructor
  · exact hrun.settled.harmless_of_undisturbed hadd
  · exact fun hharmless => (hrun.settled.undisturbed_of_harmless hharmless hadd).2

section Samples

def rootBlock : Block := claimedBlock 7 zero_hash

def rootCoinstate : CoinState := (zeroCoinstate.add_block_no_validation .residue rootBlock).toOption.getD .empty

def readdedCoinstate : CoinState := (lowCoinstate.add_block_no_validation .residue highBlock).toOption.getD .empty

-- A block without parent is accepted and drops the index of the genesis block;
-- an inner block is accepted again and is a head beside its child.
theorem adding_disturbs :
    (Accepted .residue [genesis_block .residue] zeroCoinstate ∧
      zeroCoinstate.add_block .residue rootBlock 1615757200 = .ok rootCoinstate ∧
      ∃ h ∈ zeroCoinstate.block_by_height_by_hash, h ∉ rootCoinstate.block_by_height_by_hash) ∧
    Accepted .residue [lowBlock, highBlock, genesis_block .residue] lowCoinstate ∧
      lowCoinstate.add_block .residue highBlock 1615757200 = .ok readdedCoinstate ∧
      (∃ h, lowCoinstate.block_by_hash.lookup h = some highBlock) ∧ readdedCoinstate.heads ≠ lowCoinstate.heads := by
  have hruns : zeroCoinstate.add_block .residue rootBlock 1615757200 = .ok rootCoinstate ∧
      lowCoinstate.add_block .residue highBlock 1615757200 = .ok readdedCoinstate ∧
      (zeroCoinstate.current_chain_hash.getD zero_hash ∈ zeroCoinstate.block_by_height_by_hash ∧
        zeroCoinstate.current_chain_hash.getD zero_hash ∉ rootCoinstate.block_by_height_by_hash) ∧
      lowCoinstate.block_by_hash.lookup lowBlock.previous_block_hash = some highBlock ∧
      readdedCoinstate.heads ≠ lowCoinstate.heads := by
    decide +kernel
  obtain ⟨hzero, hhigh, hlow, _⟩ := high_runs
  obtain ⟨hroot, hagain, hdropped, hknown, hheads⟩ := hruns
  exact ⟨⟨.zero hzero, hroot, zeroCoinstate.current_chain_hash.getD zero_hash, hdropped⟩,
    .add 1615757200 (.add 1615757200 (.zero hzero) hhigh) hlow, hagain,
    ⟨lowBlock.previous_block_hash, hknown⟩, hheads⟩

theorem adding_undisturbed_iff_high : Undisturbed .residue zeroCoinstate highCoinstate highBlock := by
  obtain ⟨hzero, hhigh, _⟩ := high_runs
  have hnew : (highBlock.hash .residue).toOption.getD zero_hash ∉ zeroCoinstate.block_by_hash ∧
      highBlock.hash .residue = .ok ((highBlock.hash .residue).toOption.getD zero_hash) ∧
      highBlock.previous_block_hash ≠ zero_hash := by
    decide +kernel
  exact (adding_undisturbed_iff (.zero hzero) hhigh).mpr ⟨_, hnew.2.1, .inl ⟨hnew.1, hnew.2.2⟩⟩

end Samples

end Skepticoin
