import Mathlib.Algebra.BigOperators.Group.Finset.Basic
import Mathlib.Data.Fintype.Basic
import Mathlib.Logic.Relation
import Skepticoin.Lib.Duplex

-- A network in which the nodes hand on what is new to them, over channels that
-- keep the order.
namespace Flood

section Channels

variable {π μ : Type} [DecidableEq π] {port other : π} {flight rest : List (π × μ)} {m : μ}

-- What is on its way to a port, in the order in which it was sent.
def channel (port : π) (flight : List (π × μ)) : List μ :=
  flight.filterMap fun entry => if entry.1 = port then some entry.2 else none

-- The message that has waited longest at a port, and what else is on its way.
def take (port : π) : List (π × μ) → Option (μ × List (π × μ))
  | [] => none
  | entry :: flight =>
    if entry.1 = port then some (entry.2, flight)
    else (take port flight).map fun taken => (taken.1, entry :: taken.2)

@[simp] theorem channel_nil (port : π) : channel port ([] : List (π × μ)) = [] := rfl

theorem channel_append (port : π) (first second : List (π × μ)) :
    channel port (first ++ second) = channel port first ++ channel port second := List.filterMap_append

theorem channel_cons (port : π) (entry : π × μ) (flight : List (π × μ)) :
    channel port (entry :: flight) =
      if entry.1 = port then entry.2 :: channel port flight else channel port flight := by
  by_cases heq : entry.1 = port
  · simp [channel, heq]
  · simp [channel, heq]

-- Messages that are all on their way to one port.
theorem channel_map (port : π) (messages : List μ) (other : π) :
    channel other (messages.map fun m => (port, m)) = if port = other then messages else [] := by
  induction messages with
  | nil => simp
  | cons m messages ih =>
      rw [List.map_cons, channel_cons, ih]
      by_cases heq : port = other
      · simp only [if_pos heq]
      · simp only [if_neg heq]

theorem mem_channel : m ∈ channel port flight ↔ (port, m) ∈ flight := by
  simp only [channel, List.mem_filterMap, Option.ite_none_right_eq_some, Option.some.injEq]
  constructor
  · rintro ⟨⟨_, _⟩, hmem, rfl, rfl⟩
    exact hmem
  · exact fun hmem => ⟨_, hmem, rfl, rfl⟩

theorem take_mem (h : take port flight = some (m, rest)) : ∀ entry ∈ rest, entry ∈ flight := by
  induction flight generalizing rest with
  | nil => cases h
  | cons entry flight ih =>
      rw [take] at h
      by_cases heq : entry.1 = port
      · rw [if_pos heq] at h
        obtain ⟨rfl, rfl⟩ := Prod.mk.inj (Option.some.inj h)
        exact fun _ hmem => List.mem_cons_of_mem _ hmem
      · rw [if_neg heq] at h
        obtain ⟨⟨m', before⟩, htaken, hpair⟩ := Option.map_eq_some_iff.mp h
        obtain ⟨rfl, rfl⟩ := Prod.mk.inj hpair
        exact List.forall_mem_cons.mpr ⟨List.mem_cons_self, fun _ hmem => List.mem_cons_of_mem _ (ih htaken _ hmem)⟩

theorem take_eq_some (h : take port flight = some (m, rest)) :
    channel port flight = m :: channel port rest ∧ (∀ other ≠ port, channel other rest = channel other flight) ∧
      flight.length = rest.length + 1 := by
  induction flight generalizing rest with
  | nil => cases h
  | cons entry flight ih =>
      rw [take] at h
      by_cases heq : entry.1 = port
      · rw [if_pos heq] at h
        obtain ⟨rfl, rfl⟩ := Prod.mk.inj (Option.some.inj h)
        refine ⟨by rw [channel_cons, if_pos heq], fun other hother => ?_, rfl⟩
        rw [channel_cons, if_neg fun hsame => hother (hsame.symm.trans heq)]
      · rw [if_neg heq] at h
        obtain ⟨⟨m', before⟩, htaken, hpair⟩ := Option.map_eq_some_iff.mp h
        obtain ⟨rfl, rfl⟩ := Prod.mk.inj hpair
        obtain ⟨hport, hothers, hlength⟩ := ih htaken
        refine ⟨?_, fun other hother => ?_, by simp only [List.length_cons, hlength]⟩
        · rw [channel_cons, channel_cons, if_neg heq, if_neg heq, hport]
        · rw [channel_cons, channel_cons, hothers other hother]

end Channels

-- Messages that carry items, some of which need others first.
section Order

variable {μ α : Type} (item : μ → Option α) (needs : α → α → Prop)

def Carried (messages : List μ) (x : α) : Prop := ∃ m ∈ messages, item m = some x

-- Whatever an item needs is known when it arrives.
def InOrder : (α → Prop) → List μ → Prop
  | _, [] => True
  | known, m :: messages =>
    ∃ x, item m = some x ∧ (∀ y, needs x y → known y) ∧ InOrder (fun y => known y ∨ y = x) messages

variable {item needs} {known known' : α → Prop} {messages more : List μ}

theorem InOrder.mono (h : InOrder item needs known messages) (hknown : ∀ y, known y → known' y) :
    InOrder item needs known' messages := by
  induction messages generalizing known known' with
  | nil => trivial
  | cons m messages ih =>
      obtain ⟨x, hitem, hneeds, hrest⟩ := h
      exact ⟨x, hitem, fun y hy => hknown y (hneeds y hy), ih hrest fun y hy => hy.imp (hknown y) id⟩

theorem InOrder.of_all (h : ∀ m ∈ messages, ∃ x, item m = some x ∧ ∀ y, needs x y → known y) :
    InOrder item needs known messages := by
  induction messages generalizing known with
  | nil => trivial
  | cons m messages ih =>
      obtain ⟨x, hitem, hneeds⟩ := h m List.mem_cons_self
      refine ⟨x, hitem, hneeds, ih fun m' hm' => ?_⟩
      obtain ⟨x', hitem', hneeds'⟩ := h m' (List.mem_cons_of_mem _ hm')
      exact ⟨x', hitem', fun y hy => .inl (hneeds' y hy)⟩

-- What comes after may rely on what is on its way.
theorem InOrder.append (h : InOrder item needs known messages)
    (hmore : ∀ m ∈ more, ∃ x, item m = some x ∧ ∀ y, needs x y → known y ∨ Carried item messages y) :
    InOrder item needs known (messages ++ more) := by
  induction messages generalizing known with
  | nil =>
      refine InOrder.of_all fun m hm => ?_
      obtain ⟨x, hitem, hneeds⟩ := hmore m hm
      refine ⟨x, hitem, fun y hy => (hneeds y hy).resolve_right ?_⟩
      rintro ⟨_, hmem, _⟩
      exact List.not_mem_nil hmem
  | cons m messages ih =>
      obtain ⟨x, hitem, hneeds, hrest⟩ := h
      refine ⟨x, hitem, hneeds, ih hrest fun m' hm' => ?_⟩
      obtain ⟨x', hitem', hneeds'⟩ := hmore m' hm'
      refine ⟨x', hitem', fun y hy => ?_⟩
      cases hneeds' y hy with
      | inl hknown => exact .inl (.inl hknown)
      | inr hcarried =>
          obtain ⟨m'', hmem, hy'⟩ := hcarried
          cases List.mem_cons.mp hmem with
          | inl hfirst =>
              rw [hfirst, hitem] at hy'
              exact .inl (.inr (Option.some.inj hy').symm)
          | inr hlater => exact .inr ⟨m'', hlater, hy'⟩

end Order

structure Network (ι σ μ : Type) where
  node : ι → σ
  -- each message with the node and the connection where it arrives
  flight : List ((ι × Nat) × μ)

-- How a node takes an item. What is new to it goes out on every link.
structure Takes {σ μ α : Type} (item : μ → Option α) (inv : σ → Prop) (has : σ → α → Prop) (linked : Nat → Prop)
    (cost : σ → Nat) (x : α) (before : σ) (handled : σ × List (Nat × μ)) : Prop where
  good : inv handled.1
  knows : ∀ y, has handled.1 y ↔ has before y ∨ y = x
  sends : ∀ entry ∈ handled.2, linked entry.1 ∧ item entry.2 = some x
  told : ¬has before x → ∀ sock, linked sock → ∃ m, (sock, m) ∈ handled.2
  spends : handled.2.length + cost handled.1 ≤ cost before

-- What the nodes make of a message, in some environment, and what they send on
-- which of their connections; the wires between them; and the law that an item
-- that arrives after all that it needs is taken, wherever a node listens.
structure Flooding (ι ε σ μ α : Type) where
  handle : ε → Nat → μ → σ → σ × List (Nat × μ)
  wire : ι → Nat → Option (ι × Nat)
  item : μ → Option α
  needs : α → α → Prop
  inv : ι → σ → Prop
  has : σ → α → Prop
  linked : ι → Nat → Prop
  listens : ι → Nat → Prop
  cost : ι → σ → Nat
  fits : ε → Prop
  wired : ∀ i sock port, wire i sock = some port → listens port.1 port.2
  takes : ∀ i e sock m s x, inv i s → fits e → listens i sock → item m = some x → (∀ y, needs x y → has s y) →
    Takes item (inv i) has (linked i) (cost i) x s (handle e sock m s)

section Step

variable {ι ε σ μ : Type} [DecidableEq ι]

-- What is sent on a connection without a wire is lost.
def posted (wire : ι → Nat → Option (ι × Nat)) (i : ι) (sent : List (Nat × μ)) : List ((ι × Nat) × μ) :=
  sent.filterMap fun entry => (wire i entry.1).map fun port => (port, entry.2)

def next (wire : ι → Nat → Option (ι × Nat)) (network : Network ι σ μ) (i : ι) (rest : List ((ι × Nat) × μ))
    (handled : σ × List (Nat × μ)) : Network ι σ μ :=
  ⟨Function.update network.node i handled.1, rest ++ posted wire i handled.2⟩

-- The message that has waited longest at some port arrives.
def step (handle : ε → Nat → μ → σ → σ × List (Nat × μ)) (wire : ι → Nat → Option (ι × Nat)) (arrival : (ι × Nat) × ε)
    (network : Network ι σ μ) : Option (Network ι σ μ) :=
  (take arrival.1 network.flight).map fun taken =>
    next wire network arrival.1.1 taken.2 (handle arrival.2 arrival.1.2 taken.1 (network.node arrival.1.1))

end Step

section Flooded

variable {ι ε σ μ α : Type} [DecidableEq ι] {F : Flooding ι ε σ μ α} {network after : Network ι σ μ}
  {arrival : (ι × Nat) × ε} {port other : ι × Nat} {i : ι} {x y : α} {m : μ} {rest : List ((ι × Nat) × μ)}
  {handled : σ × List (Nat × μ)} {sent : List (Nat × μ)}

-- What is bound to be known at a port.
def Due (F : Flooding ι ε σ μ α) (network : Network ι σ μ) (port : ι × Nat) (x : α) : Prop :=
  F.has (network.node port.1) x ∨ Carried F.item (channel port network.flight) x

-- What a node has is due at the other end of each of its links, and everything
-- on its way comes in order.
structure Flooded (F : Flooding ι ε σ μ α) (network : Network ι σ μ) : Prop where
  inv : ∀ i, F.inv i (network.node i)
  ports : ∀ entry ∈ network.flight, F.listens entry.1.1 entry.1.2
  order : ∀ port, InOrder F.item F.needs (F.has (network.node port.1)) (channel port network.flight)
  cover : ∀ i sock port, F.linked i sock → F.wire i sock = some port → ∀ x, F.has (network.node i) x →
    Due F network port x

-- A message with an item that the node takes.
structure Arrives (F : Flooding ι ε σ μ α) (network : Network ι σ μ) (port : ι × Nat) (m : μ)
    (rest : List ((ι × Nat) × μ)) (x : α) (handled : σ × List (Nat × μ)) : Prop where
  taken : take port network.flight = some (m, rest)
  item : F.item m = some x
  needed : ∀ y, F.needs x y → F.has (network.node port.1) y
  order : InOrder F.item F.needs (fun y => F.has (network.node port.1) y ∨ y = x) (channel port rest)
  takes : Takes F.item (F.inv port.1) F.has (F.linked port.1) (F.cost port.1) x (network.node port.1) handled

theorem mem_posted {wire : ι → Nat → Option (ι × Nat)} :
    m ∈ channel port (posted wire i sent) ↔ ∃ sock, (sock, m) ∈ sent ∧ wire i sock = some port := by
  rw [mem_channel, posted, List.mem_filterMap]
  constructor
  · rintro ⟨⟨sock, m'⟩, hmem, hwire⟩
    obtain ⟨port', hport, hpair⟩ := Option.map_eq_some_iff.mp hwire
    obtain ⟨rfl, rfl⟩ := Prod.mk.inj hpair
    exact ⟨sock, hmem, hport⟩
  · rintro ⟨sock, hmem, hwire⟩
    exact ⟨(sock, m), hmem, by rw [hwire, Option.map_some]⟩

theorem Flooded.arrives (h : Flooded F network) (hfits : F.fits arrival.2)
    (hstep : step F.handle F.wire arrival network = some after) :
    ∃ m rest x handled, Arrives F network arrival.1 m rest x handled ∧
      after = next F.wire network arrival.1.1 rest handled := by
  obtain ⟨⟨m, rest⟩, htaken, hafter⟩ := Option.map_eq_some_iff.mp hstep
  have hchannel := (take_eq_some htaken).1
  have hmem : m ∈ channel arrival.1 network.flight := by
    rw [hchannel]
    exact List.mem_cons_self
  have hlistens := h.ports _ (mem_channel.mp hmem)
  have horder := h.order arrival.1
  rw [hchannel] at horder
  obtain ⟨x, hitem, hneeds, hrest⟩ := horder
  exact ⟨m, rest, x, _, ⟨htaken, hitem, hneeds, hrest, F.takes _ _ _ _ _ _ (h.inv _) hfits hlistens hitem hneeds⟩,
    hafter.symm⟩

theorem node_self (wire : ι → Nat → Option (ι × Nat)) (network : Network ι σ μ) (i : ι)
    (rest : List ((ι × Nat) × μ)) (handled : σ × List (Nat × μ)) :
    (next wire network i rest handled).node i = handled.1 := Function.update_self _ _ _

theorem node_other (wire : ι → Nat → Option (ι × Nat)) (network : Network ι σ μ) {i j : ι} (hne : j ≠ i)
    (rest : List ((ι × Nat) × μ)) (handled : σ × List (Nat × μ)) :
    (next wire network i rest handled).node j = network.node j := Function.update_of_ne hne _ _

section Arrives

variable (ha : Arrives F network port m rest x handled)
include ha

theorem Arrives.grows (hy : F.has (network.node i) y) : F.has ((next F.wire network port.1 rest handled).node i) y := by
  by_cases heq : i = port.1
  · subst heq
    rw [node_self]
    exact (ha.takes.knows y).mpr (.inl hy)
  · rw [node_other _ _ heq]
    exact hy

-- What was on its way is still, but for the item that has arrived.
theorem Arrives.carried (hy : Carried F.item (channel other network.flight) y) :
    F.has ((next F.wire network port.1 rest handled).node other.1) y ∨ Carried F.item (channel other rest) y := by
  obtain ⟨hport, hothers, _⟩ := take_eq_some ha.taken
  by_cases heq : other = port
  · subst heq
    rw [hport] at hy
    obtain ⟨m', hmem, hitem⟩ := hy
    cases List.mem_cons.mp hmem with
    | inl hfirst =>
        rw [hfirst, ha.item] at hitem
        rw [node_self]
        exact .inl ((ha.takes.knows y).mpr (.inr (Option.some.inj hitem).symm))
    | inr hlater => exact .inr ⟨m', hlater, hitem⟩
  · rw [hothers other heq]
    exact .inr hy

theorem Arrives.due_rest (hy : Due F network other y) :
    F.has ((next F.wire network port.1 rest handled).node other.1) y ∨ Carried F.item (channel other rest) y := by
  cases hy with
  | inl hknown => exact .inl (ha.grows hknown)
  | inr hcarried => exact ha.carried hcarried

theorem Arrives.due (hy : Due F network other y) : Due F (next F.wire network port.1 rest handled) other y := by
  refine (ha.due_rest hy).imp id ?_
  rintro ⟨m', hmem, hitem⟩
  refine ⟨m', ?_, hitem⟩
  rw [next, channel_append]
  exact List.mem_append_left _ hmem

-- What the node has sent on a link relies on what it had before.
theorem Arrives.flooded (h : Flooded F network) : Flooded F (next F.wire network port.1 rest handled) := by
  obtain ⟨hport, hothers, _⟩ := take_eq_some ha.taken
  refine ⟨fun i => ?_, fun entry hentry => ?_, fun other => ?_, fun i sock other hlinked hwire y hy => ?_⟩
  · by_cases heq : i = port.1
    · subst heq
      rw [node_self]
      exact ha.takes.good
    · rw [node_other _ _ heq]
      exact h.inv i
  · cases List.mem_append.mp hentry with
    | inl hold => exact h.ports entry (take_mem ha.taken entry hold)
    | inr hposted =>
        obtain ⟨sock, _, hwire⟩ := mem_posted.mp (mem_channel.mpr hposted)
        exact F.wired port.1 sock entry.1 hwire
  · have hchannel : channel other (next F.wire network port.1 rest handled).flight =
        channel other rest ++ channel other (posted F.wire port.1 handled.2) := channel_append _ _ _
    rw [hchannel]
    refine InOrder.append ?_ fun m' hm' => ?_
    · by_cases heq : other = port
      · subst heq
        rw [node_self]
        exact ha.order.mono fun y hy => (ha.takes.knows y).mpr hy
      · rw [hothers other heq]
        exact (h.order other).mono fun y hy => ha.grows hy
    · obtain ⟨sock, hsent, hwire⟩ := mem_posted.mp hm'
      obtain ⟨hlinked, hitem⟩ := ha.takes.sends _ hsent
      exact ⟨x, hitem, fun y hy => ha.due_rest (h.cover port.1 sock other hlinked hwire y (ha.needed y hy))⟩
  · by_cases hold : F.has (network.node i) y
    · exact ha.due (h.cover i sock other hlinked hwire y hold)
    · have heq : i = port.1 := by
        by_contra hne
        rw [node_other _ _ hne] at hy
        exact hold hy
      subst heq
      rw [node_self] at hy
      have hnew := ((ha.takes.knows y).mp hy).resolve_left hold
      subst hnew
      obtain ⟨m', hsent⟩ := ha.takes.told hold sock hlinked
      refine .inr ⟨m', ?_, (ha.takes.sends _ hsent).2⟩
      rw [next, channel_append]
      exact List.mem_append_right _ (mem_posted.mpr ⟨sock, hsent, hwire⟩)

end Arrives

-- How many messages may still arrive.
def load [Fintype ι] (F : Flooding ι ε σ μ α) (network : Network ι σ μ) : Nat :=
  network.flight.length + ∑ i, F.cost i (network.node i)

theorem Arrives.load_lt [Fintype ι] (ha : Arrives F network port m rest x handled) :
    load F (next F.wire network port.1 rest handled) < load F network := by
  obtain ⟨_, _, hlength⟩ := take_eq_some ha.taken
  have hposted : (posted F.wire port.1 handled.2).length ≤ handled.2.length := List.length_filterMap_le _ _
  have hcost := ha.takes.spends
  have hsum : ∑ i, F.cost i ((next F.wire network port.1 rest handled).node i) + F.cost port.1 (network.node port.1) =
      ∑ i, F.cost i (network.node i) + F.cost port.1 handled.1 := by
    rw [← Finset.add_sum_erase _ _ (Finset.mem_univ port.1), ← Finset.add_sum_erase _ _ (Finset.mem_univ port.1),
      node_self]
    have hothers : ∑ i ∈ Finset.univ.erase port.1, F.cost i ((next F.wire network port.1 rest handled).node i) =
        ∑ i ∈ Finset.univ.erase port.1, F.cost i (network.node i) := by
      refine Finset.sum_congr rfl fun i hi => ?_
      rw [node_other _ _ (Finset.ne_of_mem_erase hi)]
    rw [hothers]
    omega
  have hflight : (next F.wire network port.1 rest handled).flight.length =
      rest.length + (posted F.wire port.1 handled.2).length := List.length_append
  rw [load, load, hflight]
  omega

section Runs

variable {schedule : List ((ι × Nat) × ε)}

-- What a run does to a network that is flooded.
structure Ran [Fintype ι] (F : Flooding ι ε σ μ α) (network : Network ι σ μ) (arrivals : Nat) (after : Network ι σ μ) :
    Prop where
  flooded : Flooded F after
  due : ∀ port x, Due F network port x → Due F after port x
  load : arrivals + load F after ≤ load F network

theorem Flooded.run [Fintype ι] (h : Flooded F network) (hfits : ∀ arrival ∈ schedule, F.fits arrival.2)
    (hrun : Duplex.run (step F.handle F.wire) schedule network = some after) :
    Ran F network schedule.length after := by
  induction schedule generalizing network with
  | nil =>
      cases hrun
      exact ⟨h, fun _ _ hdue => hdue, (Nat.zero_add _).le⟩
  | cons arrival schedule ih =>
      obtain ⟨middle, hstep, hrest⟩ := Duplex.run_cons_eq_some.mp hrun
      obtain ⟨m, rest, x, handled, ha, rfl⟩ := h.arrives (hfits arrival List.mem_cons_self) hstep
      have hran := ih (ha.flooded h) (fun other hother => hfits other (List.mem_cons_of_mem _ hother)) hrest
      refine ⟨hran.flooded, fun port y hdue => hran.due port y (ha.due hdue), ?_⟩
      have hload := hran.load
      have hlt := ha.load_lt
      rw [List.length_cons]
      omega

-- One node has a link to the other.
def Link (F : Flooding ι ε σ μ α) (i j : ι) : Prop := ∃ sock sock', F.linked i sock ∧ F.wire i sock = some (j, sock')

theorem due_nothing (hflight : network.flight = []) (hdue : Due F network port x) : F.has (network.node port.1) x := by
  refine hdue.resolve_right ?_
  rintro ⟨m, hmem, _⟩
  rw [hflight] at hmem
  cases hmem

-- Once nothing is on its way, what one node has has reached all nodes that there
-- is a way to.
theorem Flooded.reaches (h : Flooded F network) (hflight : network.flight = []) {j : ι}
    (hlinks : Relation.ReflTransGen (Link F) i j) (hx : F.has (network.node i) x) : F.has (network.node j) x := by
  induction hlinks with
  | refl => exact hx
  | tail _ hlink ih =>
      obtain ⟨sock, sock', hlinked, hwire⟩ := hlink
      exact due_nothing hflight (h.cover _ sock _ hlinked hwire x ih)

end Runs

end Flooded

end Flood
