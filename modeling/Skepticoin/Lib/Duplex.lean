import Mathlib.Data.List.Basic

-- Steps that do not get in each other's way, and two parties that answer each
-- other's messages over channels that keep the order.
namespace Duplex

section Schedule

variable {ι σ : Type} (step : ι → σ → Option σ)

-- A schedule says whose step is next; a step may be impossible.
def run : List ι → σ → Option σ
  | [], s => some s
  | i :: schedule, s => (step i s).bind (run schedule)

def Done (s : σ) : Prop := ∀ i, step i s = none

-- Two different steps that are possible both can be taken in either order.
def Commuting : Prop := ∀ i j s a b, i ≠ j → step i s = some a → step j s = some b →
  ∃ c, step j a = some c ∧ step i b = some c

variable {step} {s t u : σ} {i : ι} {schedule : List ι}

theorem run_cons_eq_some : run step (i :: schedule) s = some t ↔
    ∃ a, step i s = some a ∧ run step schedule a = some t := by
  rw [run, Option.bind_eq_some_iff]

theorem run_append (first second : List ι) (s : σ) :
    run step (first ++ second) s = (run step first s).bind (run step second) := by
  induction first generalizing s with
  | nil => rfl
  | cons i first ih =>
      rw [List.cons_append, run, run]
      cases step i s with
      | none => rfl
      | some a => exact ih a

-- What is done at the end of a run has to be done some time, and so it may be
-- done at once.
theorem bring_forward [DecidableEq ι] (hcommuting : Commuting step) (hrun : run step schedule s = some t)
    (hdone : Done step t) (hstep : step i s = some u) :
    ∃ shorter, run step shorter u = some t ∧ shorter.length + 1 = schedule.length := by
  induction schedule generalizing s u with
  | nil =>
      have hnone := hdone i
      rw [← Option.some.inj hrun, hstep] at hnone
      cases hnone
  | cons j schedule ih =>
      obtain ⟨a, hj, hrest⟩ := run_cons_eq_some.mp hrun
      by_cases hij : i = j
      · subst hij
        rw [hstep] at hj
        rw [Option.some.inj hj]
        exact ⟨schedule, hrest, rfl⟩
      · obtain ⟨c, hjc, hic⟩ := hcommuting i j s u a hij hstep hj
        obtain ⟨shorter, hshorter, hlength⟩ := ih hrest hic
        refine ⟨j :: shorter, run_cons_eq_some.mpr ⟨c, hjc, hshorter⟩, ?_⟩
        rw [List.length_cons, List.length_cons, hlength]

-- If one run ends, every run can be led to the same end, in as many steps.
theorem all_runs_end [DecidableEq ι] (hcommuting : Commuting step) (hrun : run step schedule s = some t)
    (hdone : Done step t) {other : List ι} (hother : run step other s = some u) :
    ∃ more, run step more u = some t ∧ other.length + more.length = schedule.length := by
  induction other generalizing s schedule with
  | nil =>
      rw [← Option.some.inj hother]
      exact ⟨schedule, hrun, by rw [List.length_nil, Nat.zero_add]⟩
  | cons i other ih =>
      obtain ⟨a, hi, hrest⟩ := run_cons_eq_some.mp hother
      obtain ⟨shorter, hshorter, hlength⟩ := bring_forward hcommuting hrun hdone hi
      obtain ⟨more, hmore, htotal⟩ := ih hshorter hrest
      refine ⟨more, hmore, ?_⟩
      rw [List.length_cons]
      omega

theorem nothing_more (hdone : Done step s) (hrun : run step schedule s = some t) : schedule = [] := by
  cases schedule with
  | nil => rfl
  | cons i schedule =>
      obtain ⟨a, hi, _⟩ := run_cons_eq_some.mp hrun
      rw [hdone i] at hi
      cases hi

-- A run in which nothing is left to do has come to that end, in as many steps.
theorem run_unique [DecidableEq ι] (hcommuting : Commuting step) (hrun : run step schedule s = some t)
    (hdone : Done step t) {other : List ι} (hother : run step other s = some u) (hstuck : Done step u) :
    u = t ∧ other.length = schedule.length := by
  obtain ⟨more, hmore, hlength⟩ := all_runs_end hcommuting hrun hdone hother
  have hnone := nothing_more hstuck hmore
  subst hnone
  exact ⟨Option.some.inj hmore, hlength⟩

end Schedule

-- What a party makes of a message, and what it answers.
abbrev Party (σ μ ν : Type) := σ → μ → σ × List ν

structure Connection (σ τ μ ν : Type) where
  left : σ
  right : τ
  to_left : List ν
  to_right : List μ

inductive Side where
  | left
  | right
  deriving DecidableEq

section Parties

variable {σ τ μ ν : Type} (left : Party σ ν μ) (right : Party τ μ ν)

-- The party takes the message that has waited longest.
def step : Side → Connection σ τ μ ν → Option (Connection σ τ μ ν)
  | .left, s =>
    match s.to_left with
    | [] => none
    | message :: waiting =>
      let (party, answers) := left s.left message
      some ⟨party, s.right, waiting, s.to_right ++ answers⟩
  | .right, s =>
    match s.to_right with
    | [] => none
    | message :: waiting =>
      let (party, answers) := right s.right message
      some ⟨s.left, party, s.to_left ++ answers, waiting⟩

variable {left right} {s : Connection σ τ μ ν}

theorem step_commuting : Commuting (step left right) := by
  have hboth : ∀ s a b : Connection σ τ μ ν, step left right .left s = some a → step left right .right s = some b →
      ∃ c, step left right .right a = some c ∧ step left right .left b = some c := by
    intro s a b ha hb
    obtain ⟨party, other, to_left, to_right⟩ := s
    cases to_left with
    | nil => cases ha
    | cons message waiting =>
        cases to_right with
        | nil => cases hb
        | cons message' waiting' =>
            rw [← Option.some.inj ha, ← Option.some.inj hb]
            exact ⟨_, rfl, rfl⟩
  intro i j s a b hij ha hb
  cases i with
  | left =>
      cases j with
      | left => exact absurd rfl hij
      | right => exact hboth s a b ha hb
  | right =>
      cases j with
      | left =>
          obtain ⟨c, hc, hc'⟩ := hboth s b a hb ha
          exact ⟨c, hc', hc⟩
      | right => exact absurd rfl hij

theorem done_iff : Done (step left right) s ↔ s.to_left = [] ∧ s.to_right = [] := by
  obtain ⟨party, other, to_left, to_right⟩ := s
  constructor
  · intro hdone
    refine ⟨?_, ?_⟩
    · cases to_left with
      | nil => rfl
      | cons message waiting => cases hdone .left
    · cases to_right with
      | nil => rfl
      | cons message waiting => cases hdone .right
  · rintro ⟨hleft, hright⟩ i
    simp only at hleft hright
    cases i with
    | left => rw [hleft]; rfl
    | right => rw [hright]; rfl

-- What a party answers to some messages, one after another.
def answers (party : Party σ ν μ) : σ → List ν → σ × List μ
  | p, [] => (p, [])
  | p, message :: messages =>
    let (p, first) := party p message
    let (p, rest) := answers party p messages
    (p, first ++ rest)

-- The right party may take all that waits for it.
theorem run_right (p : σ) (q : τ) (to_left : List ν) (to_right : List μ) :
    run (step left right) (List.replicate to_right.length .right) ⟨p, q, to_left, to_right⟩ =
      some ⟨p, (answers right q to_right).1, to_left ++ (answers right q to_right).2, []⟩ := by
  induction to_right generalizing q to_left with
  | nil => rw [answers, List.append_nil]; rfl
  | cons message waiting ih =>
      rw [List.length_cons, List.replicate_succ, run]
      exact (ih (right q message).1 (to_left ++ (right q message).2)).trans (by rw [answers, List.append_assoc])

theorem run_left {p p' : σ} {message : ν} {sent : List μ} (hleft : left p message = (p', sent)) (q : τ)
    (waiting : List ν) (to_right : List μ) (schedule : List Side) :
    run (step left right) (.left :: schedule) ⟨p, q, message :: waiting, to_right⟩ =
      run (step left right) schedule ⟨p', q, waiting, to_right ++ sent⟩ := by
  have hstep : step left right .left ⟨p, q, message :: waiting, to_right⟩ =
      some ⟨(left p message).1, q, waiting, to_right ++ (left p message).2⟩ := rfl
  rw [run, hstep, hleft, Option.bind_some]

-- A turn of the left party: it takes a message, and the right party takes what
-- was answered.
theorem run_turn {p p' : σ} {q q' : τ} {message : ν} {sent : List μ} {replies : List ν}
    (hleft : left p message = (p', sent)) (hright : answers right q sent = (q', replies)) (waiting : List ν) :
    run (step left right) (.left :: List.replicate sent.length .right) ⟨p, q, message :: waiting, []⟩ =
      some ⟨p', q', waiting ++ replies, []⟩ := by
  rw [run_left hleft, List.nil_append, run_right, hright]

end Parties

end Duplex
