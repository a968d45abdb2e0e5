import Mathlib.Data.List.Basic

-- Runs of a step function that always ends, and what holds along them.
namespace Run

variable {σ ρ : Type} {step : σ → ρ → σ}

def after (step : σ → ρ → σ) (s : σ) (events : List ρ) : σ := events.foldl step s

-- In the first state, and after each step.
def Throughout (step : σ → ρ → σ) (P : σ → Prop) : σ → List ρ → Prop
  | s, [] => P s
  | s, event :: events => P s ∧ Throughout step P (step s event) events

-- Every step, in the state in which it is taken.
def Each (step : σ → ρ → σ) (C : σ → ρ → Prop) : σ → List ρ → Prop
  | _, [] => True
  | s, event :: events => C s event ∧ Each step C (step s event) events

theorem each_true (s : σ) (events : List ρ) : Each step (fun _ _ => True) s events := by
  induction events generalizing s with
  | nil => trivial
  | cons event events ih => exact ⟨trivial, ih _⟩

-- Where each step that is assumed leads from a good state to a good one just
-- when it meets the condition, a run of such steps is good throughout just when
-- each of them meets the condition.
theorem Each.throughout_iff {P : σ → Prop} {D C : σ → ρ → Prop} (invariant : σ → Prop)
    (hkept : ∀ s event, invariant s → D s event → C s event → invariant (step s event))
    (hstep : ∀ s event, invariant s → D s event → P s → (P (step s event) ↔ C s event)) {s : σ} (hs : invariant s)
    (hP : P s) {events : List ρ} (hD : Each step D s events) : Throughout step P s events ↔ Each step C s events := by
  induction events generalizing s with
  | nil => exact ⟨fun _ => trivial, fun _ => hP⟩
  | cons event events ih =>
      have hfirst : P (step s event) ↔ C s event := hstep s event hs hD.1 hP
      constructor
      · rintro ⟨_, hrest⟩
        have hnext : P (step s event) := by
          cases events with
          | nil => exact hrest
          | cons _ _ => exact hrest.1
        have hcond := hfirst.mp hnext
        exact ⟨hcond, (ih (hkept s event hs hD.1 hcond) hnext hD.2).mp hrest⟩
      · rintro ⟨hcond, hrest⟩
        exact ⟨hP, (ih (hkept s event hs hD.1 hcond) (hfirst.mpr hcond) hD.2).mpr hrest⟩

theorem throughout_iff_each (invariant : σ → Prop) {P : σ → Prop} {C : σ → ρ → Prop}
    (hkept : ∀ s event, invariant s → C s event → invariant (step s event))
    (hstep : ∀ s event, invariant s → P s → (P (step s event) ↔ C s event)) {s : σ} (hs : invariant s) (hP : P s)
    (events : List ρ) : Throughout step P s events ↔ Each step C s events := by
  apply (each_true s events).throughout_iff invariant _ _ hs hP
  · exact fun s event hs _ => hkept s event hs
  · exact fun s event hs _ => hstep s event hs

theorem after_append (s : σ) (past future : List ρ) :
    after step s (past ++ future) = after step (after step s past) future := List.foldl_append

theorem each_append {C : σ → ρ → Prop} {s : σ} {past future : List ρ} :
    Each step C s (past ++ future) ↔ Each step C s past ∧ Each step C (after step s past) future := by
  induction past generalizing s with
  | nil => exact ⟨fun h => ⟨trivial, h⟩, fun h => h.2⟩
  | cons event past ih => simp only [List.cons_append, Each, ih, after, List.foldl_cons, and_assoc]

theorem Each.snoc {C : σ → ρ → Prop} {s : σ} {past : List ρ} {event : ρ} (hpast : Each step C s past)
    (hevent : C (after step s past) event) : Each step C s (past ++ [event]) :=
  each_append.mpr ⟨hpast, hevent, trivial⟩

-- What every step that meets the condition keeps holds after a run of such steps.
theorem Each.keeps {C : σ → ρ → Prop} (invariant : σ → Prop)
    (hstep : ∀ s event, invariant s → C s event → invariant (step s event)) {s : σ} (hs : invariant s)
    {events : List ρ} (h : Each step C s events) : invariant (after step s events) := by
  induction events generalizing s with
  | nil => exact hs
  | cons event events ih => exact ih (hstep s event hs h.1) h.2

theorem after_keeps (invariant : σ → Prop) (hstep : ∀ s event, invariant s → invariant (step s event)) {s : σ}
    (hs : invariant s) (events : List ρ) : invariant (after step s events) :=
  (each_true s events).keeps invariant (fun s event h _ => hstep s event h) hs

theorem Throughout.last {P : σ → Prop} {s : σ} {events : List ρ} (h : Throughout step P s events) :
    P (after step s events) := by
  induction events generalizing s with
  | nil => exact h
  | cons event events ih => exact ih h.2

end Run
