import Skepticoin.Lib.Guard

-- Code that changes a state and may raise. What it changed before it raised
-- stays changed.
namespace Effect

variable {σ τ ε α β ρ : Type}

def Action (σ ε α : Type) : Type := σ → Except ε α × σ

instance : Monad (Action σ ε) where
  pure a := fun s => (.ok a, s)
  bind x f := fun s =>
    match x s with
    | (.ok a, s') => f a s'
    | (.error e, s') => (.error e, s')

-- A computation that leaves the state alone.
def raw (x : Except ε α) : Action σ ε α := fun s => (x, s)

def read : Action σ ε σ := fun s => (.ok s, s)

def change (f : σ → σ) : Action σ ε Unit := fun s => (.ok (), f s)

-- Code that works on a part of the state.
def within (get : τ → σ) (put : τ → σ → τ) (x : Action σ ε α) : Action τ ε α := fun t =>
  ((x (get t)).1, put t (x (get t)).2)

-- An error that is caught goes no further.
def catching (caught : ε → Bool) (x : Action σ ε Unit) : Action σ ε Unit := fun s =>
  match x s with
  | (.ok (), s') => (.ok (), s')
  | (.error e, s') => if caught e then (.ok (), s') else (.error e, s')

def forEach (body : ρ → Action σ ε Unit) : List ρ → Action σ ε Unit
  | [] => pure ()
  | row :: rows => do
    body row
    forEach body rows

@[simp] theorem pure_run (a : α) (s : σ) : (pure a : Action σ ε α) s = (.ok a, s) := rfl

@[simp] theorem raw_run (x : Except ε α) (s : σ) : (raw x : Action σ ε α) s = (x, s) := rfl

@[simp] theorem read_run (s : σ) : (read : Action σ ε σ) s = (.ok s, s) := rfl

@[simp] theorem change_run (f : σ → σ) (s : σ) : (change f : Action σ ε Unit) s = (.ok (), f s) := rfl

theorem bind_run (x : Action σ ε α) (f : α → Action σ ε β) (s : σ) :
    (x >>= f) s = match x s with
      | (.ok a, s') => f a s'
      | (.error e, s') => (.error e, s') := rfl

theorem bind_run_ok {x : Action σ ε α} {f : α → Action σ ε β} {s s' : σ} {a : α} (h : x s = (.ok a, s')) :
    (x >>= f) s = f a s' := by
  rw [bind_run, h]

theorem bind_run_error {x : Action σ ε α} {f : α → Action σ ε β} {s s' : σ} {e : ε}
    (h : x s = (.error e, s')) : (x >>= f) s = (.error e, s') := by
  rw [bind_run, h]

theorem bind_run_eq_ok {x : Action σ ε α} {f : α → Action σ ε β} {s s'' : σ} {b : β} :
    (x >>= f) s = (.ok b, s'') ↔ ∃ a s', x s = (.ok a, s') ∧ f a s' = (.ok b, s'') := by
  rw [bind_run]
  cases hx : x s with
  | mk result s' =>
      cases result with
      | ok a => simp
      | error e => simp

theorem catching_run_ok {caught : ε → Bool} {x : Action σ ε Unit} {s s' : σ} (h : x s = (.ok (), s')) :
    catching caught x s = (.ok (), s') := by
  rw [catching, h]

theorem catching_run_caught {caught : ε → Bool} {x : Action σ ε Unit} {s s' : σ} {e : ε} (h : x s = (.error e, s'))
    (hcaught : caught e = true) : catching caught x s = (.ok (), s') := by
  rw [catching, h]
  exact if_pos hcaught

-- A loop each turn of which ends normally goes through one state after another.
theorem forEach_run_ok {body : ρ → Action σ ε Unit} (step : σ → ρ → σ) {rows : List ρ} {s : σ}
    (hbody : ∀ (done : List ρ) row rest, rows = done ++ row :: rest →
      body row (done.foldl step s) = (.ok (), step (done.foldl step s) row)) :
    forEach body rows s = (.ok (), rows.foldl step s) := by
  induction rows generalizing s with
  | nil => rfl
  | cons row rows ih =>
      have hfirst : body row s = (.ok (), step s row) := hbody [] row rows rfl
      rw [forEach, bind_run_ok hfirst]
      apply ih
      intro done next rest hsplit
      exact hbody (row :: done) next rest (by rw [hsplit, List.cons_append])

theorem forEach_append_run {body : ρ → Action σ ε Unit} {rows : List ρ} {s s' : σ}
    (h : forEach body rows s = (.ok (), s')) (more : List ρ) :
    forEach body (rows ++ more) s = forEach body more s' := by
  induction rows generalizing s with
  | nil =>
      rw [List.nil_append, (Prod.mk.inj h).2]
  | cons row rows ih =>
      obtain ⟨_, middle, hfirst, hrest⟩ := bind_run_eq_ok.mp h
      rw [List.cons_append, forEach, bind_run_ok hfirst]
      exact ih hrest

-- What every turn that ends normally makes of the state, the whole loop does.
theorem forEach_run_eq_ok {body : ρ → Action σ ε Unit} {step : σ → ρ → σ}
    (hbody : ∀ s row s', body row s = (.ok (), s') → s' = step s row) {rows : List ρ} {s s' : σ}
    (h : forEach body rows s = (.ok (), s')) : s' = rows.foldl step s := by
  induction rows generalizing s with
  | nil =>
      have hpair := (Prod.mk.inj h).2
      exact hpair.symm
  | cons row rows ih =>
      obtain ⟨_, middle, hfirst, hrest⟩ := bind_run_eq_ok.mp h
      have hmiddle := hbody s row middle hfirst
      rw [List.foldl_cons, ← hmiddle]
      exact ih hrest

-- One call after another. What a call raises goes to its caller, and the next
-- call finds the state as it was left.
def calls (xs : List (Action σ ε α)) (s : σ) : σ := xs.foldl (fun s x => (x s).2) s

-- From a state with the precondition the code ends, normally or not, in the
-- postcondition.
def Spec (pre : σ → Prop) (x : Action σ ε α) (post : Except ε α → σ → Prop) : Prop :=
  ∀ s, pre s → post (x s).1 (x s).2

section Spec

variable {pre : σ → Prop} {post : Except ε α → σ → Prop}

theorem Spec.raw {x : Except ε α} (h : ∀ s, pre s → post x s) : Spec pre (raw x) post := h

theorem Spec.change {f : σ → σ} {post : Except ε Unit → σ → Prop} (h : ∀ s, pre s → post (.ok ()) (f s)) :
    Spec pre (change f) post := h

theorem Spec.mono {pre' : σ → Prop} {post' : Except ε α → σ → Prop} {x : Action σ ε α}
    (h : Spec pre x post) (hpre : ∀ s, pre' s → pre s) (hpost : ∀ r s, post r s → post' r s) :
    Spec pre' x post' :=
  fun s hs => hpost _ _ (h s (hpre s hs))

-- What has been raised ends the code, and what has been returned goes on.
theorem Spec.bind {middle : Except ε α → σ → Prop} {post : Except ε β → σ → Prop} {x : Action σ ε α}
    {f : α → Action σ ε β} (hx : Spec pre x middle) (hf : ∀ a, Spec (middle (.ok a)) (f a) post)
    (herror : ∀ e s, middle (.error e) s → post (.error e) s) : Spec pre (x >>= f) post := by
  intro s hs
  have hmiddle := hx s hs
  rw [bind_run]
  cases hrun : x s with
  | mk result s' =>
      rw [hrun] at hmiddle
      cases result with
      | ok a => exact hf a s' hmiddle
      | error e => exact herror e s' hmiddle

-- An invariant of two pieces of code is one of both.
theorem Spec.seq {x : Action σ ε α} {f : α → Action σ ε β} (hx : Spec pre x fun _ => pre)
    (hf : ∀ a, Spec pre (f a) fun _ => pre) : Spec pre (x >>= f) fun _ => pre :=
  Spec.bind hx hf fun _ _ hs => hs

-- The state that is read is the one that stays.
theorem Spec.read {post : Except ε β → σ → Prop} {f : σ → Action σ ε β}
    (h : ∀ s, Spec (fun s' => pre s' ∧ s' = s) (f s) post) : Spec pre (read >>= f) post :=
  fun s hs => h s s ⟨hs, rfl⟩

-- Where it does not matter which state it is.
theorem Spec.read_any {post : Except ε β → σ → Prop} {f : σ → Action σ ε β} (h : ∀ s, Spec pre (f s) post) :
    Spec pre (Effect.read >>= f) post :=
  fun s hs => h s s hs

theorem Spec.raw_bind {post : Except ε β → σ → Prop} {x : Except ε α} {f : α → Action σ ε β}
    (hok : ∀ a, x = .ok a → Spec pre (f a) post) (herror : ∀ e, x = .error e → ∀ s, pre s → post (.error e) s) :
    Spec pre (Effect.raw x >>= f) post := by
  cases x with
  | ok a => exact hok a rfl
  | error e => exact herror e rfl

theorem Spec.change_bind (middle : σ → Prop) {post : Except ε β → σ → Prop} {f : σ → σ}
    {g : Unit → Action σ ε β} (hf : ∀ s, pre s → middle (f s)) (hg : Spec middle (g ()) post) :
    Spec pre (Effect.change f >>= g) post :=
  fun s hs => hg (f s) (hf s hs)

theorem Spec.ite {c : Prop} [Decidable c] {x y : Action σ ε α} (hx : c → Spec pre x post)
    (hy : ¬c → Spec pre y post) : Spec pre (if c then x else y) post := by
  by_cases hc : c
  · rw [if_pos hc]
    exact hx hc
  · rw [if_neg hc]
    exact hy hc

theorem Spec.within {get : τ → σ} {put : τ → σ → τ} {x : Action σ ε α} {pre' : τ → Prop}
    {post' : Except ε α → τ → Prop} (h : Spec pre x post) (hpre : ∀ t, pre' t → pre (get t))
    (hpost : ∀ t r s, pre' t → post r s → post' r (put t s)) : Spec pre' (within get put x) post' :=
  fun t ht => hpost t _ _ ht (h (get t) (hpre t ht))

theorem Spec.catching {invariant : σ → Prop} {caught : ε → Bool} {x : Action σ ε Unit}
    (hx : Spec invariant x fun _ => invariant) : Spec invariant (catching caught x) fun _ => invariant := by
  intro s hs
  have hafter := hx s hs
  rw [Effect.catching]
  cases hrun : x s with
  | mk result s' =>
      rw [hrun] at hafter
      cases result with
      | ok _ => exact hafter
      | error e =>
          by_cases hcaught : caught e = true
          · simpa only [if_pos hcaught] using hafter
          · simpa only [if_neg hcaught] using hafter

-- An invariant that each turn keeps holds wherever the loop ends.
theorem Spec.forEach {invariant : σ → Prop} {body : ρ → Action σ ε Unit}
    (h : ∀ row, Spec invariant (body row) fun _ => invariant) (rows : List ρ) :
    Spec invariant (forEach body rows) fun _ => invariant := by
  induction rows with
  | nil => exact fun s hs => hs
  | cons row rows ih => exact Spec.bind (h row) (fun _ => ih) fun _ _ hs => hs

-- An invariant that each turn of the loop keeps, over the rows that there are.
theorem Spec.forEach_mem {invariant : σ → Prop} {body : ρ → Action σ ε Unit} {rows : List ρ}
    (h : ∀ row ∈ rows, Spec invariant (body row) fun _ => invariant) :
    Spec invariant (Effect.forEach body rows) fun _ => invariant := by
  induction rows with
  | nil => exact fun s hs => hs
  | cons row rows ih =>
      refine Spec.bind (h row List.mem_cons_self) (fun _ => ?_) fun _ _ hs => hs
      exact ih fun other hother => h other (List.mem_cons_of_mem _ hother)

-- What each turn that ends normally adds is there at the end of the loop, and
-- something weaker wherever the loop ends.
theorem Spec.forEach_adds {done : List ρ → σ → Prop} {stopped : σ → Prop} {body : ρ → Action σ ε Unit} {rows : List ρ}
    (hbody : ∀ before row, row ∈ rows →
      Spec (done before) (body row) fun r s => stopped s ∧ (r = .ok () → done (before ++ [row]) s))
    (hdone : ∀ before s, done before s → stopped s) (before : List ρ) :
    Spec (done before) (Effect.forEach body rows) fun r s => stopped s ∧ (r = .ok () → done (before ++ rows) s) := by
  induction rows generalizing before with
  | nil =>
      intro s hs
      rw [List.append_nil]
      exact ⟨hdone before s hs, fun _ => hs⟩
  | cons row rows ih =>
      have hrest := ih (fun before other hother => hbody before other (List.mem_cons_of_mem _ hother)) (before ++ [row])
      rw [List.append_assoc, List.singleton_append] at hrest
      refine Spec.bind (hbody before row List.mem_cons_self) (fun _ => ?_) fun e s hs => ⟨hs.1, fun h => by cases h⟩
      exact hrest.mono (fun _ hs => hs.2 rfl) fun _ _ hs => hs

-- An invariant that each call keeps holds after all of them.
theorem Spec.calls {P : σ → Prop} {xs : List (Action σ ε α)}
    (h : ∀ x ∈ xs, Spec P x fun _ => P) {s : σ} (hs : P s) :
    P (calls xs s) := by
  induction xs generalizing s with
  | nil => exact hs
  | cons x xs ih =>
      have hnext := h x List.mem_cons_self s hs
      exact ih (fun y hy => h y (List.mem_cons_of_mem _ hy)) hnext

end Spec

end Effect
