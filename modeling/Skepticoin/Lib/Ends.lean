import Skepticoin.Lib.Effect

-- Code that raises nothing, from the states with a precondition.
namespace Effect

variable {σ τ ε α β ρ : Type}

def Ends (pre : σ → Prop) (x : Action σ ε α) (post : α → σ → Prop) : Prop :=
  ∀ s, pre s → ∃ a s', x s = (.ok a, s') ∧ post a s'

variable {pre : σ → Prop} {post : α → σ → Prop}

theorem Ends.pure {a : α} (h : ∀ s, pre s → post a s) : Ends pre (pure a : Action σ ε α) post :=
  fun s hs => ⟨a, s, rfl, h s hs⟩

theorem Ends.change {f : σ → σ} {post : Unit → σ → Prop} (h : ∀ s, pre s → post () (f s)) :
    Ends pre (change f : Action σ ε Unit) post :=
  fun s hs => ⟨(), f s, rfl, h s hs⟩

theorem Ends.mono {pre' : σ → Prop} {post' : α → σ → Prop} {x : Action σ ε α} (h : Ends pre x post)
    (hpre : ∀ s, pre' s → pre s) (hpost : ∀ a s, post a s → post' a s) : Ends pre' x post' := by
  intro s hs
  obtain ⟨a, s', hrun, ha⟩ := h s (hpre s hs)
  exact ⟨a, s', hrun, hpost a s' ha⟩

theorem Ends.bind {middle : α → σ → Prop} {post : β → σ → Prop} {x : Action σ ε α} {f : α → Action σ ε β}
    (hx : Ends pre x middle) (hf : ∀ a, Ends (middle a) (f a) post) : Ends pre (x >>= f) post := by
  intro s hs
  obtain ⟨a, s', hrun, ha⟩ := hx s hs
  obtain ⟨b, s'', hrest, hb⟩ := hf a s' ha
  exact ⟨b, s'', (bind_run_ok hrun).trans hrest, hb⟩

-- An invariant of two pieces of code.
theorem Ends.seq {x : Action σ ε α} {f : α → Action σ ε β} (hx : Ends pre x fun _ => pre)
    (hf : ∀ a, Ends pre (f a) fun _ => pre) : Ends pre (x >>= f) fun _ => pre :=
  Ends.bind hx hf

theorem Ends.read {post : β → σ → Prop} {f : σ → Action σ ε β}
    (h : ∀ s, Ends (fun s' => pre s' ∧ s' = s) (f s) post) : Ends pre (Effect.read >>= f) post :=
  fun s hs => h s s ⟨hs, rfl⟩

theorem Ends.read_any {post : β → σ → Prop} {f : σ → Action σ ε β} (h : ∀ s, pre s → Ends pre (f s) post) :
    Ends pre (Effect.read >>= f) post :=
  fun s hs => h s hs s hs

theorem Ends.raw_bind {post : β → σ → Prop} {a : α} {x : Except ε α} {f : α → Action σ ε β} (hx : x = .ok a)
    (hf : Ends pre (f a) post) : Ends pre (raw x >>= f) post := by
  subst hx
  exact hf

theorem Ends.ite {c : Prop} [Decidable c] {x y : Action σ ε α} (hx : c → Ends pre x post)
    (hy : ¬c → Ends pre y post) : Ends pre (if c then x else y) post := by
  by_cases hc : c
  · rw [if_pos hc]
    exact hx hc
  · rw [if_neg hc]
    exact hy hc

theorem Ends.forEach {body : ρ → Action σ ε Unit} {rows : List ρ}
    (h : ∀ row ∈ rows, Ends pre (body row) fun _ => pre) : Ends pre (forEach body rows) fun _ => pre := by
  induction rows with
  | nil => exact Ends.pure fun _ hs => hs
  | cons row rows ih =>
      refine Ends.seq (h row List.mem_cons_self) fun _ => ?_
      exact ih fun other hother => h other (List.mem_cons_of_mem _ hother)

theorem Ends.ok {x : Action σ ε Unit} {post : Unit → σ → Prop} (h : Ends pre x post) {s : σ} (hs : pre s) :
    (x s).1 = .ok () := by
  obtain ⟨_, _, hrun, _⟩ := h s hs
  rw [hrun]

end Effect
