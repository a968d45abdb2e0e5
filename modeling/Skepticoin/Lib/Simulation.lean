import Skepticoin.Lib.Guard

-- Two computations that may raise, where the second goes along wherever the
-- first ends normally.
namespace Guard

variable {ε α β γ δ : Type} {R : α → β → Prop} {S : γ → δ → Prop}

def Follows (R : α → β → Prop) (x : Except ε α) (y : Except ε β) : Prop :=
  ∀ a, x = .ok a → ∃ b, y = .ok b ∧ R a b

theorem Follows.ok {a : α} {b : β} (h : R a b) : Follows R (.ok a : Except ε α) (.ok b) := by
  intro a' ha
  exact ⟨b, rfl, Except.ok.inj ha ▸ h⟩

theorem Follows.error (e : ε) (y : Except ε β) : Follows R (.error e) y := by
  intro a ha
  cases ha

theorem Follows.bind {x : Except ε α} {y : Except ε β} {f : α → Except ε γ} {g : β → Except ε δ}
    (hx : Follows R x y) (hf : ∀ a b, R a b → Follows S (f a) (g b)) : Follows S (x >>= f) (y >>= g) := by
  intro c hc
  obtain ⟨a, ha, hrest⟩ := bind_eq_ok.mp hc
  obtain ⟨b, hb, hrelated⟩ := hx a ha
  obtain ⟨d, hd, hend⟩ := hf a b hrelated c hrest
  exact ⟨d, bind_eq_ok.mpr ⟨b, hb, hd⟩, hend⟩

-- A step that both have in common.
theorem Follows.common {x : Except ε α} {f : α → Except ε γ} {g : α → Except ε δ}
    (hf : ∀ a, x = .ok a → Follows S (f a) (g a)) : Follows S (x >>= f) (x >>= g) := by
  intro c hc
  obtain ⟨a, ha, hrest⟩ := bind_eq_ok.mp hc
  obtain ⟨d, hd, hend⟩ := hf a ha c hrest
  exact ⟨d, bind_eq_ok.mpr ⟨a, ha, hd⟩, hend⟩

end Guard
