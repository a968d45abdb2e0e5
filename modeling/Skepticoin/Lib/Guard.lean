import Mathlib

-- Straight-line code and loops that may raise, and the inversion rules that
-- say what a run that ended normally went through.
namespace Guard

variable {ε α β κ : Type}

-- A check that raises when its condition holds.
def raiseIf (c : Prop) [Decidable c] (error : ε) : Except ε Unit :=
  if c then .error error else .ok ()

-- A loop whose body only checks.
def checkAll (check : α → Except ε Unit) : List α → Except ε Unit
  | [] => .ok ()
  | x :: xs => do
    check x
    checkAll check xs

-- A loop that collects one value from each turn.
def collect (f : α → Except ε β) : List α → Except ε (List β)
  | [] => .ok []
  | x :: xs => do
    let y ← f x
    let ys ← collect f xs
    return y :: ys

-- A loop that keeps the keys it has seen and raises at a repeated one.
def noRepeat [DecidableEq κ] (error : ε) (seen : List κ) : List κ → Except ε Unit
  | [] => .ok ()
  | key :: keys => do
    raiseIf (key ∈ seen) error
    noRepeat error (key :: seen) keys

-- try: the check; return True, and False at an exception of the kind that is
-- caught.
def succeeds (caught : ε → Bool) (check : Except ε Unit) : Except ε Bool :=
  match check with
  | .ok () => .ok true
  | .error e => if caught e then .ok false else .error e

-- The elements that a predicate which may raise holds of.
def keepIf (keeps : α → Except ε Bool) : List α → Except ε (List α)
  | [] => .ok []
  | x :: xs => do
    let kept ← keeps x
    let ys ← keepIf keeps xs
    return if kept then x :: ys else ys

-- Whatever is raised is of the kind.
def RaisesOnly (kind : ε → Bool) (x : Except ε α) : Prop := ∀ e, x = .error e → kind e = true

@[simp] theorem bind_eq_ok {x : Except ε α} {f : α → Except ε β} {b : β} :
    x >>= f = .ok b ↔ ∃ a, x = .ok a ∧ f a = .ok b := by
  cases x with
  | error e => simp [bind, Except.bind]
  | ok a => simp [bind, Except.bind]

@[simp] theorem map_eq_ok {x : Except ε α} {f : α → β} {b : β} :
    f <$> x = .ok b ↔ ∃ a, x = .ok a ∧ f a = b := by
  cases x with
  | error e => simp [Functor.map, Except.map]
  | ok a => simp [Functor.map, Except.map]

@[simp] theorem pure_eq_ok {a b : α} : (pure a : Except ε α) = .ok b ↔ a = b :=
  Except.ok.injEq a b ▸ Iff.rfl

@[simp] theorem exists_unit_eq_ok {x : Except ε Unit} :
    (∃ u, x = .ok u) ↔ x = .ok () :=
  ⟨fun ⟨_, hx⟩ => hx, fun hx => ⟨(), hx⟩⟩

@[simp] theorem raiseIf_eq_ok {c : Prop} [Decidable c] {error : ε} {u : Unit} :
    raiseIf c error = .ok u ↔ ¬c := by
  by_cases hc : c <;> simp [raiseIf, hc]

theorem mem_toOption {x : Except ε α} {a : α} : a ∈ x.toOption ↔ x = .ok a := by
  cases x <;> simp [Except.toOption]

theorem checkAll_eq_ok {check : α → Except ε Unit} {xs : List α} {u : Unit} :
    checkAll check xs = .ok u ↔ ∀ x ∈ xs, check x = .ok () := by
  induction xs with
  | nil => simp [checkAll]
  | cons x xs ih => simp [checkAll, ih]

theorem checkAll_error {check : α → Except ε Unit} {xs : List α} {e : ε} (h : checkAll check xs = .error e) :
    ∃ x ∈ xs, check x = .error e := by
  induction xs with
  | nil => cases h
  | cons x xs ih =>
      cases hx : check x with
      | error e' =>
          rw [checkAll, hx] at h
          exact ⟨x, List.mem_cons_self, Except.error.inj h ▸ hx⟩
      | ok u =>
          rw [checkAll, hx] at h
          obtain ⟨y, hy, hraise⟩ := ih h
          exact ⟨y, List.mem_cons_of_mem _ hy, hraise⟩

theorem collect_eq_ok {f : α → Except ε β} {xs : List α} {ys : List β} :
    collect f xs = .ok ys ↔ List.Forall₂ (fun x y => f x = .ok y) xs ys := by
  induction xs generalizing ys with
  | nil => simp [collect, eq_comm]
  | cons x xs ih =>
      simp only [collect, bind_eq_ok, pure_eq_ok, List.forall₂_cons_left_iff, ih]
      constructor
      · rintro ⟨y, hy, ys, hys, rfl⟩
        exact ⟨y, ys, hy, hys, rfl⟩
      · rintro ⟨y, ys, hy, hys, rfl⟩
        exact ⟨y, hy, ys, hys, rfl⟩

theorem forall₂_mem_left {R : α → β → Prop} {xs : List α} {ys : List β} (h : List.Forall₂ R xs ys)
    {x : α} (hx : x ∈ xs) : ∃ y ∈ ys, R x y := by
  induction h with
  | nil => cases hx
  | cons hab _ ih =>
      rcases List.mem_cons.mp hx with rfl | hx
      · exact ⟨_, List.mem_cons_self, hab⟩
      · obtain ⟨y, hy, hxy⟩ := ih hx
        exact ⟨y, List.mem_cons_of_mem _ hy, hxy⟩

theorem forall₂_pairwise {R : α → β → Prop} {S : α → α → Prop} {T : β → β → Prop} {xs : List α}
    {ys : List β} (h : List.Forall₂ R xs ys) (hp : xs.Pairwise S)
    (hto : ∀ x x' y y', S x x' → R x y → R x' y' → T y y') : ys.Pairwise T := by
  induction h with
  | nil => exact List.Pairwise.nil
  | cons hab hrest ih =>
      obtain ⟨hfirst, hp⟩ := List.pairwise_cons.mp hp
      refine List.pairwise_cons.mpr ⟨?_, ih hp⟩
      intro y hy
      obtain ⟨x, hx, hxy⟩ := forall₂_mem_left hrest.flip hy
      exact hto _ x _ y (hfirst x hx) hab hxy

theorem forall₂_append_cons {R : α → β → Prop} {xs xs' : List α} {x : α} {ys : List β}
    (h : List.Forall₂ R (xs ++ x :: xs') ys) :
    ∃ before y after, ys = before ++ y :: after ∧ List.Forall₂ R xs before ∧ R x y := by
  have hbefore := List.forall₂_take_append _ _ _ h.flip
  have hfrom := List.forall₂_drop_append _ _ _ h.flip
  obtain ⟨y, after, hxy, _, hafter⟩ := List.forall₂_cons_right_iff.mp hfrom
  refine ⟨ys.take xs.length, y, after, ?_, hbefore.flip, hxy⟩
  rw [← hafter, List.take_append_drop]

theorem forall₂_comp {γ : Type} {R : α → β → Prop} {S : β → γ → Prop} {T : α → γ → Prop} {xs : List α}
    {ys : List β} {zs : List γ} (h : List.Forall₂ R xs ys) (h' : List.Forall₂ S ys zs)
    (hto : ∀ x y z, R x y → S y z → T x z) : List.Forall₂ T xs zs := by
  induction h generalizing zs with
  | nil =>
      rw [List.forall₂_nil_left_iff.mp h']
      exact .nil
  | cons hfirst _ ih =>
      cases h' with
      | cons hfirst' hrest => exact .cons (hto _ _ _ hfirst hfirst') (ih hrest)

theorem filterMap_toOption {f : α → Except ε β} {xs : List α} {ys : List β}
    (h : List.Forall₂ (fun x y => f x = .ok y) xs ys) : xs.filterMap (fun x => (f x).toOption) = ys := by
  induction h with
  | nil => rfl
  | cons hfirst _ ih =>
      have hsome : (f _).toOption = some _ := mem_toOption.mpr hfirst
      rw [List.filterMap_cons_some (f := fun x => (f x).toOption) hsome, ih]

theorem forall₂_getLast {R : α → β → Prop} {xs : List α} {ys : List β} (h : List.Forall₂ R xs ys) {x : α}
    (hx : xs.getLast? = some x) : ∃ y, ys.getLast? = some y ∧ R x y := by
  induction h with
  | nil => simp at hx
  | cons hab hrest ih =>
      cases hrest with
      | nil =>
          rw [List.getLast?_singleton] at hx
          exact ⟨_, List.getLast?_singleton, Option.some.inj hx ▸ hab⟩
      | cons _ _ =>
          rw [List.getLast?_cons_cons] at hx
          obtain ⟨y, hy, hxy⟩ := ih hx
          exact ⟨y, by rw [List.getLast?_cons_cons, hy], hxy⟩

theorem noRepeat_eq_ok [DecidableEq κ] {error : ε} {seen keys : List κ} {u : Unit} :
    noRepeat error seen keys = .ok u ↔ keys.Nodup ∧ ∀ key ∈ keys, key ∉ seen := by
  induction keys generalizing seen with
  | nil => simp [noRepeat]
  | cons key keys ih =>
      simp only [noRepeat, bind_eq_ok, exists_const, raiseIf_eq_ok, ih, List.nodup_cons,
        List.mem_cons, not_or, forall_eq_or_imp]
      constructor
      · rintro ⟨hseen, hnodup, hkeys⟩
        exact ⟨⟨fun hm => (hkeys key hm).1 rfl, hnodup⟩, hseen, fun k hk => (hkeys k hk).2⟩
      · rintro ⟨⟨hm, hnodup⟩, hseen, hkeys⟩
        exact ⟨hseen, hnodup, fun k hk => ⟨fun he => hm (he ▸ hk), hkeys k hk⟩⟩

theorem collect_ok (f : α → Except ε β) (xs : List α) (h : ∀ x ∈ xs, ∃ y, f x = .ok y) :
    ∃ ys, collect f xs = .ok ys := by
  induction xs with
  | nil => exact ⟨[], rfl⟩
  | cons x xs ih =>
      obtain ⟨y, hy⟩ := h x List.mem_cons_self
      obtain ⟨ys, hys⟩ := ih fun other hother => h other (List.mem_cons_of_mem _ hother)
      exact ⟨y :: ys, collect_eq_ok.mpr (.cons hy (collect_eq_ok.mp hys))⟩

-- Where each element is done after enough turns, so is the list.
theorem collect_eventually {γ : Type} {R : α → γ → Prop} {f : Nat → α → Except ε β} {g : γ → β} {xs : List α}
    (h : ∀ x ∈ xs, ∃ y, R x y ∧ ∃ bound, ∀ turns > bound, f turns x = .ok (g y)) :
    ∃ ys, List.Forall₂ R xs ys ∧ ∃ bound, ∀ turns > bound, collect (f turns) xs = .ok (ys.map g) := by
  induction xs with
  | nil => exact ⟨[], .nil, 0, fun _ _ => rfl⟩
  | cons x xs ih =>
      obtain ⟨y, hxy, bound, hrun⟩ := h x List.mem_cons_self
      obtain ⟨ys, hall, bound', hruns⟩ := ih fun other hother => h other (List.mem_cons_of_mem _ hother)
      refine ⟨y :: ys, .cons hxy hall, max bound bound', fun turns hturns => ?_⟩
      have hfirst := hrun turns (lt_of_le_of_lt (Nat.le_max_left _ _) hturns)
      have hrest := hruns turns (lt_of_le_of_lt (Nat.le_max_right _ _) hturns)
      simp [collect, hfirst, hrest]

theorem collect_congr {f : α → Except ε β} {xs xs' : List α}
    (h : List.Forall₂ (fun x x' => f x' = f x) xs xs') : collect f xs' = collect f xs := by
  induction h with
  | nil => rfl
  | cons hfirst _ ih => rw [collect, collect, hfirst, ih]

-- Collecting goes through a list piece by piece.
theorem collect_append {f : α → Except ε β} {xs xs' : List α} {ys : List β} :
    collect f (xs ++ xs') = .ok ys ↔
      ∃ first second, collect f xs = .ok first ∧ collect f xs' = .ok second ∧ ys = first ++ second := by
  simp only [collect_eq_ok]
  constructor
  · intro h
    have hfirst := List.forall₂_take xs.length h
    have hsecond := List.forall₂_drop xs.length h
    rw [List.take_left] at hfirst
    rw [List.drop_left] at hsecond
    exact ⟨_, _, hfirst, hsecond, (List.take_append_drop xs.length ys).symm⟩
  · intro h
    obtain ⟨first, second, hfirst, hsecond, hys⟩ := h
    rw [hys]
    exact List.rel_append hfirst hsecond

theorem succeeds_eq_ok_true {caught : ε → Bool} {check : Except ε Unit} :
    succeeds caught check = .ok true ↔ check = .ok () := by
  cases check with
  | ok u => simp [succeeds]
  | error e =>
      rw [succeeds]
      split <;> simp

theorem succeeds_error {caught : ε → Bool} {check : Except ε Unit} {e : ε}
    (h : succeeds caught check = .error e) : check = .error e ∧ caught e = false := by
  cases check with
  | ok u => cases h
  | error e' =>
      rw [succeeds] at h
      split at h
      · cases h
      · next hcaught =>
          rw [Except.error.inj h] at hcaught ⊢
          exact ⟨rfl, by simpa using hcaught⟩

theorem keepIf_error {keeps : α → Except ε Bool} {xs : List α} {e : ε} (h : keepIf keeps xs = .error e) :
    ∃ x ∈ xs, keeps x = .error e := by
  induction xs with
  | nil => cases h
  | cons x xs ih =>
      cases hx : keeps x with
      | error e' =>
          rw [keepIf, hx] at h
          exact ⟨x, List.mem_cons_self, Except.error.inj h ▸ hx⟩
      | ok kept =>
          cases hxs : keepIf keeps xs with
          | error e' =>
              rw [keepIf, hx, hxs] at h
              obtain ⟨y, hy, hraise⟩ := ih (hxs.trans h)
              exact ⟨y, List.mem_cons_of_mem _ hy, hraise⟩
          | ok ys =>
              rw [keepIf, hx, hxs] at h
              cases h

theorem keepIf_mem {keeps : α → Except ε Bool} {xs ys : List α} (h : keepIf keeps xs = .ok ys) {x : α}
    (hx : x ∈ ys) : keeps x = .ok true := by
  induction xs generalizing ys with
  | nil =>
      rw [← Except.ok.inj h] at hx
      cases hx
  | cons first xs ih =>
      simp only [keepIf, bind_eq_ok, pure_eq_ok] at h
      obtain ⟨kept, hkept, rest, hrest, hys⟩ := h
      subst hys
      cases kept with
      | true =>
          cases List.mem_cons.mp hx with
          | inl heq => exact heq ▸ hkept
          | inr hin => exact ih hrest hin
      | false => exact ih hrest hx

theorem keepIf_sublist {keeps : α → Except ε Bool} {xs ys : List α} (h : keepIf keeps xs = .ok ys) :
    List.Sublist ys xs := by
  induction xs generalizing ys with
  | nil =>
      rw [← Except.ok.inj h]
  | cons first xs ih =>
      simp only [keepIf, bind_eq_ok, pure_eq_ok] at h
      obtain ⟨kept, _, rest, hrest, hys⟩ := h
      subst hys
      cases kept with
      | true => exact (ih hrest).cons_cons first
      | false => exact (ih hrest).cons first

section RaisesOnly

variable {kind : ε → Bool}

theorem RaisesOnly.ok {x : Except ε α} {a : α} (h : x = .ok a) : RaisesOnly kind x := by
  intro e he
  rw [h] at he
  cases he

theorem RaisesOnly.error {e : ε} (h : kind e = true) : RaisesOnly kind (.error e : Except ε α) := by
  intro e' he
  exact Except.error.inj he ▸ h

theorem RaisesOnly.raiseIf {c : Prop} [Decidable c] {e : ε} (h : kind e = true) :
    RaisesOnly kind (raiseIf c e) := by
  by_cases hc : c
  · rw [Guard.raiseIf, if_pos hc]
    exact RaisesOnly.error h
  · rw [Guard.raiseIf, if_neg hc]
    exact RaisesOnly.ok rfl

theorem RaisesOnly.bind {x : Except ε α} {f : α → Except ε β} (hx : RaisesOnly kind x)
    (hf : ∀ a, x = .ok a → RaisesOnly kind (f a)) : RaisesOnly kind (x >>= f) := by
  cases x with
  | ok a => exact hf a rfl
  | error e => exact RaisesOnly.error (hx e rfl)

theorem RaisesOnly.collect {f : α → Except ε β} {xs : List α} (h : ∀ x ∈ xs, RaisesOnly kind (f x)) :
    RaisesOnly kind (collect f xs) := by
  induction xs with
  | nil => exact RaisesOnly.ok rfl
  | cons x xs ih =>
      have hrest := ih fun y hy => h y (List.mem_cons_of_mem _ hy)
      exact (h x List.mem_cons_self).bind fun _ _ => hrest.bind fun _ _ => RaisesOnly.ok rfl

theorem RaisesOnly.checkAll {check : α → Except ε Unit} {xs : List α}
    (h : ∀ x ∈ xs, RaisesOnly kind (check x)) : RaisesOnly kind (checkAll check xs) := by
  induction xs with
  | nil => exact RaisesOnly.ok rfl
  | cons x xs ih =>
      exact (h x List.mem_cons_self).bind fun _ _ => ih fun y hy => h y (List.mem_cons_of_mem _ hy)

theorem RaisesOnly.noRepeat [DecidableEq κ] {error : ε} (h : kind error = true) (seen keys : List κ) :
    RaisesOnly kind (noRepeat error seen keys) := by
  induction keys generalizing seen with
  | nil => exact RaisesOnly.ok rfl
  | cons key keys ih => exact (RaisesOnly.raiseIf h).bind fun _ _ => ih (key :: seen)

theorem RaisesOnly.mono {other : ε → Bool} {x : Except ε α} (h : RaisesOnly other x)
    (hkind : ∀ e, other e = true → kind e = true) :
    RaisesOnly kind x := fun e he => hkind e (h e he)

theorem raisesOnly_bind_iff {x : Except ε α} {f : α → Except ε β} :
    RaisesOnly kind (x >>= f) ↔ RaisesOnly kind x ∧ ∀ a, x = .ok a → RaisesOnly kind (f a) := by
  constructor
  · intro h
    cases x with
    | error e => exact ⟨RaisesOnly.error (h e rfl), fun a ha => by cases ha⟩
    | ok a => exact ⟨RaisesOnly.ok rfl, fun a' ha => Except.ok.inj ha ▸ h⟩
  · intro h
    exact h.1.bind h.2

-- What can only raise something else has to end normally.
theorem RaisesOnly.iff_ok {other : ε → Bool} {x : Except ε α} (h : RaisesOnly other x)
    (hother : ∀ e, other e = true → kind e = false) :
    RaisesOnly kind x ↔ ∃ a, x = .ok a := by
  constructor
  · intro hkind
    cases x with
    | ok a => exact ⟨a, rfl⟩
    | error e =>
        have hno := hother e (h e rfl)
        rw [hkind e rfl] at hno
        cases hno
  · intro hok
    obtain ⟨a, ha⟩ := hok
    exact RaisesOnly.ok ha

-- What raises nothing but what is caught answers yes or no.
theorem succeeds_of_raisesOnly {check : Except ε Unit} (h : RaisesOnly kind check) :
    succeeds kind check = .ok true ∨ succeeds kind check = .ok false ∧ check ≠ .ok () := by
  cases check with
  | ok u => exact .inl rfl
  | error e =>
      right
      rw [succeeds, if_pos (h e rfl)]
      exact ⟨rfl, fun heq => by cases heq⟩

end RaisesOnly

end Guard
