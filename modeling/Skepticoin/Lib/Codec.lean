import Skepticoin.Lib.Guard

-- Stream decoders over a list of bytes: what it means that a decoder reads an
-- encoding back, that it consumes nothing but encodings, and that one decoder
-- is a stricter version of another, with the rules for building such facts.
namespace Codec

open Guard

variable {ε α β : Type}

abbrev Decoder (ε α : Type) := StateT (List UInt8) (Except ε) α

-- A step that reads nothing but may raise.
def raw (x : Except ε α) : Decoder ε α := fun stream => do
  let a ← x
  return (a, stream)

-- Run a decoder and hand back the bytes it consumed as well.
def traced (d : Decoder ε α) : Decoder ε (α × List UInt8) := fun stream => do
  let (a, rest) ← d stream
  return ((a, stream.take (stream.length - rest.length)), rest)

def times (d : Decoder ε α) : Nat → Decoder ε (List α)
  | 0 => pure []
  | n + 1 => do
    let a ← d
    let as ← times d n
    return a :: as

-- On the given bytes, whatever follows them, the decoder returns `a` and
-- leaves exactly what follows.
def Reads (d : Decoder ε α) (bytes : List UInt8) (a : α) : Prop :=
  ∀ rest, d (bytes ++ rest) = .ok (a, rest)

-- Whatever the decoder accepts, the bytes it consumed stand in the relation
-- to the value it returned.
def Consumes (d : Decoder ε α) (relation : α → List UInt8 → Prop) : Prop :=
  ∀ stream a rest, d stream = .ok (a, rest) → ∃ used, stream = used ++ rest ∧ relation a used

def Refines (strict d : Decoder ε α) : Prop :=
  ∀ stream result, strict stream = .ok result → d stream = .ok result

theorem bind_run (d : Decoder ε α) (f : α → Decoder ε β) (stream : List UInt8) :
    (d >>= f) stream = d stream >>= fun result => f result.1 result.2 := rfl

theorem pure_run (a : α) (stream : List UInt8) :
    (pure a : Decoder ε α) stream = .ok (a, stream) := rfl

theorem bind_run_eq_ok {d : Decoder ε α} {f : α → Decoder ε β} {stream rest : List UInt8} {b : β} :
    (d >>= f) stream = .ok (b, rest) ↔
      ∃ a middle, d stream = .ok (a, middle) ∧ f a middle = .ok (b, rest) := by
  rw [bind_run, bind_eq_ok, Prod.exists]

theorem raw_eq_ok {x : Except ε α} {stream rest : List UInt8} {a : α} :
    raw x stream = .ok (a, rest) ↔ x = .ok a ∧ stream = rest := by
  simp only [raw, bind_eq_ok, pure_eq_ok, Prod.mk.injEq]
  constructor
  · rintro ⟨a', hx, rfl, rfl⟩
    exact ⟨hx, rfl⟩
  · rintro ⟨hx, rfl⟩
    exact ⟨a, hx, rfl, rfl⟩

theorem traced_eq_ok {d : Decoder ε α} {stream used rest : List UInt8} {a : α} :
    traced d stream = .ok ((a, used), rest) ↔
      d stream = .ok (a, rest) ∧ used = stream.take (stream.length - rest.length) := by
  simp only [traced, bind_eq_ok, pure_eq_ok, Prod.exists, Prod.mk.injEq]
  constructor
  · rintro ⟨a', rest', hd, ⟨rfl, rfl⟩, rfl⟩
    exact ⟨hd, rfl⟩
  · rintro ⟨hd, rfl⟩
    exact ⟨a, rest, hd, ⟨rfl, rfl⟩, rfl⟩

section Reads

theorem Reads.pure (a : α) : Reads (Pure.pure a : Decoder ε α) [] a := fun _ => rfl

theorem Reads.raw {x : Except ε α} {a : α} (h : x = .ok a) : Reads (Codec.raw x) [] a :=
  fun _ => raw_eq_ok.mpr ⟨h, rfl⟩

theorem Reads.bind {d : Decoder ε α} {f : α → Decoder ε β} {first second : List UInt8} {a : α} {b : β}
    (hd : Reads d first a) (hf : Reads (f a) second b) : Reads (d >>= f) (first ++ second) b := by
  intro rest
  rw [List.append_assoc]
  exact bind_run_eq_ok.mpr ⟨a, second ++ rest, hd _, hf rest⟩

theorem Reads.map {d : Decoder ε α} {bytes : List UInt8} {a : α} (f : α → β) (hd : Reads d bytes a) :
    Reads (d >>= fun x => Pure.pure (f x)) bytes (f a) := by
  have h := hd.bind (f := fun x => Pure.pure (f x)) (Reads.pure (f a))
  rwa [List.append_nil] at h

theorem Reads.check {d : Decoder ε α} {bytes : List UInt8} {a : α} {b : β} {f : α → Except ε β}
    (hd : Reads d bytes a) (h : f a = .ok b) : Reads (d >>= fun x => Codec.raw (f x)) bytes b := by
  have hrun := hd.bind (f := fun x => Codec.raw (f x)) (Reads.raw h)
  rwa [List.append_nil] at hrun

theorem Reads.unless {d : Decoder ε α} {bytes : List UInt8} {a : α} {c : Prop} [Decidable c] {error : ε}
    (hc : ¬c) (hd : Reads d bytes a) : Reads (Codec.raw (raiseIf c error) >>= fun _ => d) bytes a :=
  (Reads.raw (raiseIf_eq_ok.mpr hc : raiseIf c error = .ok ())).bind (f := fun _ => d) hd

theorem Reads.traced {d : Decoder ε α} {bytes : List UInt8} {a : α} (hd : Reads d bytes a) :
    Reads (traced d) bytes (a, bytes) := by
  intro rest
  exact traced_eq_ok.mpr ⟨hd rest, by simp⟩

theorem Reads.times {d : Decoder ε α} {chunks : List (List UInt8)} {as : List α}
    (hd : List.Forall₂ (Reads d) chunks as) : Reads (times d as.length) chunks.flatten as := by
  induction hd with
  | nil => exact Reads.pure []
  | cons hd _ ih => exact hd.bind (Reads.map _ ih)

-- Two encodings that one decoder reads back agree on their values when one
-- is a prefix of a stream that starts with the other.
theorem Reads.inj {d : Decoder ε α} {first second : List UInt8} {a b : α} {restA restB : List UInt8}
    (ha : Reads d first a) (hb : Reads d second b) (h : first ++ restA = second ++ restB) :
    a = b ∧ restA = restB := by
  have hrun := ha restA
  rw [h, hb restB] at hrun
  simpa [eq_comm] using hrun

end Reads

section Consumes

theorem Consumes.pure (a : α) : Consumes (Pure.pure a : Decoder ε α) fun b used => b = a ∧ used = [] := by
  intro stream b rest h
  rw [pure_run] at h
  obtain ⟨rfl, rfl⟩ : a = b ∧ stream = rest := by simpa using h
  exact ⟨[], rfl, rfl, rfl⟩

theorem Consumes.raw (x : Except ε α) : Consumes (Codec.raw x) fun a used => x = .ok a ∧ used = [] := by
  intro stream a rest h
  obtain ⟨hx, rfl⟩ := raw_eq_ok.mp h
  exact ⟨[], rfl, hx, rfl⟩

theorem Consumes.bind {d : Decoder ε α} {f : α → Decoder ε β} {p : α → List UInt8 → Prop}
    {q : α → β → List UInt8 → Prop} (hd : Consumes d p) (hf : ∀ a, Consumes (f a) (q a)) :
    Consumes (d >>= f) fun b used => ∃ a first second, used = first ++ second ∧ p a first ∧ q a b second := by
  intro stream b rest h
  obtain ⟨a, middle, ha, hb⟩ := bind_run_eq_ok.mp h
  obtain ⟨first, rfl, hp⟩ := hd _ _ _ ha
  obtain ⟨second, rfl, hq⟩ := hf a _ _ _ hb
  exact ⟨first ++ second, by simp, a, first, second, rfl, hp, hq⟩

theorem Consumes.mono {d : Decoder ε α} {p q : α → List UInt8 → Prop} (hd : Consumes d p)
    (h : ∀ a used, p a used → q a used) : Consumes d q := by
  intro stream a rest hs
  obtain ⟨used, rfl, hp⟩ := hd _ _ _ hs
  exact ⟨used, rfl, h _ _ hp⟩

theorem Consumes.traced {d : Decoder ε α} {p : α → List UInt8 → Prop} (hd : Consumes d p) :
    Consumes (traced d) fun result used => result.2 = used ∧ p result.1 used := by
  rintro stream ⟨a, used⟩ rest h
  obtain ⟨ha, rfl⟩ := traced_eq_ok.mp h
  obtain ⟨first, rfl, hp⟩ := hd _ _ _ ha
  exact ⟨first, rfl, by simp, hp⟩

theorem Consumes.times {d : Decoder ε α} {p : α → List UInt8 → Prop} (hd : Consumes d p) (n : Nat) :
    Consumes (times d n) fun as used =>
      as.length = n ∧ ∃ chunks, used = chunks.flatten ∧ List.Forall₂ p as chunks := by
  induction n with
  | zero =>
      refine (Consumes.pure []).mono ?_
      rintro as used ⟨rfl, rfl⟩
      exact ⟨rfl, [], rfl, .nil⟩
  | succ n ih =>
      refine (hd.bind fun a => ih.bind fun as => Consumes.pure (a :: as)).mono ?_
      rintro _ _ ⟨a, first, _, rfl, hp, as, second, _, rfl, ⟨rfl, chunks, rfl, hall⟩, rfl, rfl⟩
      exact ⟨rfl, first :: chunks, by simp, .cons hp hall⟩

end Consumes

section Refines

theorem Refines.refl (d : Decoder ε α) : Refines d d := fun _ _ h => h

theorem Refines.bind {strict d : Decoder ε α} {strictNext next : α → Decoder ε β}
    (hd : Refines strict d) (hnext : ∀ a, Refines (strictNext a) (next a)) :
    Refines (strict >>= strictNext) (d >>= next) := by
  rintro stream ⟨b, rest⟩ h
  obtain ⟨a, middle, ha, hb⟩ := bind_run_eq_ok.mp h
  exact bind_run_eq_ok.mpr ⟨a, middle, hd _ _ ha, hnext a _ _ hb⟩

theorem Refines.traced {strict d : Decoder ε α} (hd : Refines strict d) :
    Refines (traced strict) (traced d) := by
  rintro stream ⟨⟨a, used⟩, rest⟩ h
  obtain ⟨ha, hused⟩ := traced_eq_ok.mp h
  exact traced_eq_ok.mpr ⟨hd _ _ ha, hused⟩

theorem Refines.times {strict d : Decoder ε α} (hd : Refines strict d) (n : Nat) :
    Refines (times strict n) (times d n) := by
  induction n with
  | zero => exact Refines.refl _
  | succ n ih => exact hd.bind fun _ => ih.bind fun _ => Refines.refl _

theorem Refines.reads {strict d : Decoder ε α} {bytes : List UInt8} {a : α} (hd : Refines strict d)
    (h : Reads strict bytes a) : Reads d bytes a :=
  fun rest => hd _ _ (h rest)

end Refines

end Codec
