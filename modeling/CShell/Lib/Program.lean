import Mathlib.Logic.Basic

/-!
# Programs that can stop

A program reads and changes a state and either returns a value or stops with a
reason; the state it stops in is kept.  It is verified by rules for its parts: what
one part does is stated once, and a program of a hundred parts keeps an invariant
because each of them does.

## Main definitions

* `Program σ ε α` — programs, a monad.
* `Program.stop`, `Program.gets`, `Program.modify`, `Program.attempt` — the primitives.
* `Program.Meets P x Q E` — from `P`, a return of `x` meets `Q` and a stop meets `E`.

## Main results

* `Meets.bind`, `Meets.attempt`, `Meets.weaken` — composition.
-/

/-- A program on a state `σ` that returns an `α` or stops with an `ε`. -/
structure Program (σ ε α : Type) where
  run : σ → Except ε α × σ

namespace Program

variable {σ ε α β : Type}

instance : Monad (Program σ ε) where
  pure a := ⟨fun s => (.ok a, s)⟩
  bind x f := ⟨fun s =>
    match x.run s with
    | (.ok a, s) => (f a).run s
    | (.error e, s) => (.error e, s)⟩

/-- Stop. -/
def stop (e : ε) : Program σ ε α := ⟨fun s => (.error e, s)⟩

/-- Read the state. -/
def gets (f : σ → α) : Program σ ε α := ⟨fun s => (.ok (f s), s)⟩

/-- Change the state. -/
def modify (f : σ → σ) : Program σ ε Unit := ⟨fun s => (.ok (), f s)⟩

/-- Change the state and return what the change says. -/
def update (f : σ → α × σ) : Program σ ε α := ⟨fun s => (.ok (f s).1, (f s).2)⟩

/-- Go on behind a stop. -/
def attempt (x : Program σ ε α) : Program σ ε (Except ε α) := ⟨fun s => (.ok (x.run s).1, (x.run s).2)⟩

@[simp] theorem run_pure (a : α) (s : σ) : (pure a : Program σ ε α).run s = (.ok a, s) := rfl

theorem run_bind (x : Program σ ε α) (f : α → Program σ ε β) (s : σ) :
    (x >>= f).run s = match x.run s with
      | (.ok a, s) => (f a).run s
      | (.error e, s) => (.error e, s) := rfl

@[simp] theorem run_stop (e : ε) (s : σ) : (stop e : Program σ ε α).run s = (.error e, s) := rfl

@[simp] theorem run_gets (f : σ → α) (s : σ) : (gets f : Program σ ε α).run s = (.ok (f s), s) := rfl

@[simp] theorem run_modify (f : σ → σ) (s : σ) :
    (modify f : Program σ ε Unit).run s = (.ok (), f s) := rfl

@[simp] theorem run_update (f : σ → α × σ) (s : σ) :
    (update f : Program σ ε α).run s = (.ok (f s).1, (f s).2) := rfl

@[simp] theorem run_attempt (x : Program σ ε α) (s : σ) :
    (attempt x).run s = (.ok (x.run s).1, (x.run s).2) := rfl

variable {f : α → Program σ ε β} {x : Program σ ε α}

theorem run_bind_ok {s s' : σ} {a : α}
    (h : x.run s = (.ok a, s')) : (x >>= f).run s = (f a).run s' := by
  rw [run_bind, h]

theorem run_bind_error {s s' : σ} {e : ε}
    (h : x.run s = (.error e, s')) : (x >>= f).run s = (.error e, s') := by
  rw [run_bind, h]

/-! ### Specifications -/

/-- From `P`, a return meets `Q` and a stop meets `E`. -/
def Meets (P : σ → Prop) (x : Program σ ε α) (Q : α → σ → Prop) (E : ε → σ → Prop) : Prop :=
  ∀ s, P s → (∀ a s', x.run s = (.ok a, s') → Q a s') ∧ ∀ e s', x.run s = (.error e, s') → E e s'

section Meets

variable {P : σ → Prop} {Q : α → σ → Prop} {R : β → σ → Prop} {E : ε → σ → Prop}

theorem Meets.pure {a : α} (h : ∀ s, P s → Q a s) : Meets P (Pure.pure a) Q E := by
  intro s hs
  simp only [run_pure, Prod.mk.injEq, Except.ok.injEq, reduceCtorEq, false_and, false_implies,
    implies_true, and_true]
  rintro _ _ ⟨rfl, rfl⟩
  exact h s hs

theorem Meets.stop {e : ε} (h : ∀ s, P s → E e s) : Meets P (Program.stop e) Q E := by
  intro s hs
  simp only [run_stop, Prod.mk.injEq, Except.error.injEq, reduceCtorEq, false_and, false_implies,
    implies_true, true_and]
  rintro _ _ ⟨rfl, rfl⟩
  exact h s hs

theorem Meets.update {f : σ → α × σ} (h : ∀ s, P s → Q (f s).1 (f s).2) :
    Meets P (Program.update f) Q E := by
  intro s hs
  simp only [run_update, Prod.mk.injEq, Except.ok.injEq, reduceCtorEq, false_and, false_implies,
    implies_true, and_true]
  rintro _ _ ⟨rfl, rfl⟩
  exact h s hs

theorem Meets.gets {f : σ → α} (h : ∀ s, P s → Q (f s) s) : Meets P (Program.gets f) Q E :=
  Meets.update (f := fun s => (f s, s)) h

theorem Meets.modify {f : σ → σ} {Q : Unit → σ → Prop} (h : ∀ s, P s → Q () (f s)) :
    Meets P (Program.modify f) Q E :=
  Meets.update (f := fun s => ((), f s)) h

theorem Meets.bind (hx : Meets P x Q E)
    (hf : ∀ a, Meets (Q a) (f a) R E) : Meets P (x >>= f) R E := by
  intro s hs
  obtain ⟨hok, herror⟩ := hx s hs
  rcases hxs : x.run s with ⟨e | a, s'⟩
  · rw [run_bind_error hxs]
    refine ⟨fun _ _ h => (by cases h), fun e' s'' h => ?_⟩
    cases h
    exact herror e s' hxs
  · rw [run_bind_ok hxs]
    exact hf a s' (hok a s' hxs)

theorem Meets.attempt {Q : Except ε α → σ → Prop}
    (hx : Meets P x (fun a => Q (.ok a)) fun e => Q (.error e)) : Meets P (Program.attempt x) Q E := by
  intro s hs
  obtain ⟨hok, herror⟩ := hx s hs
  rw [run_attempt]
  refine ⟨fun r s' h => ?_, fun _ _ h => (by cases h)⟩
  cases h
  rcases hxs : x.run s with ⟨e | a, s'⟩
  · exact herror e s' hxs
  · exact hok a s' hxs

theorem Meets.weaken {P' : σ → Prop} {Q' : α → σ → Prop} {E' : ε → σ → Prop}
    (h : Meets P' x Q' E') (hp : ∀ s, P s → P' s) (hq : ∀ a s, Q' a s → Q a s)
    (he : ∀ e s, E' e s → E e s) : Meets P x Q E := by
  intro s hs
  obtain ⟨hok, herror⟩ := h s (hp s hs)
  exact ⟨fun a s' hx => hq a s' (hok a s' hx), fun e s' hx => he e s' (herror e s' hx)⟩

/-- What is known of a result, beside that it is the result. -/
theorem Meets.ran {s : σ} (h : Meets P x Q E) (hs : P s) :
    Meets (· = s) x (fun a s' => x.run s = (.ok a, s') ∧ Q a s') E := by
  rintro _ rfl
  obtain ⟨hok, herror⟩ := h _ hs
  exact ⟨fun a s' hrun => ⟨hrun, hok a s' hrun⟩, herror⟩

/-- A specification from less. -/
theorem Meets.pre {P' : σ → Prop} (h : Meets P' x Q E) (hp : ∀ s, P s → P' s) :
    Meets P x Q E := fun s hs => h s (hp s hs)

/-- What a precondition says of no state. -/
theorem Meets.of_and {p : Prop} (h : p → Meets P x Q E) : Meets (fun s => P s ∧ p) x Q E :=
  fun s hs => h hs.2 s hs.1

theorem Meets.exists {ι : Type} {P : ι → σ → Prop}
    (h : ∀ i, Meets (P i) x Q E) : Meets (fun s => ∃ i, P i s) x Q E :=
  fun s ⟨i, hs⟩ => h i s hs

/-- What is read is a part of the state. -/
theorem Meets.bind_gets {f : σ → α} {k : α → Program σ ε β}
    (h : ∀ a, Meets (fun s => P s ∧ f s = a) (k a) R E) : Meets P (Program.gets f >>= k) R E :=
  .bind (.gets fun _ hs => ⟨hs, rfl⟩) h

theorem Meets.ite {c : Prop} [Decidable c] {x y : Program σ ε α} (hx : c → Meets P x Q E)
    (hy : ¬c → Meets P y Q E) : Meets P (if c then x else y) Q E := by
  split
  · next h => exact hx h
  · next h => exact hy h

end Meets

end Program
