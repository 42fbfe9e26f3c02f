import Mathlib.Order.Basic
import Mathlib.Data.Nat.Init

/-!
# Computations bounded by fuel

A recursion without an evident measure is written with a fuel argument and
answers `none` when it runs dry.  Such a definition never changes an answer when
it is given more fuel, so that "it returns `r` on some fuel" composes: this file
has the order on partial answers behind that fact, and the rules for stepping
through a computation without counting.

## Main definitions

* `Fuel.Le x y` — `y` answers whatever `x` answers.
* `Fuel.Mono f` — more fuel never changes an answer of `f`.
* `Fuel.Returns f r` — `f` answers `r` on some fuel.
* `Fuel.Always P x` — whatever `x` answers satisfies `P`.

## Main results

* `Fuel.Le.bind`, `Fuel.Le.ite` — the order is a congruence.
* `Fuel.Returns.unique` — **a monotone computation has at most one answer.**
* `Fuel.Returns.bind` — running one computation after another.
-/

namespace Fuel

universe u

variable {α β : Type u}

/-- `y` answers whatever `x` answers. -/
def Le (x y : Option α) : Prop := ∀ r, x = some r → y = some r

@[refl] theorem Le.refl (x : Option α) : Le x x := fun _ h => h

theorem Le.trans {x y z : Option α} (hxy : Le x y) (hyz : Le y z) : Le x z :=
  fun r h => hyz r (hxy r h)

theorem Le.none (x : Option α) : Le none x := fun _ h => by cases h

theorem Le.bind {x y : Option α} {f g : α → Option β} (hxy : Le x y) (hfg : ∀ a, Le (f a) (g a)) :
    Le (x >>= f) (y >>= g) := by
  intro r hr
  cases x with
  | none => cases hr
  | some a =>
    rw [hxy a rfl]
    exact hfg a r hr

theorem Le.ite {c : Prop} [Decidable c] {x y x' y' : Option α} (h : Le x x') (h' : Le y y') :
    Le (if c then x else y) (if c then x' else y') := by
  split
  · exact h
  · exact h'

/-- More fuel never changes an answer. -/
def Mono (f : ℕ → Option α) : Prop := ∀ n, Le (f n) (f (n + 1))

theorem Mono.le {f : ℕ → Option α} (hf : Mono f) {m n : ℕ} (hmn : m ≤ n) : Le (f m) (f n) := by
  induction hmn with
  | refl => exact Le.refl _
  | step _ ih => exact ih.trans (hf _)

/-- The computation answers `r` on some fuel. -/
def Returns (f : ℕ → Option α) (r : α) : Prop := ∃ n, f n = some r

/-- **A monotone computation has at most one answer.** -/
theorem Returns.unique {f : ℕ → Option α} (hf : Mono f) {r r' : α} (h : Returns f r)
    (h' : Returns f r') : r = r' := by
  obtain ⟨m, hm⟩ := h
  obtain ⟨n, hn⟩ := h'
  have hm' := hf.le (Nat.le_max_left m n) _ hm
  have hn' := hf.le (Nat.le_max_right m n) _ hn
  exact Option.some.inj (hm'.symm.trans hn')

/-- An answer on a given fuel is the answer. -/
theorem Returns.eq_of_some {f : ℕ → Option α} (hf : Mono f) {r r' : α} {n : ℕ} (h : Returns f r)
    (hn : f n = some r') : r' = r :=
  Returns.unique hf ⟨n, hn⟩ h

/-- Running one computation after another, on the fuel of both. -/
theorem Returns.bind {f : ℕ → Option α} {g : α → ℕ → Option β} (hf : Mono f)
    (hg : ∀ a, Mono (g a)) {a : α} {r : β} (ha : Returns f a) (hr : Returns (g a) r) :
    Returns (fun n => f n >>= fun x => g x n) r := by
  obtain ⟨m, hm⟩ := ha
  obtain ⟨n, hn⟩ := hr
  refine ⟨max m n, ?_⟩
  simp only [hf.le (Nat.le_max_left m n) _ hm, Option.bind_eq_bind, Option.bind_some]
  exact (hg a).le (Nat.le_max_right m n) _ hn

/-- A computation that spends one unit before doing the work of another. -/
theorem Returns.succ {f g : ℕ → Option α} {r : α} (h : Returns g r) (hstep : ∀ n, f (n + 1) = g n) :
    Returns f r := by
  obtain ⟨n, hn⟩ := h
  exact ⟨n + 1, (hstep n).trans hn⟩

/-! ### What holds of every answer -/

/-- Every answer satisfies `P`; a computation without one does so vacuously. -/
def Always (P : α → Prop) (x : Option α) : Prop := ∀ r, x = some r → P r

theorem Always.some {P : α → Prop} {a : α} (h : P a) : Always P (some a) := by
  intro r hr
  cases hr
  exact h

theorem Always.none (P : α → Prop) : Always P none := fun _ h => by cases h

theorem Always.bind {P : α → Prop} {Q : β → Prop} {x : Option α} {f : α → Option β}
    (hx : Always P x) (hf : ∀ a, P a → Always Q (f a)) : Always Q (x >>= f) := by
  intro r hr
  cases x with
  | none => cases hr
  | some a => exact hf a (hx a rfl) r hr

theorem Always.imp {P Q : α → Prop} {x : Option α} (hx : Always P x) (h : ∀ a, P a → Q a) :
    Always Q x := fun r hr => h r (hx r hr)

theorem Always.and {P Q : α → Prop} {x : Option α} (hP : Always P x) (hQ : Always Q x) :
    Always (fun a => P a ∧ Q a) x := fun r hr => ⟨hP r hr, hQ r hr⟩

end Fuel
