import CShell.Expand.Word
import CShell.State.Reachable

/-!
# Failed evaluations leave no trace

Assignments of an arithmetic expression or of a word go to the live state while
the evaluation may still fail.  Both evaluators take a checkpoint first and put
it back on failure; as a checkpoint of a reachable state is that state, nothing
of the failed evaluation remains.

## Main results

* `Arithmetic.arithEval_of_failed`, `expandWord_of_failed` — the state and the
  output of each evaluator after a failure.
* `evaluation_transactional` — **both evaluators are all or nothing.**
-/

namespace CShell

open Arithmetic Expand

variable {F : Type}

/-- A failed arithmetic evaluation writes no value and restores the state. -/
theorem Arithmetic.arithEval_of_failed {s : State F} (hs : s.Reachable) {text : Bytes}
    (h : (arithEval s text).result ≠ .ok) :
    (arithEval s text).out = none ∧ (arithEval s text).state = s := by
  have hsave : s.save = some s := hs.save_eq
  unfold arithEval at h ⊢
  simp only [hsave] at h ⊢
  split at h
  · exact ⟨rfl, rfl⟩
  · split at h
    · exact absurd rfl h
    · rename_i herror
      rw [if_neg herror]
      exact ⟨rfl, rfl⟩

/-- A failed word expansion has no output and restores the state. -/
theorem expandWord_of_failed {s : State F} (hs : s.Reachable) {env : ExpandEnv} {stack : ℕ}
    {word : Token} {options : ExpandOptions F}
    (h : (expandWord env stack s word options).result ≠ .ok) :
    (expandWord env stack s word options).out = {} ∧
      (expandWord env stack s word options).state = s := by
  have hsave : s.save = some s := hs.save_eq
  unfold expandWord at h ⊢
  cases hprepare : prepare env word with
  | error report =>
    cases report with
    | none => exact ⟨rfl, rfl⟩
    | some report => exact ⟨rfl, rfl⟩
  | ok prepared =>
    simp only [hprepare, hsave] at h ⊢
    split at h
    · exact absurd rfl h
    · rename_i hresult
      rw [if_neg hresult]
      exact ⟨rfl, rfl⟩

/-- **Both evaluators are all or nothing.**  In every reachable state, whatever an
expression or a word assigned before it failed, the whole state is the one
before the call, and no output is left. -/
theorem evaluation_transactional (s : State F) (hs : s.Reachable) :
    (∀ text, (arithEval s text).result ≠ .ok →
      (arithEval s text).out = none ∧ (arithEval s text).state = s) ∧
    (∀ env stack word options, (expandWord env stack s word options).result ≠ .ok →
      (expandWord env stack s word options).out = {} ∧
        (expandWord env stack s word options).state = s) :=
  ⟨fun _ h => arithEval_of_failed hs h, fun _ _ _ _ h => expandWord_of_failed hs h⟩

/-- `x=1,1/0` in a fresh shell assigns `x` before it fails. -/
theorem evaluation_transactional_division :
    let s : State Unit := State.create [] [] [] 1 .stdin 0 false
    (arithEval s (ascii "x=1,1/0")).out = none ∧ (arithEval s (ascii "x=1,1/0")).state = s :=
  (evaluation_transactional _ (.create ..)).1 (ascii "x=1,1/0") (by decide)

end CShell
