import CShell.Arithmetic.RoundTrip
import CShell.Utility.Model

/-!
# Assignments of the utilities

What `assign` does to a variable that takes values, as its callers need it: the variable
has its new value or none, every other one is as before, and no variable has become
readonly.

## Main definitions

* `Writable s x` — the name is a variable that takes values.
* `Changes s s' x value` — an assignment that goes through, seen from outside.

## Main results

* `Writable.assign` — **a writable variable takes a value, or is unset.**

## References

`src/utility.c` (`assign`).
-/

namespace CShell
namespace Utility

variable {F : Type} {s s' : State F} {x y : Bytes} {value : Option Bytes}

/-- The name is a variable that takes values. -/
def Writable (s : State F) (x : Bytes) : Prop :=
  validName x = true ∧ Binding.writable (s.binding x) = true

/-- What the value of a name is, if it is set. -/
def valueOf (s : State F) (x : Bytes) : Option Bytes := (s.binding x).bind VariableView.value

/-- An assignment that goes through, seen from outside. -/
structure Changes (s s' : State F) (x : Bytes) (value : Option Bytes) : Prop where
  reachable : s'.Reachable
  value : valueOf s' x = value
  writable : ∀ y, Writable s y → Writable s' y
  other : ∀ y, x ≠ y → s'.binding y = s.binding y
  arguments : s'.arguments = s.arguments
  info : s'.info = s.info

/-- **A writable variable takes a value, or is unset.** -/
theorem Writable.assign (hs : s.Reachable) (h : Writable s x) (value : Option Bytes) :
    ∃ s', assign s x value = (none, s') ∧ Changes s s' x value := by
  cases value with
  | some text =>
    have hset := State.setVariable_writable h.1 h.2 text
    have hbinding := State.binding_setVariable s x text
    refine ⟨(s.setVariable x text).2, ?_, ?_⟩
    · unfold Utility.assign
      simp only [hset]
    · refine ⟨hs.setVariable x text, ?_, ?_, ?_, (State.beside_setVariable s x text).arguments,
        (State.beside_setVariable s x text).info⟩
      · exact State.value_setVariable h.1 h.2 text
      · rintro y ⟨hy, hw⟩
        refine ⟨hy, ?_⟩
        rw [hbinding]
        split
        · cases hb : s.binding y with
          | none =>
            simp only [Binding.assign, Binding.writable, State.readonly_exportOnAssign]
            decide
          | some b =>
            rw [hb] at hw
            simp only [Binding.writable, Bool.not_eq_true'] at hw
            simp [Binding.assign, Binding.writable, hw, State.readonly_exportOnAssign]
        · exact hw
      · intro y hne
        rw [hbinding, if_neg (by simp [hne])]
  | none =>
    have hset := State.unsetVariable_writable h.1 h.2
    have hbinding := State.binding_unsetVariable hs.wellFormed x
    refine ⟨(s.unsetVariable x).2, ?_, ?_⟩
    · unfold Utility.assign
      simp only [hset]
    · refine ⟨hs.unsetVariable x, ?_, ?_, ?_, (State.beside_unsetVariable s x).arguments,
        (State.beside_unsetVariable s x).info⟩
      · rw [valueOf, hbinding, if_pos ⟨h.1, rfl⟩]
        have hw := h.2
        cases hb : s.binding x with
        | none => rfl
        | some b =>
          rw [hb, Binding.writable, Bool.not_eq_true'] at hw
          simp [Binding.unset, hw]
      · rintro y ⟨hy, hw⟩
        refine ⟨hy, ?_⟩
        rw [hbinding]
        split
        · cases hb : s.binding y with
          | none => rfl
          | some b =>
            rw [hb, Binding.writable, Bool.not_eq_true'] at hw
            simp [Binding.unset, Binding.writable, hw]
        · exact hw
      · intro y hne
        rw [hbinding, if_neg (by simp [hne])]

end Utility
end CShell
