import CShell.Expand.Table

/-!
# Removing a pattern from a value

`${x#p}`, `${x##p}`, `${x%p}` and `${x%%p}` share one scan: it tests the parts of the
value that end, or begin, between two characters, from the left to the right.  Two of the
four modes want the first part that matches and stop there; the other two want the last
one, so they remember the best part so far until the scan is over.

Nothing is assumed of the matcher and of the decoder.

## Main definitions

* `selectTests` — the offsets the scan tests.

## Main results

* `selectOffset_congr` — the scan asks the matcher about those offsets only.
* `removePattern_optimal` — **the best part is removed, or nothing.**

## References

`src/expand.c` (`remove_pattern`).
-/

namespace CShell
namespace Expand

variable {d : Decoder} {value : Bytes} {accepts : ℕ → Bool} {first : Bool} {offset : ℕ}

/-! ### What the scan tests -/

/-- The offsets at which the loop of `remove_pattern` calls the matcher. -/
def selectTests (d : Decoder) (accepts : ℕ → Bool) (first : Bool) (value : Bytes) (offset : ℕ) :
    List ℕ :=
  if accepts offset && first then [offset]
  else if _h : offset < value.length then
    offset :: selectTests d accepts first value (offset + d.characterBytes (value.drop offset))
  else [offset]
termination_by value.length - offset
decreasing_by
  have := d.characterBytes_pos (value.drop offset)
  omega

theorem mem_selectTests_self (d : Decoder) (accepts : ℕ → Bool) (first : Bool) (value : Bytes)
    (offset : ℕ) : offset ∈ selectTests d accepts first value offset := by
  rw [selectTests]
  split
  · exact List.mem_cons_self
  · split
    · exact List.mem_cons_self
    · exact List.mem_cons_self

/-- No other offset makes a difference. -/
theorem selectOffset_congr {accepts' : ℕ → Bool} {selected : Option ℕ}
    (h : ∀ o ∈ selectTests d accepts first value offset, accepts' o = accepts o) :
    selectOffset d accepts' first value offset selected =
      selectOffset d accepts first value offset selected := by
  induction hn : value.length - offset using Nat.strong_induction_on generalizing offset selected with
  | _ n ih =>
    have hself := h offset (mem_selectTests_self _ _ _ _ _)
    rw [selectTests] at h
    conv_lhs => rw [selectOffset, hself]
    conv_rhs => rw [selectOffset]
    by_cases hstop : (accepts offset && first) = true
    · rw [if_pos hstop, if_pos hstop]
    · rw [if_neg hstop] at h ⊢
      rw [if_neg hstop]
      by_cases hlt : offset < value.length
      · rw [dif_pos hlt] at h ⊢
        rw [dif_pos hlt]
        have hpos := d.characterBytes_pos (value.drop offset)
        refine ih _ ?_ (fun o ho => h o (List.mem_cons_of_mem _ ho)) rfl
        omega
      · rw [dif_neg hlt, dif_neg hlt]

/-- Only places between characters are tested. -/
theorem edge_of_mem_selectTests {o : ℕ} (h : o ∈ selectTests d accepts first value offset) :
    Edge d value offset o := by
  induction hn : value.length - offset using Nat.strong_induction_on generalizing offset with
  | _ n ih =>
    rw [selectTests] at h
    split at h
    · rw [List.mem_singleton.mp h]
      exact .refl _
    · split at h
      · rename_i hlt
        rcases List.mem_cons.mp h with rfl | h
        · exact .refl _
        · have hpos := d.characterBytes_pos (value.drop offset)
          exact .step hlt (ih _ (by omega) h rfl)
      · rw [List.mem_singleton.mp h]
        exact .refl _

/-- The end is tested unless a match ends the scan before. -/
theorem length_mem_selectTests (hle : offset ≤ value.length)
    (h : ∀ o, Edge d value offset o → accepts o = true → first = false) :
    value.length ∈ selectTests d accepts first value offset := by
  induction hn : value.length - offset using Nat.strong_induction_on generalizing offset with
  | _ n ih =>
    have hgo : ¬(accepts offset && first) = true := by
      intro hstop
      rw [Bool.and_eq_true] at hstop
      have hno := h offset (.refl _) hstop.1
      rw [hstop.2] at hno
      cases hno
    rw [selectTests, if_neg hgo]
    by_cases hlt : offset < value.length
    · rw [dif_pos hlt]
      have hpos := d.characterBytes_pos (value.drop offset)
      have hnext : offset + d.characterBytes (value.drop offset) ≤ value.length := by
        have hwidth := d.characterBytes_le (show value.drop offset ≠ [] by simpa using hlt)
        rw [List.length_drop] at hwidth
        omega
      apply List.mem_cons_of_mem
      refine ih (value.length - (offset + d.characterBytes (value.drop offset))) ?_ hnext ?_ rfl
      · omega
      · intro o ho
        exact h o (.step hlt ho)
    · rw [dif_neg hlt, Nat.le_antisymm hle (Nat.not_lt.mp hlt)]
      exact List.mem_singleton_self _

/-! ### The removal -/

variable {env : ExpandEnv} {pattern : Bytes} {suffix longest : Bool}

/-- The offsets at which `remove_pattern` asks the matcher. -/
def removeTests (env : ExpandEnv) (value pattern : Bytes) (suffix longest : Bool) : List ℕ :=
  selectTests env.current (fun o => env.fs.fnmatch pattern (part suffix value o) false)
    (suffix == longest) value 0

/-- What `remove_pattern` computes depends on no other answer of the matcher. -/
theorem removePattern_congr {env' : ExpandEnv} (hdecoder : env'.current = env.current)
    (h : ∀ o ∈ removeTests env value pattern suffix longest,
      env'.fs.fnmatch pattern (part suffix value o) false =
        env.fs.fnmatch pattern (part suffix value o) false) :
    removePattern env' value pattern suffix longest =
      removePattern env value pattern suffix longest := by
  have hoffset : selectOffset env.current
      (fun o => env'.fs.fnmatch pattern (part suffix value o) false) (suffix == longest) value 0 none =
    selectOffset env.current
      (fun o => env.fs.fnmatch pattern (part suffix value o) false) (suffix == longest) value 0 none :=
    selectOffset_congr h
  unfold part at hoffset
  unfold removePattern
  rw [hdecoder]
  dsimp only
  rw [hoffset]

/-- **Pattern removal is optimal.** The smallest or the largest prefix or suffix between
characters that matches is removed, and nothing when none does; the result depends on the
answers of the matcher at the offsets tested only.  These lie between characters, the
beginning is one of them, and so is the end of the value unless a match ends the scan. -/
theorem removePattern_optimal (env : ExpandEnv) (value pattern : Bytes) (suffix longest : Bool) :
    Cut env.current (fun text => env.fs.fnmatch pattern text false) suffix longest value
      (removePattern env value pattern suffix longest) ∧
    (∀ env' : ExpandEnv, env'.current = env.current →
      (∀ o ∈ removeTests env value pattern suffix longest,
        env'.fs.fnmatch pattern (part suffix value o) false =
          env.fs.fnmatch pattern (part suffix value o) false) →
      removePattern env' value pattern suffix longest =
        removePattern env value pattern suffix longest) ∧
    (∀ o ∈ removeTests env value pattern suffix longest, Edge env.current value 0 o) ∧
    0 ∈ removeTests env value pattern suffix longest ∧
    (value.length ∈ removeTests env value pattern suffix longest ∨
      (suffix == longest) = true ∧ ∃ o, Edge env.current value 0 o ∧
        env.fs.fnmatch pattern (part suffix value o) false = true) := by
  refine ⟨cut_removePattern env value pattern suffix longest, fun _ => removePattern_congr,
    fun o => edge_of_mem_selectTests, mem_selectTests_self _ _ _ _ _, ?_⟩
  by_cases hstop : (suffix == longest) = true ∧ ∃ o, Edge env.current value 0 o ∧
      env.fs.fnmatch pattern (part suffix value o) false = true
  · exact .inr hstop
  · left
    apply length_mem_selectTests (Nat.zero_le _)
    intro o hedge ho
    rw [← Bool.not_eq_true]
    intro hmode
    exact hstop ⟨hmode, o, hedge, ho⟩

/-- A matcher that takes every text. -/
def anything : ExpandEnv := { ExpandEnv.bare with fs := { FileSystem.empty with
  fnmatch := fun _ _ _ => true } }

/-- With `${x#*}` the empty prefix of the value `a` matches, and the whole value is never
tested. -/
theorem removeTests_incomplete :
    ¬ ∀ (env : ExpandEnv) (value pattern : Bytes) (suffix longest : Bool),
      0 ∈ removeTests env value pattern suffix longest ∧
        value.length ∈ removeTests env value pattern suffix longest := by
  intro h
  have hmem := (h anything (ascii "a") (ascii "*") false false).2
  revert hmem
  unfold removeTests
  rw [selectTests]
  decide +kernel

end Expand
end CShell
