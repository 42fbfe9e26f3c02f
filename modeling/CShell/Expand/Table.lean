import CShell.Expand.Header
import CShell.State.Scope

/-!
# The table of parameter expansions

What an expansion answers depends on the form it is written in and on whether the
parameter is unset, null or neither.  Here the table is written down as it stands in
the standard, and `parameter` is shown to go by it: it reads the form, looks the
parameter up, and either answers at once or has the operand expanded, once, and makes
something of what comes back.

An answer keeps the expansion of the operand as a question, so that its type shows
whether the operand is expanded at all.

## Main definitions

* `Denotes` — the value of a parameter.
* `choice` — the table.
* `Answers` — what every form comes to.

## Main results

* `parameter_table` — **`parameter` answers by the table.**

## References

`src/expand.c` (`parameter_value`, `assign`, `remove_pattern`, `parameter`).
-/

namespace CShell.Expand

open Arithmetic (decimal)

variable {F : Type}

/-! ### Parameters -/

/-- The number a string of digits spells. -/
def number (digits : Bytes) : ℕ := digits.foldl (fun n byte => n * 10 + (byte.toNat - 48)) 0

/-- The letters of the options that are on. -/
def optionWord (options : UInt32) : Bytes :=
  (optionLetters.filter fun o => hasBit options o.1).map fun o => byteOf o.2

/-- The value of a parameter, `none` if it is unset: a variable, a positional parameter
whose number fits `size_t`, or a special one. -/
inductive Denotes (s : State F) : Bytes → Option Bytes → Prop
  | named {name : Bytes} (h : validName name = true) :
      Denotes s name ((s.binding name).bind VariableView.value)
  | positional {name : Bytes} (hne : name ≠ []) (h : name.all digit = true)
      (hsize : number name < 2 ^ 64) : Denotes s name (s.parameter (number name))
  | count : Denotes s [byteOf '#'] (some (decimal s.info.argumentCount))
  | status : Denotes s [byteOf '?'] (some (decimal s.info.lastStatus))
  | shell : Denotes s [byteOf '$'] (some (decimal s.info.shellPid))
  | background (h : s.info.backgroundPid ≠ 0) :
      Denotes s [byteOf '!'] (some (decimal s.info.backgroundPid))
  | noBackground (h : s.info.backgroundPid = 0) : Denotes s [byteOf '!'] none
  | options : Denotes s [byteOf '-'] (some (optionWord s.info.options))

/-- The digits read so far bound what the whole string spells. -/
theorem le_foldl_number (digits : Bytes) (n : ℕ) :
    n ≤ digits.foldl (fun n byte => n * 10 + (byte.toNat - 48)) n := by
  induction digits generalizing n with
  | nil => exact Nat.le_refl n
  | cons byte digits ih =>
    refine Nat.le_trans ?_ (ih _)
    change n ≤ n * 10 + (byte.toNat - 48)
    omega

/-- The overflow check refuses no index that fits. -/
theorem parameterIndex_fold (digits : Bytes) (n : ℕ)
    (h : digits.foldl (fun n byte => n * 10 + (byte.toNat - 48)) n < 2 ^ 64) :
    digits.foldlM (fun index byte =>
      let d := byte.toNat - '0'.toNat
      if (2 ^ 64 - 1 - d) / 10 < index then none else some (index * 10 + d)) n
      = some (digits.foldl (fun n byte => n * 10 + (byte.toNat - 48)) n) := by
  induction digits generalizing n with
  | nil => rfl
  | cons byte digits ih =>
    have hzero : '0'.toNat = 48 := rfl
    have hbound := Nat.lt_of_le_of_lt
      (le_foldl_number digits (n * 10 + (byte.toNat - 48))) h
    rw [List.foldlM_cons]
    dsimp only
    rw [if_neg (by rw [hzero]; omega), hzero]
    exact ih _ h

theorem digit_ne {byte : UInt8} (h : digit byte = true) : byte ≠ byteOf '@' ∧ byte ≠ byteOf '*' := by
  constructor <;>
  · rintro rfl
    exact absurd h (by decide)

theorem nameStart_ne {byte : UInt8} (h : nameStart byte = true) :
    byte ≠ byteOf '@' ∧ byte ≠ byteOf '*' := by
  constructor <;>
  · rintro rfl
    exact absurd h (by decide)

/-- A parameter with a value is no list. -/
theorem Denotes.not_list {s : State F} {name : Bytes} {value : Option Bytes}
    (h : Denotes s name value) : (name == ascii "@" || name == ascii "*") = false := by
  have hlist : ∀ byte rest, byte ≠ byteOf '@' ∧ byte ≠ byteOf '*' →
      (byte :: rest == ascii "@" || byte :: rest == ascii "*") = false := by
    rintro byte rest ⟨h₁, h₂⟩
    have he : ascii "@" = [byteOf '@'] ∧ ascii "*" = [byteOf '*'] := by decide
    rw [he.1, he.2]
    simp [h₁, h₂]
  cases h with
  | @named name h =>
    cases name with
    | nil => cases h
    | cons byte rest =>
      rw [validName, Bool.and_eq_true] at h
      exact hlist byte rest (nameStart_ne h.1)
  | @positional name hne h hsize =>
    cases name with
    | nil => exact absurd rfl hne
    | cons byte rest =>
      rw [List.all_cons, Bool.and_eq_true] at h
      exact hlist byte rest (digit_ne h.1)
  | count | status | shell | background | noBackground | options => decide

/-- The value that is looked up is the one the parameter has. -/
theorem parameterValue_of_denotes {s : State F} {name : Bytes} {value : Option Bytes}
    (h : Denotes s name value) : parameterValue s name = .ok value := by
  cases h with
  | @named name h =>
    cases name with
    | nil => cases h
    | cons byte rest =>
      have hstart : nameStart byte = true := by
        rw [validName, Bool.and_eq_true] at h
        exact h.1
      rw [parameterValue, if_pos hstart, State.getVariable, h]
      simp only [Bool.not_true, Bool.false_eq_true, if_false, State.binding]
      cases State.findVariable s.vars (byte :: rest) <;> rfl
  | @positional name hne h hsize =>
    cases name with
    | nil => exact absurd rfl hne
    | cons byte rest =>
      have hdigit : digit byte = true := by
        rw [List.all_cons, Bool.and_eq_true] at h
        exact h.1
      have hindex : parameterIndex (byte :: rest) = some (number (byte :: rest)) :=
        parameterIndex_fold (byte :: rest) 0 hsize
      rw [parameterValue, if_neg (by simp [nameStart_of_digit hdigit]), if_pos hdigit, hindex]
  | count | status | shell | options => rfl
  | background h =>
    change Except.ok (if s.info.backgroundPid = 0 then none else _) = _
    rw [if_neg h]
  | noBackground h =>
    change Except.ok (if s.info.backgroundPid = 0 then none else _) = _
    rw [if_pos h]

/-! ### The table -/

/-- What the table looks at. -/
inductive Standing
  | unset
  | null
  | set
  deriving DecidableEq, Repr

/-- How a parameter stands. -/
def standing : Option Bytes → Standing
  | none => .unset
  | some [] => .null
  | some (_ :: _) => .set

/-- What the table says: the value of the parameter, an empty one, the word, the word
after it was assigned, or a failure with the word as its message. -/
inductive Choice
  | parameter
  | null
  | word
  | assign
  | fail
  deriving DecidableEq, Repr

/-- The table, by operator, colon and standing. -/
def choice : Chooser → Bool → Standing → Choice
  | .minus, true, .set => .parameter
  | .minus, true, .null => .word
  | .minus, true, .unset => .word
  | .minus, false, .set => .parameter
  | .minus, false, .null => .null
  | .minus, false, .unset => .word
  | .equals, true, .set => .parameter
  | .equals, true, .null => .assign
  | .equals, true, .unset => .assign
  | .equals, false, .set => .parameter
  | .equals, false, .null => .null
  | .equals, false, .unset => .assign
  | .question, true, .set => .parameter
  | .question, true, .null => .fail
  | .question, true, .unset => .fail
  | .question, false, .set => .parameter
  | .question, false, .null => .null
  | .question, false, .unset => .fail
  | .plus, true, .set => .word
  | .plus, true, .null => .null
  | .plus, true, .unset => .null
  | .plus, false, .set => .word
  | .plus, false, .null => .word
  | .plus, false, .unset => .null

/-- The form asks for the value itself. -/
def Form.NeedsValue : Form → Prop
  | .plain | .length | .remove _ _ => True
  | .choose _ _ => False

/-! ### Answers -/

/-- A reply at once, or the operand expanded behind `into` and what is made of it. -/
inductive Answer (F : Type)
  | now (reply : Reply F)
  | operand (into : Expansion) (use : Reply F → Reply F)

/-- The reply, given the expansion of the operand. -/
def Answer.run (expand : Expansion → Reply F) : Answer F → Reply F
  | .now reply => reply
  | .operand into use => use (expand into)

/-- A reply with a value. -/
def valued (f : Fragment) (work : Work F) (out : Expansion) (text : Bytes) : Reply F :=
  ⟨.ok, work, scalar out text f.quote .parameter⟩

/-- The characters of a text. -/
inductive Characters (d : Decoder) : Bytes → List Bytes → Prop
  | nil : Characters d [] []
  | cons {c rest : Bytes} {chars : List Bytes} (hne : c ≠ [])
      (hwidth : d.characterBytes (c ++ rest) = c.length) (hrest : Characters d rest chars) :
      Characters d (c ++ rest) (c :: chars)

/-- Places between the characters of a text, one behind another. -/
inductive Edge (d : Decoder) (value : Bytes) : ℕ → ℕ → Prop
  | refl (offset : ℕ) : Edge d value offset offset
  | step {offset last : ℕ} (hlt : offset < value.length)
      (h : Edge d value (offset + d.characterBytes (value.drop offset)) last) :
      Edge d value offset last

/-- The prefix up to a place, or the suffix behind it. -/
def part (suffix : Bool) (value : Bytes) (offset : ℕ) : Bytes :=
  if suffix then value.drop offset else value.take offset

/-- A text without its smallest or largest prefix or suffix that matches. -/
inductive Cut (d : Decoder) (accepts : Bytes → Bool) (suffix longest : Bool) (value : Bytes) :
    Bytes → Prop
  | whole (h : ∀ offset, Edge d value 0 offset → accepts (part suffix value offset) = false) :
      Cut d accepts suffix longest value value
  | cut {offset : ℕ} (hedge : Edge d value 0 offset)
      (haccepts : accepts (part suffix value offset) = true)
      (hbest : ∀ other, Edge d value 0 other → accepts (part suffix value other) = true →
        if longest then (part suffix value other).length ≤ (part suffix value offset).length
        else (part suffix value offset).length ≤ (part suffix value other).length) :
      Cut d accepts suffix longest value (part (!suffix) value offset)

/-- The outcomes of an assignment: a name that is no variable's and a readonly
variable are refused, and any other variable has the text from then on. -/
inductive Assigns (s : State F) (name text : Bytes) : ExpandResult → State F → Prop
  | invalid (h : validName name = false) : Assigns s name text .invalid s
  | readonly (hname : validName name = true) (h : Binding.writable (s.binding name) = false) :
      Assigns s name text .readonly s
  | stored {s' : State F} (hname : validName name = true)
      (h : Binding.writable (s.binding name) = true)
      (hvalue : s'.binding name = some ⟨some text, State.exportOnAssign s.info.options
        (((s.binding name).map VariableView.attributes).getD 0)⟩)
      (hothers : ∀ other, other ≠ name → s'.binding other = s.binding other)
      (hbeside : State.Beside s s') : Assigns s name text .ok s'

section Answers

variable (env : ExpandEnv) (word : Token) (index : ℕ) (f : Fragment) (work : Work F)
  (out : Expansion) (name : Bytes) (operand operandStop : ℕ)

/-- What is made of an operand that is to be assigned. -/
inductive Stores : Reply F → Reply F → Prop
  | failed {r : Reply F} (h : r.result ≠ .ok) : Stores r { r with out }
  | refused {r : Reply F} {result : ExpandResult} {state : State F} (h : r.result = .ok)
      (hassigns : Assigns r.work.state name (flatten r.out) result state) (hne : result ≠ .ok) :
      Stores r ⟨result, { r.work with state }, out⟩
  | stored {r : Reply F} {state : State F} (h : r.result = .ok)
      (hassigns : Assigns r.work.state name (flatten r.out) .ok state) :
      Stores r (valued f { r.work with state } out (flatten r.out))

/-- What is made of an operand that is a message. -/
inductive Complains : Reply F → Reply F → Prop
  | failed {r : Reply F} (h : r.result ≠ .ok) : Complains r { r with out }
  | bare {r : Reply F} (h : r.result = .ok) (hoperand : operand = operandStop) :
      Complains r ⟨.unset, r.work.fail word .unset (some index)
        (ascii "parameter is unset or empty"), out⟩
  | message {r : Reply F} (h : r.result = .ok) (hoperand : operand ≠ operandStop) :
      Complains r ⟨.unset, r.work.fail word .unset (some index) (flatten r.out), out⟩

/-- What is made of an operand that is a pattern. -/
inductive Removes (suffix longest : Bool) (value : Bytes) : Reply F → Reply F → Prop
  | failed {r : Reply F} (h : r.result ≠ .ok) : Removes suffix longest value r { r with out }
  | unusable {r : Reply F} {result : ExpandResult} {fields : Output} {error : ExpandError}
      (h : r.result = .ok) (hfields : expandFields env r.work.state r.out = (result, fields, error))
      (hne : result ≠ .ok) :
      Removes suffix longest value r ⟨result, { r.work with error }, out⟩
  | several {r : Reply F} {fields : Output} {error : ExpandError} (h : r.result = .ok)
      (hfields : expandFields env r.work.state r.out = (.ok, fields, error))
      (hmany : 1 < fields.fields.length) :
      Removes suffix longest value r ⟨.invalid, { r.work with error }, out⟩
  | removed {r : Reply F} {fields : Output} {error : ExpandError} {rest : Bytes}
      (h : r.result = .ok) (hfields : expandFields env r.work.state r.out = (.ok, fields, error))
      (hone : fields.fields.length ≤ 1)
      (hcut : Cut env.current (fun text => env.fs.fnmatch (fields.fields.headD []) text false)
        suffix longest value rest) :
      Removes suffix longest value r (valued f { r.work with error } out rest)

/-- What the choices of the table come to. -/
inductive Chooses (value : Option Bytes) : Choice → Answer F → Prop
  | parameter {text : Bytes} (h : value = some text) :
      Chooses value .parameter (.now (valued f work out text))
  | null : Chooses value .null (.now (valued f work out []))
  | empty (h : emptyOperand word.raw operand operandStop = true) :
      Chooses value .word (.now (valued f work out []))
  | word (h : emptyOperand word.raw operand operandStop = false) :
      Chooses value .word (.operand out fun r => r)
  | assign {use : Reply F → Reply F} (huse : ∀ r, Stores f out name r (use r)) :
      Chooses value .assign (.operand { context := .assignment } use)
  | fail {use : Reply F → Reply F}
      (huse : ∀ r, Complains word index out operand operandStop r (use r)) :
      Chooses value .fail (.operand { context := .assignment } use)

/-- What every form comes to.  Under `nounset` a parameter without a value fails where
the value itself is asked for; otherwise it counts as empty there. -/
inductive Answers (value : Option Bytes) : Form → Answer F → Prop
  | unset {form : Form} (hform : form.NeedsValue) (hvalue : value = none)
      (hoption : hasBit work.state.info.options Opt.nounset = true) :
      Answers value form (.now ⟨.unset, work.fail word .unset (some index) name, out⟩)
  | plain (h : value = none → hasBit work.state.info.options Opt.nounset = false) :
      Answers value .plain (.now (valued f work out (value.getD [])))
  | length {chars : List Bytes}
      (h : value = none → hasBit work.state.info.options Opt.nounset = false)
      (hchars : Characters env.current (value.getD []) chars) :
      Answers value .length (.now (valued f work out (decimal chars.length)))
  | choose {colon : Bool} {op : Chooser} {answer : Answer F}
      (h : Chooses word index f work out name operand operandStop value
        (choice op colon (standing value)) answer) : Answers value (.choose colon op) answer
  | remove {suffix longest : Bool} {use : Reply F → Reply F}
      (h : value = none → hasBit work.state.info.options Opt.nounset = false)
      (huse : ∀ r, Removes env f out suffix longest (value.getD []) r (use r)) :
      Answers value (.remove suffix longest) (.operand { context := .pattern } use)

end Answers

/-! ### The steps of `parameter` -/

theorem characters_count (d : Decoder) (value : Bytes) :
    ∃ chars, Characters d value chars ∧ characterCount d value = chars.length := by
  fun_induction characterCount d value with
  | case1 => exact ⟨[], .nil, rfl⟩
  | case2 byte rest ih =>
    obtain ⟨chars, hchars, hcount⟩ := ih
    have hpos := d.characterBytes_pos (byte :: rest)
    have hle := d.characterBytes_le (List.cons_ne_nil byte rest)
    have hdrop : rest.drop (d.characterBytes (byte :: rest) - 1)
        = (byte :: rest).drop (d.characterBytes (byte :: rest)) := by
      rw [← List.drop_succ_cons, Nat.sub_add_cancel hpos]
    have happend := List.take_append_drop (d.characterBytes (byte :: rest)) (byte :: rest)
    refine ⟨(byte :: rest).take (d.characterBytes (byte :: rest)) :: chars, ?_, by
      rw [hcount, List.length_cons]⟩
    have hcons := @Characters.cons d ((byte :: rest).take (d.characterBytes (byte :: rest)))
      ((byte :: rest).drop (d.characterBytes (byte :: rest))) chars
      (List.ne_nil_of_length_pos (by rw [List.length_take]; omega))
      (by rw [happend, List.length_take, Nat.min_eq_left hle]) (hdrop ▸ hchars)
    rwa [happend] at hcons

section Cutting

variable {d : Decoder} {value : Bytes} {accepts : ℕ → Bool}

theorem Edge.le {offset last : ℕ} (h : Edge d value offset last) : offset ≤ last := by
  induction h with
  | refl offset => exact Nat.le_refl offset
  | step hlt h ih => exact Nat.le_trans (Nat.le_add_right _ _) ih

/-- The next place is the first or lies behind the next character. -/
theorem Edge.cases {offset last : ℕ} (h : Edge d value offset last) :
    last = offset ∨ offset < value.length ∧
      Edge d value (offset + d.characterBytes (value.drop offset)) last := by
  cases h with
  | refl => exact .inl rfl
  | step hlt h => exact .inr ⟨hlt, h⟩

/-- The round at a place that is accepted ends the loop, or becomes the selection. -/
theorem selectOffset_accepted {first : Bool} {offset : ℕ} {selected : Option ℕ}
    (h : accepts offset = true) :
    selectOffset d accepts first value offset selected
      = if first = true then some offset
        else if offset < value.length then
          selectOffset d accepts first value (offset + d.characterBytes (value.drop offset))
            (some offset)
        else some offset := by
  rw [selectOffset, h, Bool.true_and]
  simp only [if_true]
  split
  · rfl
  · exact dite_eq_ite

theorem selectOffset_refused {first : Bool} {offset : ℕ} {selected : Option ℕ}
    (h : accepts offset = false) :
    selectOffset d accepts first value offset selected
      = if offset < value.length then
          selectOffset d accepts first value (offset + d.characterBytes (value.drop offset)) selected
        else selected := by
  rw [selectOffset, h, Bool.false_and]
  simp only [Bool.false_eq_true, if_false]
  exact dite_eq_ite

/-- The loop finds the first place that is accepted, or the last one. -/
theorem selectOffset_best (first : Bool) (offset : ℕ) (selected : Option ℕ)
    (hfirst : first = true → selected = none) :
    (selectOffset d accepts first value offset selected = selected ∧
      ∀ last, Edge d value offset last → accepts last = false) ∨
    ∃ best, selectOffset d accepts first value offset selected = some best ∧
      Edge d value offset best ∧ accepts best = true ∧
      ∀ last, Edge d value offset last → accepts last = true →
        if first = true then best ≤ last else last ≤ best := by
  induction hsteps : value.length - offset using Nat.strong_induction_on
    generalizing offset selected with
  | _ steps ih =>
    have hpos := d.characterBytes_pos (value.drop offset)
    cases haccepts : accepts offset with
    | true =>
      right
      rw [selectOffset_accepted haccepts]
      by_cases hmode : first = true
      · rw [if_pos hmode]
        refine ⟨offset, rfl, .refl offset, haccepts, fun last hlast _ => ?_⟩
        rw [if_pos hmode]
        exact hlast.le
      · rw [if_neg hmode]
        by_cases hlt : offset < value.length
        · rw [if_pos hlt]
          rcases ih _ (by omega) (offset + d.characterBytes (value.drop offset)) (some offset)
            (fun h => absurd h hmode) rfl with ⟨heq, hnone⟩ | ⟨best, heq, hedge, hbest, hall⟩
          · -- nothing behind it is accepted
            refine ⟨offset, heq, .refl offset, haccepts, fun last hlast hok => ?_⟩
            rw [if_neg hmode]
            rcases hlast.cases with rfl | ⟨_, hlast⟩
            · exact Nat.le_refl _
            · rw [hnone last hlast] at hok
              cases hok
          · refine ⟨best, heq, .step hlt hedge, hbest, fun last hlast hok => ?_⟩
            rcases hlast.cases with rfl | ⟨_, hlast⟩
            · rw [if_neg hmode]
              exact Nat.le_trans (Nat.le_add_right _ _) hedge.le
            · exact hall last hlast hok
        · rw [if_neg hlt]
          refine ⟨offset, rfl, .refl offset, haccepts, fun last hlast _ => ?_⟩
          rw [if_neg hmode]
          rcases hlast.cases with rfl | ⟨hlt', _⟩
          · exact Nat.le_refl _
          · exact absurd hlt' hlt
    | false =>
      rw [selectOffset_refused haccepts]
      by_cases hlt : offset < value.length
      · rw [if_pos hlt]
        rcases ih _ (by omega) (offset + d.characterBytes (value.drop offset)) selected hfirst rfl
          with ⟨heq, hnone⟩ | ⟨best, heq, hedge, hbest, hall⟩
        · refine .inl ⟨heq, fun last hlast => ?_⟩
          rcases hlast.cases with rfl | ⟨_, hlast⟩
          · exact haccepts
          · exact hnone last hlast
        · refine .inr ⟨best, heq, .step hlt hedge, hbest, fun last hlast hok => ?_⟩
          rcases hlast.cases with rfl | ⟨_, hlast⟩
          · rw [haccepts] at hok
            cases hok
          · exact hall last hlast hok
      · rw [if_neg hlt]
        refine .inl ⟨rfl, fun last hlast => ?_⟩
        rcases hlast.cases with rfl | ⟨hlt', _⟩
        · exact haccepts
        · exact absurd hlt' hlt

end Cutting

/-- What is removed is the smallest or the largest part that matches. -/
theorem cut_removePattern (env : ExpandEnv) (value pattern : Bytes) (suffix longest : Bool) :
    Cut env.current (fun text => env.fs.fnmatch pattern text false) suffix longest value
      (removePattern env value pattern suffix longest) := by
  have hpart : ∀ offset, (if suffix then value.drop offset else value.take offset)
      = part suffix value offset := fun offset => rfl
  have hrest : ∀ offset, (if suffix then value.take offset else value.drop offset)
      = part (!suffix) value offset := by
    intro offset
    cases suffix <;> rfl
  rw [removePattern]
  simp only [hpart, hrest]
  rcases @selectOffset_best env.current value
      (fun offset => env.fs.fnmatch pattern (part suffix value offset) false)
      (suffix == longest) 0 none (fun _ => rfl) with ⟨heq, hnone⟩ | ⟨best, heq, hedge, hok, hall⟩
  · rw [heq]
    exact .whole hnone
  · rw [heq]
    refine .cut hedge hok fun other hother haccepted => ?_
    have hle := hall other hother haccepted
    -- a later place leaves a shorter suffix and a longer prefix
    cases suffix <;> cases longest <;>
      simp only [part, beq_iff_eq, Bool.true_eq_false, Bool.false_eq_true, if_true, if_false,
        List.length_drop, List.length_take] at hle ⊢ <;>
      omega

/-- A variable that was just assigned is exported once more without effect. -/
theorem exportOnAssign_again {options : UInt32} (h : hasBit options Opt.allexport = true)
    (attributes : UInt32) :
    (State.exportOnAssign options attributes ||| Attr.exported) &&& ~~~(0 : UInt32)
      = State.exportOnAssign options attributes := by
  rw [State.exportOnAssign, if_pos h, UInt32.or_assoc, UInt32.or_self]
  have hones : ~~~(0 : UInt32) = -1 := by decide
  rw [hones, UInt32.and_neg_one]

/-- `assign` goes by the rules. -/
theorem assigns_assign (s : State F) (name text : Bytes) :
    Assigns s name text (assign s name text).1 (assign s name text).2 := by
  by_cases hname : validName name = true
  · by_cases hwritable : Binding.writable (s.binding name) = true
    · have hset : s.setVariable name text = (.ok, (s.setVariable name text).2) :=
        Prod.ext (State.setVariable_writable hname hwritable text) rfl
      have hvalue : (s.setVariable name text).2.binding name
          = some ⟨some text, State.exportOnAssign s.info.options
              (((s.binding name).map VariableView.attributes).getD 0)⟩ := by
        rw [State.binding_setVariable, if_pos ⟨hname, rfl⟩]
        cases hb : s.binding name with
        | none => rfl
        | some b =>
          rw [hb, Binding.writable, Bool.not_eq_true'] at hwritable
          rw [Binding.assign, hwritable]
          rfl
      have hothers : ∀ other, other ≠ name →
          (s.setVariable name text).2.binding other = s.binding other := by
        intro other hne
        rw [State.binding_setVariable, if_neg fun h => hne h.2.symm]
      have hbeside := State.beside_setVariable s name text
      rw [assign, hset]
      dsimp only
      by_cases hexport : hasBit (s.setVariable name text).2.info.options Opt.allexport = true
      · -- `allexport` has marked the variable already
        rw [if_pos hexport]
        have hexported := State.updateAttributes_exported (s.setVariable name text).2 hname
        have hupdate := Prod.ext
          (show _ = (StateResult.ok, ((s.setVariable name text).2.updateAttributes name
            Attr.exported 0).2).1 from hexported) rfl
        rw [hupdate]
        refine .stored hname hwritable ?_ (fun other hne => ?_)
          (hbeside.trans (State.beside_updateAttributes _ name _ _))
        · rw [State.binding_updateAttributes, if_pos ⟨hname, rfl⟩, hvalue, Binding.change,
            if_neg (by decide)]
          rw [hbeside.info] at hexport
          have hkeep : hasBit 0 Attr.readonly = false := by decide
          simp only [hkeep, Bool.and_false, Bool.false_eq_true, if_false,
            exportOnAssign_again hexport]
        · rw [State.binding_updateAttributes, if_neg fun h => hne h.2.symm]
          exact hothers other hne
      · rw [if_neg hexport]
        exact .stored hname hwritable hvalue hothers hbeside
    · rw [Bool.not_eq_true] at hwritable
      rw [assign, State.setVariable_readonly hname hwritable]
      exact .readonly hname hwritable
  · rw [Bool.not_eq_true] at hname
    rw [assign, State.setVariable, hname]
    exact .invalid hname

/-! ### Going by the table -/

section Body

variable {env : ExpandEnv} {word : Token} {index : ℕ} {f : Fragment} {work : Work F}
  {out : Expansion} {name : Bytes} {operand operandStop : ℕ} {value : Option Bytes}

theorem choose_removes (op : Chooser) :
    (some op.byte == some (byteOf '#') || some op.byte == some (byteOf '%')) = false := by
  cases op <;> decide

theorem removal_removes (suffix : Bool) :
    (some (removalByte suffix) == some (byteOf '#') || some (removalByte suffix) == some (byteOf '%'))
      = true := by
  cases suffix <;> decide

theorem removal_suffix (suffix : Bool) : (removalByte suffix == byteOf '%') = suffix := by
  cases suffix <;> decide

/-- An expansion of the operand that is known. -/
def answered (r : Reply F) : Ranger F := fun _ _ _ _ _ _ _ => r

/-- The use that is made of a pattern. -/
theorem removes_parameterRemove {ranger : Ranger F} {h : Header} {op : UInt8} {suffix : Bool}
    (hop : (op == byteOf '%') = suffix) (text : Bytes) {r : Reply F}
    (hr : ranger (some index) h.operand h.stop .parameter .word work { context := .pattern } = r) :
    Removes env f out suffix h.longest text r
      (parameterRemove env ranger index f h op text work out) := by
  rw [parameterRemove, hop, hr]
  by_cases hresult : r.result = .ok
  · rw [if_neg (not_not.mpr hresult)]
    rcases hfields : expandFields env r.work.state r.out with ⟨result, patterns, error⟩
    dsimp only
    by_cases hok : result = .ok
    · subst hok
      rw [if_neg (not_not.mpr rfl)]
      rcases hpatterns : patterns.fields with _ | ⟨pattern, _ | ⟨second, rest⟩⟩
      · refine .removed hresult hfields (by rw [hpatterns]; exact Nat.zero_le 1) ?_
        rw [hpatterns]
        exact cut_removePattern env text [] suffix h.longest
      · refine .removed hresult hfields (by rw [hpatterns]; exact Nat.le_refl 1) ?_
        rw [hpatterns]
        exact cut_removePattern env text pattern suffix h.longest
      · exact .several hresult hfields (by rw [hpatterns]; simp)
    · rw [if_pos hok]
      exact .unusable hresult hfields hok
  · rw [if_pos hresult]
    exact .failed hresult

/-- The word is not wanted. -/
theorem parameterDefault_value {ranger : Ranger F} {h : Header} {op : UInt8}
    (huse : (if op == byteOf '+' then !(value.isNone || (h.colon && value == some []))
      else value.isNone || (h.colon && value == some [])) = false) :
    parameterDefault word ranger index f h op value work out
      = valued f work out (if op == byteOf '+' then [] else value.getD []) := by
  rw [parameterDefault]
  dsimp only
  rw [huse]
  rfl

/-- The word is wanted for itself. -/
theorem parameterDefault_word {ranger : Ranger F} {h : Header} {op : UInt8}
    (huse : (if op == byteOf '+' then !(value.isNone || (h.colon && value == some []))
      else value.isNone || (h.colon && value == some [])) = true)
    (hop : (op == byteOf '-' || op == byteOf '+') = true) :
    parameterDefault word ranger index f h op value work out
      = if emptyOperand word.raw h.operand h.stop then valued f work out []
        else ranger (some index) h.operand h.stop .parameter .word work out := by
  rw [parameterDefault]
  dsimp only
  rw [huse, hop]
  rfl

/-- The word is wanted for a message. -/
theorem complains_parameterDefault {ranger : Ranger F} {h : Header} {r : Reply F}
    (huse : (value.isNone || (h.colon && value == some [])) = true)
    (hr : ranger (some index) h.operand h.stop .parameter .word work { context := .assignment } = r) :
    Complains word index out h.operand h.stop r
      (parameterDefault word ranger index f h (byteOf '?') value work out) := by
  have hplus : (byteOf '?' == byteOf '+') = false := by decide
  have hminus : (byteOf '?' == byteOf '-') = false := by decide
  rw [parameterDefault]
  simp only [hplus, hminus, Bool.or_false, Bool.false_eq_true, if_false, huse, Bool.not_true, hr]
  by_cases hresult : r.result = .ok
  · by_cases hoperand : h.operand = h.stop
    · have hbare := @Complains.bare F word index out h.operand h.stop r hresult hoperand
      simpa [hresult, hoperand] using hbare
    · have hmessage := @Complains.message F word index out h.operand h.stop r hresult hoperand
      simpa [hresult, hoperand] using hmessage
  · simpa [hresult] using @Complains.failed F word index out h.operand h.stop r hresult

/-- The word is wanted for an assignment. -/
theorem stores_parameterDefault {ranger : Ranger F} {h : Header} {r : Reply F}
    (huse : (value.isNone || (h.colon && value == some [])) = true)
    (hr : ranger (some index) h.operand h.stop .parameter .word work { context := .assignment } = r) :
    Stores f out h.name r
      (parameterDefault word ranger index f h (byteOf '=') value work out) := by
  have hplus : (byteOf '=' == byteOf '+') = false := by decide
  have hminus : (byteOf '=' == byteOf '-') = false := by decide
  have hquestion : (byteOf '=' == byteOf '?') = false := by decide
  rw [parameterDefault]
  simp only [hplus, hminus, hquestion, Bool.or_false, Bool.false_eq_true, if_false, huse,
    Bool.not_true, hr]
  by_cases hresult : r.result = .ok
  · have hassigns := assigns_assign r.work.state h.name (flatten r.out)
    rw [if_neg (not_not.mpr hresult)]
    rcases hassign : assign r.work.state h.name (flatten r.out) with ⟨result, state⟩
    rw [hassign] at hassigns
    by_cases hok : result = .ok
    · subst hok
      exact .stored hresult hassigns
    · rw [if_neg hok]
      exact .refused hresult hassigns hok
  · simpa [hresult] using @Stores.failed F f out h.name r hresult

/-- The table where the value will not do. -/
theorem choice_of_unusable {colon : Bool}
    (h : (value.isNone || (colon && value == some [])) = true) :
    choice .minus colon (standing value) = .word ∧ choice .equals colon (standing value) = .assign ∧
      choice .question colon (standing value) = .fail ∧
      choice .plus colon (standing value) = .null := by
  rcases value with _ | _ | ⟨byte, rest⟩
  · cases colon <;> exact ⟨rfl, rfl, rfl, rfl⟩
  · cases colon with
    | true => exact ⟨rfl, rfl, rfl, rfl⟩
    | false => cases h
  · cases colon <;> simp at h

/-- The table where the value will do. -/
theorem chooses_of_usable {colon : Bool} {op : Chooser}
    (h : (value.isNone || (colon && value == some [])) = false) (hop : op ≠ .plus) :
    Chooses word index f work out name operand operandStop value
      (choice op colon (standing value)) (.now (valued f work out (value.getD []))) := by
  rcases value with _ | _ | ⟨byte, rest⟩
  · cases h
  · cases colon with
    | true => cases h
    | false =>
      cases op with
      | minus | equals | question => exact .null
      | plus => exact absurd rfl hop
  · cases op with
    | minus | equals | question => cases colon <;> exact .parameter rfl
    | plus => exact absurd rfl hop

theorem choice_plus_of_usable {colon : Bool}
    (h : (value.isNone || (colon && value == some [])) = false) :
    choice .plus colon (standing value) = .word := by
  rcases value with _ | _ | ⟨byte, rest⟩
  · cases h
  · cases colon with
    | true => cases h
    | false => rfl
  · cases colon <;> rfl

/-- A word that is wanted for itself, and may be empty. -/
theorem chooses_word {h : Header} {op : UInt8}
    (huse : (if op == byteOf '+' then !(value.isNone || (h.colon && value == some []))
      else value.isNone || (h.colon && value == some [])) = true)
    (hop : (op == byteOf '-' || op == byteOf '+') = true) :
    ∃ answer : Answer F,
      Chooses word index f work out name h.operand h.stop value .word answer ∧
      ∀ ranger : Ranger F, parameterDefault word ranger index f h op value work out
        = answer.run fun into => ranger (some index) h.operand h.stop .parameter .word work into := by
  cases hempty : emptyOperand word.raw h.operand h.stop with
  | true =>
    refine ⟨_, .empty hempty, fun ranger => ?_⟩
    rw [parameterDefault_word huse hop, if_pos hempty]
    rfl
  | false =>
    refine ⟨_, .word hempty, fun ranger => ?_⟩
    rw [parameterDefault_word huse hop, if_neg (by simp [hempty])]
    rfl

/-- The answer of the table to `-`, `=`, `?` and `+`. -/
theorem chooses_parameterDefault (colon : Bool) (op : Chooser) :
    ∃ answer : Answer F, Chooses word index f work out name operand operandStop value
        (choice op colon (standing value)) answer ∧
      ∀ ranger : Ranger F,
        parameterDefault word ranger index f ((Form.choose colon op).header name operand operandStop)
          op.byte value work out
          = answer.run fun into =>
              ranger (some index) operand operandStop .parameter .word work into := by
  have hplus : ∀ b : Bool, (if Chooser.plus.byte == byteOf '+' then !b else b) = !b := fun _ => rfl
  have hother : ∀ op : Chooser, op ≠ .plus → ∀ b : Bool, (if op.byte == byteOf '+' then !b else b) = b := by
    intro op hop b
    cases op with
    | minus | equals | question => rfl
    | plus => exact absurd rfl hop
  have hvalue : ∀ op : Chooser, op ≠ .plus →
      (if op.byte == byteOf '+' then [] else value.getD []) = value.getD [] := by
    intro op hop
    cases op with
    | minus | equals | question => rfl
    | plus => exact absurd rfl hop
  cases hwanted : value.isNone || (colon && value == some []) with
  | false =>
    by_cases hop : op = .plus
    · subst hop
      rw [choice_plus_of_usable hwanted]
      exact @chooses_word F word index f work out name value
        ((Form.choose colon .plus).header name operand operandStop) _
        ((hplus _).trans (congrArg not hwanted)) rfl
    · refine ⟨_, chooses_of_usable hwanted hop, fun ranger => ?_⟩
      rw [parameterDefault_value ((hother op hop _).trans hwanted), hvalue op hop]
      rfl
  | true =>
    obtain ⟨hminus, hequals, hquestion, hnull⟩ := choice_of_unusable hwanted
    cases op with
    | minus =>
      rw [hminus]
      exact @chooses_word F word index f work out name value
        ((Form.choose colon .minus).header name operand operandStop) _ hwanted rfl
    | plus =>
      rw [hnull]
      refine ⟨_, .null, fun ranger => ?_⟩
      rw [parameterDefault_value ((hplus _).trans (congrArg not hwanted))]
      rfl
    | equals =>
      rw [hequals]
      refine ⟨.operand { context := .assignment } fun r =>
        parameterDefault word (answered r) index f
          ((Form.choose colon .equals).header name operand operandStop) (byteOf '=') value work out,
        .assign fun r => ?_, fun ranger => rfl⟩
      exact @stores_parameterDefault F word index f work out value (answered r)
        ((Form.choose colon .equals).header name operand operandStop) r hwanted rfl
    | question =>
      rw [hquestion]
      refine ⟨.operand { context := .assignment } fun r =>
        parameterDefault word (answered r) index f
          ((Form.choose colon .question).header name operand operandStop) (byteOf '?') value work out,
        .fail fun r => ?_, fun ranger => rfl⟩
      exact @complains_parameterDefault F word index f work out value (answered r)
        ((Form.choose colon .question).header name operand operandStop) r hwanted rfl

/-- What `parameter` does with what it has read. -/
theorem answers_parameterBody (hvalue : Denotes work.state name value) (form : Form) :
    ∃ answer : Answer F, Answers env word index f work out name operand operandStop value form answer ∧
      ∀ ranger : Ranger F,
        parameterBody env word ranger index f (form.header name operand operandStop) work out
          = answer.run fun into =>
              ranger (some index) operand operandStop .parameter .word work into := by
  have hlist := hvalue.not_list
  have hlookup := parameterValue_of_denotes hvalue
  by_cases hunset : form.NeedsValue ∧ value = none ∧
      hasBit work.state.info.options Opt.nounset = true
  · obtain ⟨hform, rfl, hoption⟩ := hunset
    refine ⟨_, .unset hform rfl hoption, fun ranger => ?_⟩
    cases form with
    | choose => exact absurd hform id
    | plain => simp [parameterBody, Form.header, hlist, hlookup, hoption, Answer.run]
    | length => simp [parameterBody, Form.header, hlist, hlookup, hoption, Answer.run]
    | remove suffix longest =>
      simp only [parameterBody, Form.header, hlist, hlookup, hoption, removal_removes]
      rfl
  · have hset : form.NeedsValue → value = none →
        hasBit work.state.info.options Opt.nounset = false :=
      fun hform hnone => by
        rw [← Bool.not_eq_true]
        exact fun hoption => hunset ⟨hform, hnone, hoption⟩
    have hcheck : form.NeedsValue →
        (value.isNone && hasBit work.state.info.options Opt.nounset) = false := by
      intro hform
      rw [Bool.and_eq_false_iff, Option.isNone_eq_false_iff, Option.isSome_iff_ne_none]
      exact Classical.or_iff_not_imp_left.mpr fun h => hset hform (not_not.mp h)
    cases form with
    | plain =>
      refine ⟨_, .plain (hset trivial), fun ranger => ?_⟩
      simp only [parameterBody, Form.header, hlist, hlookup, hcheck trivial]
      rfl
    | length =>
      obtain ⟨chars, hchars, hcount⟩ := characters_count env.current (value.getD [])
      refine ⟨_, .length (hset trivial) hchars, fun ranger => ?_⟩
      simp only [parameterBody, Form.header, hlist, hlookup, hcheck trivial, hcount]
      rfl
    | choose colon op =>
      obtain ⟨answer, hchooses, hrun⟩ := @chooses_parameterDefault F word index f work out name
        operand operandStop value colon op
      refine ⟨answer, .choose hchooses, fun ranger => ?_⟩
      rw [← hrun ranger]
      simp only [parameterBody, Form.header, hlist, hlookup, choose_removes]
      simp
    | remove suffix longest =>
      have hremoves : ∀ r : Reply F, Removes env f out suffix longest (value.getD []) r
          (parameterRemove env (answered r) index f
            ((Form.remove suffix longest).header name operand operandStop) (removalByte suffix)
            (value.getD []) work out) :=
        fun r => @removes_parameterRemove F env index f work out (answered r)
          ((Form.remove suffix longest).header name operand operandStop) _ suffix
          (removal_suffix suffix) (value.getD []) r rfl
      refine ⟨_, .remove (hset trivial) hremoves, fun ranger => ?_⟩
      simp only [parameterBody, Form.header, hlist, hlookup, hcheck trivial, removal_removes]
      rfl

end Body

/-- **Parameter expansion goes by the table.**  Whatever name, form and operand a
fragment spells, what comes of it is the answer of the table for the value the parameter
has: the operand is expanded if the answer asks for it, then once, and not otherwise. -/
theorem parameter_table {env : ExpandEnv} {word : Token} {index : ℕ} {f : Fragment} {work : Work F}
    {name : Bytes} {form : Form} {operand operandStop : ℕ} {value : Option Bytes}
    (hwrites : Writes word.raw f.begin f.stop name form operand operandStop)
    (hvalue : Denotes work.state name value) (out : Expansion) :
    ∃ answer, Answers env word index f work out name operand operandStop value form answer ∧
      ∀ ranger : Ranger F, parameter env word ranger index f work out
        = Reply.reported word
            (answer.run fun into =>
              ranger (some index) operand operandStop .parameter .word work into)
            index "parameter expansion failed" := by
  obtain ⟨answer, hanswer, hbody⟩ := @answers_parameterBody F env word index f work out name
    operand operandStop value hvalue form
  refine ⟨answer, hanswer, fun ranger => ?_⟩
  rw [parameter, hwrites.header]
  exact congrArg (Reply.reported word · index "parameter expansion failed") (hbody ranger)

/-- All of a word of nine bytes. -/
def defaultedFragment : Fragment :=
  { kind := .parameter, quote := .none, begin := 0, stop := 9, parent := none }

/-- `${x:=y}` with a continuation before the colon. -/
def defaulted : Token where
  kind := .word
  raw := ascii "$\x7bx\\\n:=y\x7d"
  fragments := [defaultedFragment]

/-- The spelling is the one of `:=` with the operand between places 7 and 8. -/
theorem writes_defaulted :
    Writes defaulted.raw 0 9 (ascii "x") (.choose true .equals) 7 8 := by
  have hspells : Lexical.Spells (ascii "$\x7bx:") (ascii "$\x7bx\\\n:") :=
    ((((Lexical.Spells.nil.char (byteOf '$')).char (byteOf '\x7b')).char
      (byteOf 'x')).continuation).char (byteOf ':')
  have hspans : Lexical.Spans (ascii "$\x7bx:=") (ascii "$\x7bx\\\n:=") :=
    ⟨ascii "$\x7bx:", ascii "$\x7bx\\\n:", byteOf '=', rfl, rfl, hspells⟩
  exact @Writes.operand defaulted.raw 0 9 (ascii "x") (ascii "$\x7bx\\\n:=") (ascii "y")
    (.choose true .equals) (by decide) (by decide) hspans
    (fun h => absurd h.2.1 (by decide)) ⟨[], rfl⟩ rfl

/-- `x` is unset in a fresh state, and the operand is asked for. -/
theorem parameter_table_defaulted :
    ∃ answer, Answers ExpandEnv.bare defaulted 0 defaultedFragment
        ({ state := {} } : Work Unit) {} (ascii "x") 7 8 none (.choose true .equals) answer ∧
      ∀ ranger : Ranger Unit,
        parameter ExpandEnv.bare defaulted ranger 0 defaultedFragment { state := {} } {}
          = Reply.reported defaulted
              (answer.run fun into => ranger (some 0) 7 8 .parameter .word { state := {} } into)
              0 "parameter expansion failed" :=
  parameter_table writes_defaulted (.named (by decide)) {}

end CShell.Expand
