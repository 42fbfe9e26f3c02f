import CShell.Execute.Model
import CShell.Redirect.Model
import CShell.Parse.Tree
import CShell.Lib.Unfolding

/-!
# Syntax graphs

What `plan_node` reads of a syntax tree, before anything is known about the pointers in
it: a child may be missing, shared, or an ancestor.  `V` is the type of the nodes there
are, and of the pointers to them that are not null.

A redirection is reserved by the descriptor numbers written in it, which
`csh_descriptor` reads; continuations between the digits do not count.

## Main definitions

* `AstNode V` — `struct csh_ast`, as far as `plan_node` reads it.
* `AstData.count`, `AstData.child` — the two switches of `plan_node`.
* `AstData.parts` — the children in order, marked when they are asynchronous.
* `descriptor` — `csh_descriptor`; `Denotes` — the numbers that are written out.

## Main results

* `AstData.parts_getElem?` — the switches go through the children in order.
* `descriptor_iff` — **`csh_descriptor` reads the decimal numbers up to `INT_MAX`.**

## References

`src/execute.c` (`plan_node`), `src/prepare.c` (`csh_descriptor`), `include/cshell/ast.h`.
-/

namespace CShell.Execute

open List
open Redirect (intMax)

/-! ### Nodes -/

/-- `enum csh_ast_kind`. -/
inductive AstKind
  | simple
  | pipeline
  | and
  | or
  | list
  | subshell
  | brace
  | ifClause
  | forClause
  | whileClause
  | untilClause
  | caseClause
  | function
  deriving DecidableEq, Repr, Inhabited

/-- `struct csh_ast_redirection`: the operator, the raw text of the number before it and
of the operand. -/
structure AstRedirection where
  operatorKind : TokenKind
  ioNumber : Option Bytes := none
  operand : Bytes
  deriving DecidableEq, Repr, Inhabited

/-- The `data` of `struct csh_ast` by kind; `none` is the null pointer. -/
inductive AstData (V : Type)
  | simple
  | pipeline (commands : List (Option V)) (negated : Bool)
  | and (left right : Option V)
  | or (left right : Option V)
  | list (items : List (Option V × Parse.Separator))
  | subshell (body : Option V)
  | brace (body : Option V)
  | ifClause (branches : List (Option V × Option V)) (elseBody : Option V)
  | forClause (body : Option V)
  | whileClause (condition body : Option V)
  | untilClause (condition body : Option V)
  | caseClause (items : List (Option V))
  | function (body : Option V)

/-- `struct csh_ast`. -/
structure AstNode (V : Type) where
  data : AstData V
  redirections : List AstRedirection := []

namespace AstData

variable {V : Type}

/-- `tree->kind`. -/
def kind : AstData V → AstKind
  | simple => .simple
  | pipeline _ _ => .pipeline
  | and _ _ => .and
  | or _ _ => .or
  | list _ => .list
  | subshell _ => .subshell
  | brace _ => .brace
  | ifClause _ _ => .ifClause
  | forClause _ => .forClause
  | whileClause _ _ => .whileClause
  | untilClause _ _ => .untilClause
  | caseClause _ => .caseClause
  | function _ => .function

/-- `plan->negated`, which only a pipeline sets. -/
def negated : AstData V → Bool
  | pipeline _ negated => negated
  | _ => false

/-- The first switch of `plan_node`: how many children there are. -/
def count : AstData V → ℕ
  | simple => 0
  | ifClause branches elseBody => branches.length * 2 + (if elseBody.isSome then 1 else 0)
  | forClause _ | function _ => 1
  | whileClause _ _ | untilClause _ _ => 2
  | caseClause items => items.length
  | list items => items.length
  | and _ _ | or _ _ => 2
  | brace _ | subshell _ => 1
  | pipeline commands _ => commands.length

/-- The second switch of `plan_node`: the child with an index. -/
def child (i : ℕ) : AstData V → Option V
  | list items => items[i]?.bind Prod.fst
  | pipeline commands _ => commands[i]?.join
  | and left right | or left right => if i = 0 then left else right
  | ifClause branches elseBody =>
    if i = branches.length * 2 then elseBody
    else if i % 2 = 1 then branches[i / 2]?.bind Prod.snd
    else branches[i / 2]?.bind Prod.fst
  | forClause body => body
  | function body => body
  | whileClause condition body | untilClause condition body => if i = 0 then condition else body
  | caseClause items => items[i]?.join
  | brace body | subshell body => body
  | simple => none

/-- `plan->children[i].asynchronous`, which only a list sets. -/
def asynchronous (i : ℕ) : AstData V → Bool
  | list items => (items[i]?.map fun item => decide (item.2 = .ampersand)).getD false
  | _ => false

/-- The children in order, each with its asynchronous mark. -/
def parts : AstData V → List (Option V × Bool)
  | simple => []
  | pipeline commands _ => commands.map fun command => (command, false)
  | and left right | or left right => [(left, false), (right, false)]
  | list items => items.map fun item => (item.1, decide (item.2 = .ampersand))
  | subshell body | brace body | forClause body | function body => [(body, false)]
  | ifClause branches elseBody =>
    (branches.flatMap fun branch => [(branch.1, false), (branch.2, false)]) ++
      (elseBody.toList.map fun body => (some body, false))
  | whileClause condition body | untilClause condition body => [(condition, false), (body, false)]
  | caseClause items => items.map fun body => (body, false)

theorem branches_length {α β : Type} (f g : α → β) (xs : List α) :
    (xs.flatMap fun x => [f x, g x]).length = xs.length * 2 := by
  induction xs with
  | nil => rfl
  | cons x xs ih =>
    rw [flatMap_cons, length_append, ih, length_cons]
    simp only [length_cons, length_nil]
    omega

/-- The entries of pairs that are laid out one behind the other. -/
theorem branches_getElem? {α β : Type} (f g : α → β) (xs : List α) (i : ℕ) :
    (xs.flatMap fun x => [f x, g x])[i]? = xs[i / 2]?.map (if i % 2 = 1 then g else f) := by
  induction xs generalizing i with
  | nil => rfl
  | cons x xs ih =>
    rw [flatMap_cons]
    match i with
    | 0 => rfl
    | 1 => rfl
    | i + 2 =>
      have hdiv : (i + 2) / 2 = i / 2 + 1 := by omega
      have hmod : (i + 2) % 2 = i % 2 := by omega
      rw [hdiv, hmod, getElem?_cons_succ, ← ih]
      rfl

theorem parts_length (data : AstData V) : data.parts.length = data.count := by
  cases data with
  | ifClause branches elseBody =>
    rw [parts, length_append, branches_length]
    cases elseBody <;> rfl
  | list items => exact length_map _
  | pipeline commands negated => exact length_map _
  | caseClause items => exact length_map _
  | _ => rfl

/-- **The switches of `plan_node` go through the children in order.** -/
theorem parts_getElem? {data : AstData V} {i : ℕ} (h : i < data.count) :
    data.parts[i]? = some (data.child i, data.asynchronous i) := by
  cases data with
  | simple => exact absurd h (Nat.not_lt_zero i)
  | pipeline commands negated =>
    have hget := getElem?_eq_getElem h
    rw [parts, getElem?_map, child, hget]
    rfl
  | list items =>
    have hget := getElem?_eq_getElem h
    rw [parts, getElem?_map, child, asynchronous, hget]
    rfl
  | caseClause items =>
    have hget := getElem?_eq_getElem h
    rw [parts, getElem?_map, child, hget]
    rfl
  | ifClause branches elseBody =>
    have hlength := branches_length (fun branch : Option V × Option V => (branch.1, false))
      (fun branch => (branch.2, false)) branches
    rw [parts, child]
    by_cases hlast : i = branches.length * 2
    · subst hlast
      rw [getElem?_append_right hlength.le, hlength, Nat.sub_self, if_pos rfl]
      cases elseBody with
      | none => exact absurd h (Nat.lt_irrefl _)
      | some body => rfl
    · have hlt : i < branches.length * 2 := by
        have hcount : i < branches.length * 2 + (if elseBody.isSome then 1 else 0) := h
        split at hcount <;> omega
      rw [getElem?_append_left (hlength ▸ hlt), branches_getElem?, if_neg hlast]
      have hget := getElem?_eq_getElem (show i / 2 < branches.length by omega)
      rw [hget]
      split <;> rfl
  | and left right | or left right | whileClause left right | untilClause left right =>
    match i, h with
    | 0, _ => rfl
    | 1, _ => rfl
  | subshell body | brace body | forClause body | function body =>
    match i, h with
    | 0, _ => rfl

end AstData

/-! ### Descriptor numbers -/

/-- `text[i] - '0'`. -/
def digitValue (byte : UInt8) : ℕ := byte.toNat - (byteOf '0').toNat

/-- One digit of `csh_descriptor`; the value stays below `INT_MAX`. -/
def descriptorDigit (value : ℕ) (byte : UInt8) : Option ℕ :=
  if digit byte = false ∨ (intMax - digitValue byte) / 10 < value then none
  else some (value * 10 + digitValue byte)

/-- The loop of `csh_descriptor`; `digits` tells that there was one. -/
def descriptorLoop : Bytes → ℕ → Bool → Option ℕ
  | [], value, digits => if digits then some value else none
  | [byte], value, _ => descriptorDigit value byte
  | first :: second :: rest, value, digits =>
    if first = byteOf '\\' ∧ second = byteOf '\n' then descriptorLoop rest value digits
    else
      match descriptorDigit value first with
      | none => none
      | some value => descriptorLoop (second :: rest) value true

/-- `csh_descriptor`; `none` is `-1`. -/
def descriptor (text : Bytes) : Option ℕ := descriptorLoop text 0 false

/-- The value of decimal digits behind a value. -/
def decimalFrom (value : ℕ) (digits : Bytes) : ℕ :=
  digits.foldl (fun value byte => value * 10 + digitValue byte) value

/-- A text is a number in decimal, with continuations between its digits, that is an
`int`. -/
def Denotes (text : Bytes) (number : ℕ) : Prop :=
  spliced text ≠ [] ∧ (∀ byte ∈ spliced text, digit byte = true) ∧
    decimalFrom 0 (spliced text) = number ∧ number ≤ intMax

theorem descriptorDigit_iff {value value' : ℕ} {byte : UInt8} :
    descriptorDigit value byte = some value' ↔
      digit byte = true ∧ value * 10 + digitValue byte = value' ∧ value' ≤ intMax := by
  unfold descriptorDigit
  by_cases hdigit : digit byte = true
  · have hsmall : digitValue byte ≤ 9 := by
      unfold digit inRange at hdigit
      unfold digitValue
      simp only [Bool.and_eq_true, decide_eq_true_eq] at hdigit
      have hzero : (byteOf '0').toNat = 48 := rfl
      have hnine : '9'.toNat = 57 := rfl
      omega
    simp only [hdigit, Bool.true_eq_false, false_or, true_and]
    unfold intMax
    split
    · simp only [reduceCtorEq, false_iff, not_and]
      omega
    · simp only [Option.some.injEq]
      omega
  · simp [hdigit]

theorem le_decimalFrom (value : ℕ) (digits : Bytes) : value ≤ decimalFrom value digits := by
  induction digits generalizing value with
  | nil => exact Nat.le_refl _
  | cons byte digits ih =>
    have hle := ih (value * 10 + digitValue byte)
    show value ≤ decimalFrom (value * 10 + digitValue byte) digits
    omega

/-- The loop reads the digits of the text without its continuations. -/
theorem descriptorLoop_iff {text : Bytes} {value number : ℕ} {digits : Bool} (hv : value ≤ intMax) :
    descriptorLoop text value digits = some number ↔
      (digits = true ∨ spliced text ≠ []) ∧ (∀ byte ∈ spliced text, digit byte = true) ∧
        decimalFrom value (spliced text) = number ∧ number ≤ intMax := by
  fun_induction descriptorLoop text value digits with
  | case1 value => simp [spliced, decimalFrom]; omega
  | case2 value digits hdigits => simp [spliced, hdigits]
  | case3 byte value digits =>
    rw [descriptorDigit_iff]
    simp [spliced, decimalFrom]
  | case4 first second rest value digits hpair ih =>
    rw [ih hv, hpair.1, hpair.2, spliced_continuation]
  | case5 first second rest value digits hpair hnone =>
    have hcons : spliced (first :: second :: rest) = first :: spliced (second :: rest) := by
      rw [spliced, if_neg hpair]
    rw [hcons]
    simp only [reduceCtorEq, false_iff]
    rintro ⟨-, hall, rfl, hle⟩
    have hfirst := le_decimalFrom (value * 10 + digitValue first) (spliced (second :: rest))
    have hsome := descriptorDigit_iff.mpr ⟨hall first mem_cons_self, rfl, hfirst.trans hle⟩
    rw [hnone] at hsome
    cases hsome
  | case6 first second rest value digits hpair value' hsome ih =>
    have hcons : spliced (first :: second :: rest) = first :: spliced (second :: rest) := by
      rw [spliced, if_neg hpair]
    obtain ⟨hdigit, rfl, hle⟩ := descriptorDigit_iff.mp hsome
    rw [ih hle, hcons]
    simp only [true_or, true_and, mem_cons, forall_eq_or_imp, hdigit, ne_eq, reduceCtorEq,
      not_false_eq_true, or_true]
    rfl

/-- **`csh_descriptor` reads the decimal numbers up to `INT_MAX`.** -/
theorem descriptor_iff {text : Bytes} {number : ℕ} : descriptor text = some number ↔ Denotes text number := by
  unfold descriptor Denotes
  rw [descriptorLoop_iff (Nat.zero_le _)]
  simp

end CShell.Execute
