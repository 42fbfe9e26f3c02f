import CShell.Expand.Word
import CShell.Lexer.Accepted

/-!
# The spelling of a parameter expansion

What stands behind a dollar is read one logical character at a time.  Here the forms
of an expansion are described by their spelling, with continuations anywhere between
the characters, and the reader finds the name, the form and the place of the operand.

Two spellings need a word: behind `${#` the rest is a parameter whose length is asked
for if that is all there is, so that `${#-}` is the length of `$-` and `${#-x}` is `$#`
with a default; and a second `#` or `%` belongs to the operator.

## Main definitions

* `Form` — what is asked of a parameter.
* `Writes` — a fragment spells a name and a form.

## Main results

* `Writes.header` — the reader finds what is written.

## References

`src/expand.c` (`parameter`).
-/

namespace CShell

namespace Lexical

variable {chars w : Bytes}

theorem Spells.continued (h : Spells chars w) :
    Spells chars (byteOf '\\' :: byteOf '\n' :: w) := by
  induction h with
  | nil => exact Spells.continuation .nil
  | continuation _ ih => exact ih.continuation
  | char _ byte ih => exact ih.char byte

theorem Spans.continued (h : Spans chars w) :
    Spans chars (byteOf '\\' :: byteOf '\n' :: w) := by
  obtain ⟨init, text, byte, rfl, rfl, hspells⟩ := h
  exact ⟨init, byteOf '\\' :: byteOf '\n' :: text, byte, rfl, rfl, hspells.continued⟩

end Lexical

namespace Expand

open Lexical (Spells Spans)

/-! ### Forms -/

/-- The operators that choose between a value and a word. -/
inductive Chooser
  | minus
  | equals
  | question
  | plus
  deriving DecidableEq, Repr

/-- The byte of an operator. -/
def Chooser.byte : Chooser → UInt8
  | .minus => byteOf '-'
  | .equals => byteOf '='
  | .question => byteOf '?'
  | .plus => byteOf '+'

/-- What is asked of a parameter: its value, its length, a choice between the value and
a word, or the value without a part that a pattern matches. -/
inductive Form
  | plain
  | length
  | choose (colon : Bool) (op : Chooser)
  | remove (suffix longest : Bool)
  deriving DecidableEq, Repr

/-- The byte of a removal. -/
def removalByte (suffix : Bool) : UInt8 := if suffix then byteOf '%' else byteOf '#'

/-- The characters between a name and its operand. -/
def Form.operator : Form → Bytes
  | .plain | .length => []
  | .choose colon op => (if colon then [byteOf ':'] else []) ++ [op.byte]
  | .remove suffix longest =>
    removalByte suffix :: if longest then [removalByte suffix] else []

/-- A variable, a positional parameter or a special one. -/
def parameterWord (name : Bytes) : Bool :=
  validName name || (!name.isEmpty && name.all digit) || match name with
    | [byte] => specialParameter byte
    | _ => false

/-- A parameter that needs no braces. -/
def bareWord (name : Bytes) : Bool :=
  validName name || match name with
    | [byte] => digit byte || specialParameter byte
    | _ => false

/-- The operand could be taken for a part of what stands before it: behind `${#` for
the parameter whose length is asked for, behind `#` and `%` for the longest form. -/
def Form.Mistaken (name operand : Bytes) : Form → Prop
  | .plain | .length => False
  | .choose colon op =>
    name = [byteOf '#'] ∧ colon = false ∧ (op = .minus ∨ op = .question) ∧ Spells [] operand
  | .remove suffix longest =>
    longest = false ∧ ((∃ w, Spans [removalByte suffix] w ∧ w <+: operand) ∨
      (name = [byteOf '#'] ∧ suffix = false ∧ Spells [] operand))

/-- The bytes of `raw` from `begin` to `stop` spell a parameter expansion, whose
operand is between the last two places. -/
inductive Writes (raw : Bytes) (begin stop : ℕ) : Bytes → Form → ℕ → ℕ → Prop
  | bare {name w : Bytes} (hname : bareWord name = true) (hw : Spans (byteOf '$' :: name) w)
      (hraw : w <+: raw.drop begin) (hstop : stop = begin + w.length) :
      Writes raw begin stop name .plain stop stop
  | plain {name w rest : Bytes} (hname : parameterWord name = true)
      (hw : Spans (byteOf '$' :: byteOf '{' :: name) w) (hrest : Spells [] rest)
      (hraw : w ++ rest ++ [byteOf '}'] <+: raw.drop begin)
      (hstop : stop = begin + w.length + rest.length + 1) :
      Writes raw begin stop name .plain (stop - 1) (stop - 1)
  | length {name w rest : Bytes} (hname : parameterWord name = true)
      (hw : Spans (byteOf '$' :: byteOf '{' :: byteOf '#' :: name) w) (hrest : Spells [] rest)
      (hraw : w ++ rest ++ [byteOf '}'] <+: raw.drop begin)
      (hstop : stop = begin + w.length + rest.length + 1) :
      Writes raw begin stop name .length (stop - 1) (stop - 1)
  | operand {name w operand : Bytes} {form : Form} (hname : parameterWord name = true)
      (hform : form ≠ .plain ∧ form ≠ .length)
      (hw : Spans (byteOf '$' :: byteOf '{' :: (name ++ form.operator)) w)
      (hclear : ¬form.Mistaken name operand)
      (hraw : w ++ operand ++ [byteOf '}'] <+: raw.drop begin)
      (hstop : stop = begin + w.length + operand.length + 1) :
      Writes raw begin stop name form (begin + w.length) (stop - 1)

/-! ### Reading characters -/

/-- The next logical characters, and where they end. -/
inductive Reads (raw : Bytes) (stop : ℕ) : ℕ → Bytes → ℕ → Prop
  | nil (pos : ℕ) : Reads raw stop pos [] pos
  | cons {pos next last : ℕ} {c : UInt8} {chars : Bytes}
      (h : logical raw pos stop = (some c, next)) (rest : Reads raw stop next chars last) :
      Reads raw stop pos (c :: chars) last

section Reading

variable {raw : Bytes} {pos last stop : ℕ}

theorem Reads.append_iff {a b : Bytes} :
    Reads raw stop pos (a ++ b) last ↔ ∃ p, Reads raw stop pos a p ∧ Reads raw stop p b last := by
  induction a generalizing pos with
  | nil =>
    constructor
    · exact fun h => ⟨pos, .nil pos, h⟩
    · rintro ⟨p, hnil, h⟩
      cases hnil
      exact h
  | cons c a ih =>
    constructor
    · intro h
      cases h with
      | cons hc rest =>
        obtain ⟨p, ha, hb⟩ := ih.mp rest
        exact ⟨p, .cons hc ha, hb⟩
    · rintro ⟨p, ha, hb⟩
      cases ha with
      | cons hc rest => exact .cons hc (ih.mpr ⟨p, rest, hb⟩)

/-- A span is read to its end. -/
theorem reads_spans {chars w : Bytes} (h : Spans chars w) (hc : byteOf '\\' ∉ chars)
    (hw : w <+: raw.drop pos) (hle : pos + w.length ≤ stop) :
    Reads raw stop pos chars (pos + w.length) := by
  induction chars generalizing pos w with
  | nil =>
    obtain ⟨init, _, byte, heq, -⟩ := h
    exact absurd heq.symm (by simp)
  | cons c chars ih =>
    have hne : c ≠ byteOf '\\' := fun heq => hc (heq ▸ List.mem_cons_self)
    obtain ⟨w₁, w₂, rfl, hlogical, hrest⟩ := Lexical.logical_spans h hne hw stop hle
    refine .cons hlogical ?_
    rw [List.length_append] at hle ⊢
    rcases hrest with ⟨rfl, rfl⟩ | hspans
    · exact .nil _
    · rw [← Nat.add_assoc]
      exact ih hspans (fun hmem => hc (List.mem_cons_of_mem _ hmem)) (Lexical.starts_suffix hw)
        (by omega)

/-- What is read at the beginning of an operand. -/
theorem logical_operand {k : Bytes} (hk : k <+: raw.drop pos) (hstop : stop = pos + k.length) :
    (logical raw pos stop = (none, stop) ∧ Spells [] k) ∨
      ∃ c w, (logical raw pos stop).1 = some c ∧ Spans [c] w ∧ w <+: k := by
  induction hn : k.length using Nat.strong_induction_on generalizing k pos with
  | h n ih =>
    match k with
    | [] =>
      simp only [List.length_nil, Nat.add_zero] at hstop
      have hskip : skipContinuations raw pos stop = pos := by
        rw [skipContinuations, if_neg]
        rintro ⟨hlt, -⟩
        omega
      refine .inl ⟨?_, .nil⟩
      unfold logical
      rw [hskip]
      dsimp only
      rw [if_neg (by omega), hstop]
    | c :: k =>
      rw [List.length_cons] at hn hstop
      have hfirst : raw[pos]? = some c := by
        have := Lexical.getElem_of_starts (i := 0) hk rfl
        rwa [Nat.add_zero] at this
      by_cases hcontinuation : c = byteOf '\\' ∧ k.head? = some (byteOf '\n')
      · obtain ⟨rfl, hhead⟩ := hcontinuation
        obtain ⟨k', rfl⟩ := List.head?_eq_some_iff.mp hhead
        have hsecond : raw[pos + 1]? = some (byteOf '\n') := Lexical.getElem_of_starts (i := 1) hk rfl
        have hk' : k' <+: raw.drop (pos + 2) := by
          obtain ⟨rest, hrest⟩ := hk
          refine ⟨rest, ?_⟩
          rw [← List.drop_drop, ← hrest]
          rfl
        rw [List.length_cons] at hn hstop
        rw [Lexical.logical_continuation hfirst hsecond (by omega)]
        rcases ih k'.length (by omega) hk' (by omega) rfl with ⟨hnone, hspells⟩ | ⟨c, w, hsome, hw, hpre⟩
        · exact .inl ⟨hnone, hspells.continued⟩
        · exact .inr ⟨c, _, hsome, hw.continued, List.prefix_append_right_inj [_, _] |>.mpr hpre⟩
      · -- the byte is read, whatever it is
        refine .inr ⟨c, [c], ?_, ⟨[], [], c, rfl, rfl, .nil⟩, List.prefix_append [c] k⟩
        have hskip : skipContinuations raw pos stop = pos := by
          rw [skipContinuations, if_neg]
          rintro ⟨hlt, h₁, h₂⟩
          refine hcontinuation ⟨?_, ?_⟩
          · rw [hfirst] at h₁
            exact Option.some.inj h₁
          · cases k with
            | nil =>
              rw [List.length_nil] at hstop
              omega
            | cons next k =>
              have hnext : raw[pos + 1]? = some next := Lexical.getElem_of_starts (i := 1) hk rfl
              rw [hnext] at h₂
              exact h₂
        unfold logical
        rw [hskip]
        dsimp only
        rw [if_pos (by omega)]
        exact hfirst

/-- Behind continuations alone there is no character. -/
theorem logical_none {k : Bytes} (h : Spells [] k) (hk : k <+: raw.drop pos)
    (hstop : stop = pos + k.length) : logical raw pos stop = (none, stop) := by
  induction hn : k.length using Nat.strong_induction_on generalizing k pos with
  | h n ih =>
    rcases h.cases_head with ⟨-, rfl⟩ | ⟨k', rfl, hspells⟩ | ⟨c, cs, k', heq, -⟩
    · exact (logical_operand hk hstop).elim And.left fun ⟨c, w, _, hw, hpre⟩ => by
        have := hw.length_pos
        have := hpre.length_le
        rw [List.length_nil] at this
        omega
    · rw [List.length_cons, List.length_cons] at hn hstop
      have hfirst : raw[pos]? = some (byteOf '\\') := Lexical.getElem_of_starts (i := 0) hk rfl
      have hsecond : raw[pos + 1]? = some (byteOf '\n') := Lexical.getElem_of_starts (i := 1) hk rfl
      have hk' : k' <+: raw.drop (pos + 2) := by
        obtain ⟨rest, hrest⟩ := hk
        refine ⟨rest, ?_⟩
        rw [← List.drop_drop, ← hrest]
        rfl
      rw [Lexical.logical_continuation hfirst hsecond (by omega)]
      exact ih k'.length (by omega) hspells hk' (by omega) rfl
    · cases heq

theorem nameBytes_reads {accepts : UInt8 → Bool} {chars : Bytes}
    (h : Reads raw stop pos chars last) (hall : chars.all accepts = true)
    (hend : ∀ byte, (logical raw last stop).1 = some byte → accepts byte = false) :
    nameBytes accepts raw pos stop = (chars, last) := by
  induction h with
  | nil pos =>
    rw [nameBytes]
    split
    · next byte hbyte => rw [if_neg (by simp [hend byte hbyte])]
    · rfl
  | @cons pos next last c chars hc rest ih =>
    rw [List.all_cons, Bool.and_eq_true] at hall
    rw [nameBytes]
    split
    · next byte hbyte =>
      rw [hc] at hbyte
      cases hbyte
      rw [if_pos hall.1, hc, ih hall.2 hend]
    · next hnone =>
      rw [hc] at hnone
      cases hnone

end Reading

/-! ### Names -/

theorem nameStart_of_digit {byte : UInt8} (h : digit byte = true) : nameStart byte = false := by
  simp only [digit, inRange, Bool.and_eq_true, decide_eq_true_eq] at h
  have hne : (byte == byteOf '_') = false := by
    rw [beq_eq_false_iff_ne]
    rintro rfl
    exact absurd h (by decide)
  have h₀ : '0'.toNat = 48 := rfl
  have h₉ : '9'.toNat = 57 := rfl
  have ha : 'a'.toNat = 97 := rfl
  have hA : 'A'.toNat = 65 := rfl
  simp only [nameStart, inRange, hne, Bool.or_false, Bool.or_eq_false_iff, Bool.and_eq_false_iff,
    decide_eq_false_iff_not]
  omega

theorem nameByte_of_special {byte : UInt8} (h : specialParameter byte = true) :
    nameByte byte = false := by
  have hall : ∀ byte ∈ ascii "@*#?$!-", nameByte byte = false := by decide +kernel
  exact hall byte (List.contains_iff_mem.mp h)

theorem nameByte_operator {byte : UInt8} (h : byte ∈ ascii ":-=?+%#") : nameByte byte = false := by
  have hall : ∀ byte ∈ ascii ":-=?+%#", nameByte byte = false := by decide +kernel
  exact hall byte h

section Names

variable {raw : Bytes} {pos last stop : ℕ}

/-- A name is read to its end in braces. -/
theorem parameterName_reads {first : UInt8} {tail : Bytes}
    (hname : parameterWord (first :: tail) = true) (h : Reads raw stop pos tail last)
    (hend : ∀ byte, (logical raw last stop).1 = some byte → nameByte byte = false) :
    parameterName raw first true pos stop = some (first :: tail, last) := by
  have hdigits : ∀ byte, (logical raw last stop).1 = some byte → digit byte = false := by
    intro byte hbyte
    have := hend byte hbyte
    rw [nameByte, Bool.or_eq_false_iff] at this
    exact this.2
  simp only [parameterWord, validName, List.isEmpty_cons, List.all_cons, Bool.not_false,
    Bool.true_and, Bool.or_eq_true, Bool.and_eq_true] at hname
  rcases hname with (⟨hstart, hall⟩ | ⟨hdigit, hall⟩) | hspecial
  · rw [parameterName, if_pos hstart, nameBytes_reads h hall hend]
  · rw [parameterName, if_neg (by simp [nameStart_of_digit hdigit]), if_pos hdigit, if_pos rfl,
      nameBytes_reads h hall hdigits]
  · cases tail with
    | cons => cases hspecial
    | nil =>
      have hplain := nameByte_of_special hspecial
      rw [nameByte, Bool.or_eq_false_iff] at hplain
      cases h
      rw [parameterName, if_neg (by simp [hplain.1]), if_neg (by simp [hplain.2]), if_pos hspecial]

/-- A name without braces. -/
theorem parameterName_unbraced {first : UInt8} {tail : Bytes} (hname : bareWord (first :: tail) = true)
    (h : Reads raw stop pos tail last)
    (hend : ∀ byte, (logical raw last stop).1 = some byte → nameByte byte = false) :
    parameterName raw first false pos stop = some (first :: tail, last) := by
  simp only [bareWord, validName, Bool.or_eq_true, Bool.and_eq_true] at hname
  rcases hname with ⟨hstart, hall⟩ | hsingle
  · rw [parameterName, if_pos hstart, nameBytes_reads h hall hend]
  · cases tail with
    | cons => cases hsingle
    | nil =>
      cases h
      rcases (Bool.or_eq_true _ _).mp hsingle with hdigit | hspecial
      · rw [parameterName, if_neg (by simp [nameStart_of_digit hdigit]), if_pos hdigit]
        rfl
      · have hplain := nameByte_of_special hspecial
        rw [nameByte, Bool.or_eq_false_iff] at hplain
        rw [parameterName, if_neg (by simp [hplain.1]), if_neg (by simp [hplain.2]),
          if_pos hspecial]

/-- A parameter that fills the braces behind a number sign. -/
theorem lengthParameter_reads {name : Bytes} (hname : parameterWord name = true)
    (h : Reads raw stop pos name last) (hnone : (logical raw last stop).1 = none) :
    lengthParameter raw pos stop = true := by
  have hend : ∀ accepts : UInt8 → Bool, ∀ byte, (logical raw last stop).1 = some byte →
      accepts byte = false := by
    intro accepts byte hbyte
    rw [hnone] at hbyte
    cases hbyte
  cases h with
  | nil => cases hname
  | @cons _ next _ first tail hfirst rest =>
    rw [lengthParameter, hfirst]
    simp only [parameterWord, validName, List.isEmpty_cons, List.all_cons, Bool.not_false,
      Bool.true_and, Bool.or_eq_true, Bool.and_eq_true] at hname
    rcases hname with (⟨hstart, hall⟩ | ⟨hdigit, hall⟩) | hspecial
    · dsimp only
      rw [if_pos hstart, nameBytes_reads rest hall (hend nameByte), hnone]
      rfl
    · dsimp only
      rw [if_neg (by simp [nameStart_of_digit hdigit]), if_pos hdigit,
        nameBytes_reads rest hall (hend digit), hnone]
      rfl
    · cases tail with
      | cons => cases hspecial
      | nil =>
        have hplain := nameByte_of_special hspecial
        rw [nameByte, Bool.or_eq_false_iff] at hplain
        cases rest
        dsimp only
        rw [if_neg (by simp [hplain.1]), if_neg (by simp [hplain.2]), hnone]
        simpa using hspecial

end Names

/-! ### The header -/

/-- What `parameter` has read of a form. -/
def Form.header (name : Bytes) (operand stop : ℕ) : Form → Header
  | .plain => ⟨name, false, false, none, false, operand, stop⟩
  | .length => ⟨name, true, false, none, false, operand, stop⟩
  | .choose colon op => ⟨name, false, colon, some op.byte, false, operand, stop⟩
  | .remove suffix longest => ⟨name, false, false, some (removalByte suffix), longest, operand, stop⟩

section Header

variable {raw : Bytes} {begin stop dollar inner after pos : ℕ} {first : UInt8} {name : Bytes}

variable {c : Option UInt8}

theorem header_bare (h₁ : logical raw begin stop = (c, dollar))
    (h₂ : logical raw dollar stop = (some first, after)) (hbrace : first ≠ byteOf '{')
    (hle : dollar ≤ stop) (hname : parameterName raw first false after stop = some (name, pos))
    (hend : logical raw pos stop = (none, stop)) :
    parameterHeader raw begin stop = .ok (Form.plain.header name stop stop) := by
  have hbraced : (some first == some (byteOf '{')) = false := by simpa using hbrace
  simp [parameterHeader, h₁, h₂, hbraced, Nat.not_lt.mpr hle, hname, hend, Form.header]
  rfl

theorem header_braced (h₁ : logical raw begin stop = (c, dollar))
    (h₂ : logical raw dollar stop = (some (byteOf '{'), inner)) (hle : inner ≤ stop - 1)
    (h₃ : logical raw inner (stop - 1) = (some first, after))
    (hlength : (first == byteOf '#' && lengthParameter raw after (stop - 1)) = false)
    (hname : parameterName raw first true after (stop - 1) = some (name, pos)) :
    parameterHeader raw begin stop =
      match logical raw pos (stop - 1) with
      | (none, pos) => .ok (Form.plain.header name pos (stop - 1))
      | (some byte, pos) =>
        match parameterOperator raw byte pos (stop - 1) with
        | some (colon, op, longest, operand) =>
          .ok ⟨name, false, colon, some op, longest, operand, stop - 1⟩
        | none => .error .invalid := by
  have hle' := Nat.not_lt.mpr hle
  rcases hnext : logical raw pos (stop - 1) with ⟨_ | byte, next⟩
  · simp [parameterHeader, h₁, h₂, h₃, hlength, hle', hname, hnext, Form.header]
    rfl
  · rcases hop : parameterOperator raw byte next (stop - 1) with _ | ⟨colon, op, longest, operand⟩
    · simp [parameterHeader, h₁, h₂, h₃, hlength, hle', hname, hnext, hop]
      rfl
    · simp [parameterHeader, h₁, h₂, h₃, hlength, hle', hname, hnext, hop]
      rfl

theorem header_length {p : ℕ} (h₁ : logical raw begin stop = (c, dollar))
    (h₂ : logical raw dollar stop = (some (byteOf '{'), inner))
    (h₃ : logical raw inner (stop - 1) = (some (byteOf '#'), p)) (hle : p ≤ stop - 1)
    (hlength : lengthParameter raw p (stop - 1) = true)
    (h₄ : logical raw p (stop - 1) = (some first, after))
    (hname : parameterName raw first true after (stop - 1) = some (name, pos))
    (hend : logical raw pos (stop - 1) = (none, stop - 1)) :
    parameterHeader raw begin stop = .ok (Form.length.header name (stop - 1) (stop - 1)) := by
  simp [parameterHeader, h₁, h₂, h₃, h₄, hlength, Nat.not_lt.mpr hle, hname, hend, Form.header]
  rfl

end Header

/-! ### What is written is read -/

theorem parameterWord_clean {name : Bytes} (h : parameterWord name = true) :
    name ≠ [] ∧ byteOf '\\' ∉ name := by
  constructor
  · rintro rfl
    cases h
  · intro hmem
    have hslash : nameByte (byteOf '\\') = false := by decide
    simp only [parameterWord, Bool.or_eq_true, Bool.and_eq_true] at h
    rcases h with (hvalid | ⟨-, hall⟩) | hspecial
    · cases name with
      | nil => cases hmem
      | cons first tail =>
        rw [validName, Bool.and_eq_true, List.all_eq_true] at hvalid
        rcases List.mem_cons.mp hmem with rfl | hmem
        · exact absurd hvalid.1 (by decide)
        · have := hvalid.2 _ hmem
          rw [hslash] at this
          cases this
    · exact absurd (List.all_eq_true.mp hall _ hmem) (by decide)
    · cases name with
      | nil => cases hmem
      | cons byte rest =>
        cases rest with
        | nil =>
          rw [List.mem_singleton] at hmem
          subst hmem
          exact absurd hspecial (by decide +kernel)
        | cons second rest => cases hspecial

theorem parameterWord_of_bare {name : Bytes} (h : bareWord name = true) :
    parameterWord name = true := by
  simp only [bareWord, parameterWord, Bool.or_eq_true] at h ⊢
  rcases h with hvalid | hsingle
  · exact .inl (.inl hvalid)
  · match name, hsingle with
    | [byte], hsingle =>
      rcases (Bool.or_eq_true _ _).mp hsingle with hdigit | hspecial
      · exact .inl (.inr (by simpa using hdigit))
      · exact .inr hspecial

theorem Form.operator_clean (form : Form) : byteOf '\\' ∉ form.operator := by
  match form with
  | .plain | .length => exact List.not_mem_nil
  | .choose colon op => cases colon <;> cases op <;> decide
  | .remove suffix longest => cases suffix <;> cases longest <;> decide

section Written

variable {raw : Bytes} {begin stop operand operandStop : ℕ} {name : Bytes} {form : Form}

/-- The opening of an expansion in braces, and the characters behind it. -/
theorem reads_opening {chars w : Bytes} (hw : Spans (byteOf '$' :: byteOf '{' :: chars) w)
    (hne : chars ≠ []) (hclean : byteOf '\\' ∉ chars) (hraw : w <+: raw.drop begin)
    (hle : begin + w.length ≤ stop - 1) :
    ∃ dollar inner, logical raw begin stop = (some (byteOf '$'), dollar) ∧
      logical raw dollar stop = (some (byteOf '{'), inner) ∧ inner ≤ stop - 1 ∧
      Reads raw (stop - 1) inner chars (begin + w.length) := by
  obtain ⟨w₁, w₂, rfl, hdollar, hrest⟩ :=
    Lexical.logical_spans hw (by decide) hraw stop (by omega)
  have hspans := hrest.resolve_left fun h => by cases h.1
  rw [List.length_append] at hle
  have hraw₂ := Lexical.starts_suffix hraw
  obtain ⟨w₃, w₄, rfl, hbrace, hrest⟩ :=
    Lexical.logical_spans hspans (by decide) hraw₂ stop (by omega)
  have hspans := hrest.resolve_left fun h => hne h.1
  rw [List.length_append] at hle
  have hreads := reads_spans hspans hclean (Lexical.starts_suffix hraw₂)
    (show begin + w₁.length + w₃.length + w₄.length ≤ stop - 1 by omega)
  refine ⟨_, _, hdollar, hbrace, by omega, ?_⟩
  rwa [List.length_append, List.length_append, ← Nat.add_assoc, ← Nat.add_assoc]

theorem parameterOperator_removal (suffix : Bool) (pos : ℕ) :
    parameterOperator raw (removalByte suffix) pos stop =
      match logical raw pos stop with
      | (some byte, after) =>
        if byte == removalByte suffix then some (false, removalByte suffix, true, after)
        else some (false, removalByte suffix, false, pos)
      | (none, _) => some (false, removalByte suffix, false, pos) := by
  cases suffix <;> rfl

/-- The operator behind a name. -/
theorem parameterOperator_reads {pos last : ℕ} {text : Bytes} (hform : form ≠ .plain ∧ form ≠ .length)
    (h : Reads raw stop pos form.operator last) (htext : text <+: raw.drop last)
    (hstop : stop = last + text.length) (hclear : ¬form.Mistaken name text) :
    ∃ byte next, logical raw pos stop = (some byte, next) ∧ byte ∈ ascii ":-=?+%#" ∧
      ∃ colon op longest, parameterOperator raw byte next stop = some (colon, op, longest, last) ∧
        form.header name last stop = ⟨name, false, colon, some op, longest, last, stop⟩ := by
  match form, hform with
  | .choose false op, _ =>
    cases h with
    | cons hop rest =>
      cases rest
      refine ⟨_, _, hop, by cases op <;> decide +kernel, false, op.byte, false, ?_, rfl⟩
      cases op <;> rfl
  | .choose true op, _ =>
    cases h with
    | cons hcolon rest =>
      cases rest with
      | cons hop rest =>
        cases rest
        refine ⟨_, _, hcolon, by decide +kernel, true, op.byte, false, ?_, rfl⟩
        simp only [parameterOperator, beq_self_eq_true, if_true, hop]
        cases op <;> rfl
  | .remove suffix true, _ =>
    cases h with
    | cons hop rest =>
      cases rest with
      | cons hagain rest =>
        cases rest
        refine ⟨_, _, hop, by cases suffix <;> decide +kernel, false, removalByte suffix, true, ?_, rfl⟩
        rw [parameterOperator_removal, hagain]
        exact if_pos (beq_self_eq_true _)
  | .remove suffix false, _ =>
    cases h with
    | cons hop rest =>
      cases rest
      refine ⟨_, _, hop, by cases suffix <;> decide +kernel, false, removalByte suffix, false, ?_, rfl⟩
      rw [parameterOperator_removal]
      -- the operand does not go on with the operator
      rcases logical_operand htext hstop with ⟨hnone, -⟩ | ⟨c, w, hsome, hw, hpre⟩
      · rw [hnone]
      · have hne : c ≠ removalByte suffix := by
          rintro rfl
          exact hclear ⟨rfl, .inl ⟨w, hw, hpre⟩⟩
        rcases hlogical : logical raw last stop with ⟨byte, after⟩
        rw [hlogical] at hsome
        cases hsome
        exact if_neg (by simpa using hne)

/-- Behind `${#`, an operator with its operand is no parameter whose length is asked
for. -/
theorem not_lengthParameter {pos last : ℕ} {text : Bytes} (hform : form ≠ .plain ∧ form ≠ .length)
    (h : Reads raw stop pos form.operator last) (htext : text <+: raw.drop last)
    (hstop : stop = last + text.length) (hclear : ¬form.Mistaken [byteOf '#'] text) :
    lengthParameter raw pos stop = false := by
  have hplain : ∀ byte ∈ ascii ":-=?+%#", nameStart byte = false ∧ digit byte = false := by
    decide +kernel
  -- the first character of the operator is a parameter only for three of the forms
  have hfirst : ∀ {byte next}, logical raw pos stop = (some byte, next) → byte ∈ ascii ":-=?+%#" →
      (specialParameter byte = true → (logical raw next stop).1.isNone = false) →
      lengthParameter raw pos stop = false := by
    intro byte next hbyte hmem hspecial
    obtain ⟨hstart, hdigit⟩ := hplain byte hmem
    rw [lengthParameter, hbyte]
    dsimp only
    rw [if_neg (by simp [hstart]), if_neg (by simp [hdigit])]
    by_cases hsp : specialParameter byte = true
    · rw [hspecial hsp, Bool.and_false]
    · rw [Bool.eq_false_iff.mpr hsp, Bool.false_and]
  have hsome : ¬Spells [] text → (logical raw last stop).1.isNone = false := by
    intro hspells
    rcases logical_operand htext hstop with ⟨-, hnil⟩ | ⟨c, w, hsome, -⟩
    · exact absurd hnil hspells
    · rw [hsome]
      rfl
  match form, hform with
  | .choose true op, _ =>
    cases h with
    | cons hcolon rest =>
      exact hfirst hcolon (by decide +kernel) fun h => absurd h (by decide +kernel)
  | .choose false op, _ =>
    cases h with
    | cons hop rest =>
      cases rest
      refine hfirst hop (by cases op <;> decide +kernel) fun hspecial => hsome fun hspells => ?_
      refine hclear ⟨rfl, rfl, ?_, hspells⟩
      cases op with
      | minus => exact .inl rfl
      | question => exact .inr rfl
      | equals => exact absurd hspecial (by decide +kernel)
      | plus => exact absurd hspecial (by decide +kernel)
  | .remove suffix true, _ =>
    cases h with
    | cons hop rest =>
      cases rest with
      | cons hagain rest =>
        refine hfirst hop (by cases suffix <;> decide +kernel) fun _ => ?_
        rw [hagain]
        rfl
  | .remove true false, _ =>
    cases h with
    | cons hop rest =>
      exact hfirst hop (by decide +kernel) fun h => absurd h (by decide +kernel)
  | .remove false false, _ =>
    cases h with
    | cons hop rest =>
      cases rest
      exact hfirst hop (by decide +kernel) fun _ => hsome fun hspells =>
        hclear ⟨rfl, .inr ⟨rfl, rfl, hspells⟩⟩

theorem parameterWord_first {first : UInt8} {tail : Bytes}
    (h : parameterWord (first :: tail) = true) :
    nameByte first = true ∨ specialParameter first = true := by
  simp only [parameterWord, validName, List.all_cons, Bool.or_eq_true, Bool.and_eq_true] at h
  rcases h with (⟨hstart, -⟩ | ⟨-, hdigit, -⟩) | hspecial
  · exact .inl (by rw [nameByte, hstart, Bool.true_or])
  · exact .inl (by rw [nameByte, hdigit, Bool.or_true])
  · cases tail with
    | nil => exact .inr hspecial
    | cons => cases hspecial

theorem parameterWord_hash {tail : Bytes} (h : parameterWord (byteOf '#' :: tail) = true) :
    tail = [] := by
  cases tail with
  | nil => rfl
  | cons next tail =>
    simp only [parameterWord, validName, List.isEmpty_cons, List.all_cons] at h
    exact absurd h (by simp [show nameStart (byteOf '#') = false by decide,
      show digit (byteOf '#') = false by decide])

/-- **The reader finds the name, the form and the operand that are written.** -/
theorem Writes.header (h : Writes raw begin stop name form operand operandStop) :
    parameterHeader raw begin stop = .ok (form.header name operand operandStop) := by
  cases h with
  | @bare w hname hw hraw hstop =>
    obtain ⟨hne, hclean⟩ := parameterWord_clean (parameterWord_of_bare hname)
    obtain ⟨first, tail, rfl⟩ := List.exists_cons_of_ne_nil hne
    obtain ⟨w₁, w₂, rfl, hdollar, hrest⟩ :=
      Lexical.logical_spans hw (by decide) hraw stop (by omega)
    have hspans := hrest.resolve_left fun h => by cases h.1
    rw [List.length_append] at hstop
    have hreads := reads_spans hspans hclean (Lexical.starts_suffix hraw)
      (show begin + w₁.length + w₂.length ≤ stop by omega)
    have hlast : begin + w₁.length + w₂.length = stop := by omega
    rw [hlast] at hreads
    have hnone : logical raw stop stop = (none, stop) := by
      have hskip : skipContinuations raw stop stop = stop := by
        rw [skipContinuations, if_neg]
        rintro ⟨hlt, -⟩
        omega
      unfold logical
      rw [hskip]
      exact if_neg (Nat.lt_irrefl _)
    cases hreads with
    | cons hfirst htail =>
      refine header_bare hdollar hfirst ?_ (by omega) (parameterName_unbraced hname htail ?_) hnone
      · rintro rfl
        rcases parameterWord_first (parameterWord_of_bare hname) with h | h
        · exact absurd h (by decide)
        · exact absurd h (by decide +kernel)
      · intro byte hbyte
        rw [hnone] at hbyte
        cases hbyte
  | @plain w rest hname hw hrest hraw hstop =>
    obtain ⟨hne, hclean⟩ := parameterWord_clean hname
    rw [List.append_assoc] at hraw
    have hopening := (List.prefix_append w _).trans hraw
    have hclosing := (List.prefix_append rest _).trans (Lexical.starts_suffix hraw)
    obtain ⟨dollar, inner, hdollar, hbrace, hle, hreads⟩ :=
      reads_opening hw hne hclean hopening (show begin + w.length ≤ stop - 1 by omega)
    have hnone : logical raw (begin + w.length) (stop - 1) = (none, stop - 1) :=
      logical_none hrest hclosing (by omega)
    cases hreads with
    | nil => exact absurd rfl hne
    | @cons _ next _ first tail hfirst htail =>
      have hlength : (first == byteOf '#' && lengthParameter raw next (stop - 1)) = false := by
        rw [Bool.and_eq_false_iff, beq_eq_false_iff_ne]
        refine Classical.or_iff_not_imp_left.mpr fun heq => ?_
        obtain rfl := not_ne_iff.mp heq
        obtain rfl := parameterWord_hash hname
        cases htail
        rw [lengthParameter, hnone]
      have hend : ∀ byte, (logical raw (begin + w.length) (stop - 1)).1 = some byte →
          nameByte byte = false := by
        intro byte hbyte
        rw [hnone] at hbyte
        cases hbyte
      rw [header_braced hdollar hbrace hle hfirst hlength (parameterName_reads hname htail hend), hnone]
  | @length w rest hname hw hrest hraw hstop =>
    obtain ⟨hne, hclean⟩ := parameterWord_clean hname
    rw [List.append_assoc] at hraw
    have hopening := (List.prefix_append w _).trans hraw
    have hclosing := (List.prefix_append rest _).trans (Lexical.starts_suffix hraw)
    have hclean' : byteOf '\\' ∉ byteOf '#' :: name := by
      rw [List.mem_cons, not_or]
      exact ⟨by decide, hclean⟩
    obtain ⟨dollar, inner, hdollar, hbrace, hle, hreads⟩ :=
      reads_opening hw (List.cons_ne_nil _ _) hclean' hopening
        (show begin + w.length ≤ stop - 1 by omega)
    have hnone : logical raw (begin + w.length) (stop - 1) = (none, stop - 1) :=
      logical_none hrest hclosing (by omega)
    cases hreads with
    | @cons _ p _ _ _ hhash hreads =>
      have hlength := lengthParameter_reads hname hreads (by rw [hnone])
      have hp : p ≤ stop - 1 := (logical_lt (by rw [hhash])).2.trans_eq' (by rw [hhash])
      cases hreads with
      | nil => exact absurd rfl hne
      | @cons _ next _ first tail hfirst htail =>
        have hend : ∀ byte, (logical raw (begin + w.length) (stop - 1)).1 = some byte →
            nameByte byte = false := by
          intro byte hbyte
          rw [hnone] at hbyte
          cases hbyte
        exact header_length hdollar hbrace hhash hp hlength hfirst
          (parameterName_reads hname htail hend) hnone
  | @operand w text _ hname hform hw hclear hraw hstop =>
    obtain ⟨hne, hclean⟩ := parameterWord_clean hname
    rw [List.append_assoc] at hraw
    have hopening := (List.prefix_append w _).trans hraw
    have htext := (List.prefix_append text _).trans (Lexical.starts_suffix hraw)
    have hclean' : byteOf '\\' ∉ name ++ form.operator := by
      rw [List.mem_append, not_or]
      exact ⟨hclean, form.operator_clean⟩
    obtain ⟨dollar, inner, hdollar, hbrace, hle, hreads⟩ :=
      reads_opening hw (by simp [hne]) hclean' hopening
        (show begin + w.length ≤ stop - 1 by omega)
    obtain ⟨pos, hname', hop⟩ := Reads.append_iff.mp hreads
    obtain ⟨byte, next, hbyte, hmem, colon, op, longest, hoperator, hheader⟩ :=
      @parameterOperator_reads raw (stop - 1) name form pos (begin + w.length) text hform hop htext
        (by omega) hclear
    cases hname' with
    | nil => exact absurd rfl hne
    | @cons _ after _ first tail hfirst htail =>
      have hlength : (first == byteOf '#' && lengthParameter raw after (stop - 1)) = false := by
        rw [Bool.and_eq_false_iff, beq_eq_false_iff_ne]
        refine Classical.or_iff_not_imp_left.mpr fun heq => ?_
        obtain rfl := not_ne_iff.mp heq
        obtain rfl := parameterWord_hash hname
        cases htail
        exact not_lengthParameter hform hop htext (by omega) hclear
      have hend : ∀ byte', (logical raw pos (stop - 1)).1 = some byte' → nameByte byte' = false := by
        intro byte' hbyte'
        rw [hbyte] at hbyte'
        cases hbyte'
        exact nameByte_operator hmem
      rw [header_braced hdollar hbrace hle hfirst hlength (parameterName_reads hname htail hend),
        hbyte]
      dsimp only
      rw [hoperator, hheader]

end Written

end Expand
end CShell
