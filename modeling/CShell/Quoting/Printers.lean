import Mathlib.Data.List.TakeWhile
import CShell.State

/-!
# The quoting printers

Four places of the shell write a value so that it can be read again: `quoted` for
`set`, `export -p` and `readonly -p`, `print_alias`, `quote_action` for `trap`, and
`trace_word` for `xtrace`.  They were written separately, but all of them put the
value in single quotes and a quote of the value as an escaped one between two
quoted parts.

## Main definitions

* `quoted`, `printAlias`, `quoteAction`, `traceWord` — the printers.
* `Printer` — one of them; `Printer.text` the word it writes, `Printer.field` what
  the word stands for.
* `Part`, `spelling`, `meaning` — a word in single-quoted parts and escaped quotes.

## Main results

* `Printer.text_eq` — **every printer writes an unquoted beginning and then such
  parts**, which together mean the field.

## References

`src/builtin.c`, `src/alias.c`, `src/traps.c`, `src/execute.c`.
-/

namespace CShell
namespace Quoting

open List

/-- The single quote. -/
abbrev tick : UInt8 := byteOf '\''

/-- `'\''`: the end of a quoted part, an escaped quote and the next part. -/
def interrupted : Bytes := [tick, byteOf '\\', tick, tick]

/-! ### The printers -/

/-- The loop of `quoted`, which copies up to the next quote at a time. -/
def quotedLoop (s : Bytes) : Bytes :=
  match _hdrop : s.dropWhile (· != tick) with
  | [] => s.takeWhile (· != tick)
  | _ :: rest => s.takeWhile (· != tick) ++ interrupted ++ quotedLoop rest
termination_by s.length
decreasing_by
  have hle := (List.dropWhile_suffix (· != tick) (l := s)).length_le
  rw [_hdrop, List.length_cons] at hle
  omega

/-- `quoted`. -/
def quoted (value : Bytes) : Bytes := tick :: quotedLoop value ++ [tick]

/-- The loop of the other three, which copies byte by byte. -/
def quoteBytes : Bytes → Bytes
  | [] => []
  | byte :: rest => (if byte = tick then interrupted else [byte]) ++ quoteBytes rest

/-- `print_alias`. -/
def printAlias (name value : Bytes) : Bytes :=
  name ++ [byteOf '=', tick] ++ quoteBytes value ++ [tick, byteOf '\n']

/-- `quote_action`. -/
def quoteAction (action : Bytes) : Bytes := tick :: quoteBytes action ++ [tick]

/-- The bytes that `trace_word` leaves unquoted. -/
def traceSafe (byte : UInt8) : Bool :=
  (ascii "abcdefghijklmnopqrstuvwxyzABCDEFGHIJKLMNOPQRSTUVWXYZ0123456789_./-:=+").contains byte

/-- `trace_word`. -/
def traceWord (word : Bytes) : Bytes :=
  if !word.isEmpty && word.all traceSafe then word
  else tick :: quoteBytes word ++ [tick]

/-- One of the printers. -/
inductive Printer
  | quoted
  | quoteAction
  | traceWord
  | printAlias (name : Bytes)
  deriving DecidableEq, Repr

/-- The word a printer writes; an alias is written on a line of its own. -/
def Printer.text : Printer → Bytes → Bytes
  | .quoted, value => Quoting.quoted value
  | .quoteAction, value => Quoting.quoteAction value
  | .traceWord, value => Quoting.traceWord value
  | .printAlias name, value => (Quoting.printAlias name value).dropLast

/-- What the word stands for. -/
def Printer.field : Printer → Bytes → Bytes
  | .printAlias name, value => name ++ [byteOf '='] ++ value
  | _, value => value

/-- The names in the alias table are valid. -/
def Printer.Valid : Printer → Prop
  | .printAlias name => Alias.validName name = true
  | _ => True

/-! ### Quoted parts -/

/-- A part of a word behind its unquoted beginning. -/
inductive Part
  /-- Bytes in single quotes, none of them a quote. -/
  | single (text : Bytes)
  /-- An escaped quote. -/
  | quote
  deriving DecidableEq, Repr

/-- The spelling of a part. -/
def Part.spelling : Part → Bytes
  | .single text => tick :: text ++ [tick]
  | .quote => [byteOf '\\', tick]

/-- What a part stands for. -/
def Part.meaning : Part → Bytes
  | .single text => text
  | .quote => [tick]

/-- The spelling of a list of parts. -/
def spelling (parts : List Part) : Bytes := parts.flatMap Part.spelling

/-- What a list of parts stands for. -/
def meaning (parts : List Part) : Bytes := parts.flatMap Part.meaning

@[simp] theorem spelling_nil : spelling [] = [] := rfl

@[simp] theorem spelling_cons (part : Part) (parts : List Part) :
    spelling (part :: parts) = part.spelling ++ spelling parts := flatMap_cons

@[simp] theorem meaning_nil : meaning [] = [] := rfl

@[simp] theorem meaning_cons (part : Part) (parts : List Part) :
    meaning (part :: parts) = part.meaning ++ meaning parts := flatMap_cons

/-- A part as a printer makes it of a C string. -/
def Part.Fine : Part → Prop
  | .single text => tick ∉ text ∧ NulFree text
  | .quote => True

/-- The parts of a value, `text` being the beginning of the first one. -/
def partsFrom (text : Bytes) : Bytes → List Part
  | [] => [.single text]
  | byte :: rest =>
    if byte = tick then .single text :: .quote :: partsFrom [] rest
    else partsFrom (text ++ [byte]) rest

theorem meaning_partsFrom (text value : Bytes) : meaning (partsFrom text value) = text ++ value := by
  induction value generalizing text with
  | nil => simp [partsFrom, Part.meaning]
  | cons byte rest ih =>
    unfold partsFrom
    split
    · next hbyte =>
      subst hbyte
      simp [Part.meaning, ih]
    · simp [ih]

theorem spelling_partsFrom (text value : Bytes) :
    spelling (partsFrom text value) = tick :: text ++ quoteBytes value ++ [tick] := by
  induction value generalizing text with
  | nil => simp [partsFrom, Part.spelling, quoteBytes]
  | cons byte rest ih =>
    unfold partsFrom quoteBytes
    by_cases hbyte : byte = tick
    · simp [hbyte, Part.spelling, ih, interrupted]
    · simp [hbyte, ih]

theorem fine_partsFrom {text value : Bytes} (htext : tick ∉ text) (hnul : NulFree (text ++ value)) :
    ∀ part ∈ partsFrom text value, part.Fine := by
  induction value generalizing text with
  | nil =>
    intro part hpart
    rw [partsFrom, mem_singleton] at hpart
    subst hpart
    exact ⟨htext, by simpa using hnul⟩
  | cons byte rest ih =>
    have hparts : NulFree text ∧ NulFree rest := by
      simp only [NulFree, mem_append, mem_cons, not_or] at hnul ⊢
      exact ⟨hnul.1, hnul.2.2⟩
    unfold partsFrom
    split
    · intro part hpart
      simp only [mem_cons] at hpart
      rcases hpart with rfl | rfl | hrest
      · exact ⟨htext, hparts.1⟩
      · trivial
      · exact ih (by simp) (by simpa using hparts.2) part hrest
    · next hbyte =>
      refine ih ?_ (by simpa using hnul)
      simp only [mem_append, mem_singleton, not_or]
      exact ⟨htext, fun h => hbyte h.symm⟩

theorem partsFrom_ne_nil (text value : Bytes) : partsFrom text value ≠ [] := by
  induction value generalizing text with
  | nil => simp [partsFrom]
  | cons byte rest ih =>
    unfold partsFrom
    split
    · simp
    · exact ih _

/-! ### The printers write parts -/

/-- Copying up to the next quote comes to the same as copying byte by byte. -/
theorem quotedLoop_eq (s : Bytes) : quotedLoop s = quoteBytes s := by
  have hplain : ∀ text : Bytes, (∀ b ∈ text, (b != tick) = true) → ∀ rest,
      quoteBytes (text ++ rest) = text ++ quoteBytes rest := by
    intro text htext rest
    induction text with
    | nil => rfl
    | cons byte text ih =>
      have hbyte : byte ≠ tick := by simpa using htext byte mem_cons_self
      rw [cons_append, quoteBytes, if_neg hbyte, ih fun b hb => htext b (mem_cons_of_mem _ hb)]
      rfl
  have hsplit (s : Bytes) := takeWhile_append_dropWhile (p := (· != tick)) (l := s)
  have htake (s : Bytes) : ∀ b ∈ s.takeWhile (· != tick), (b != tick) = true :=
    fun b hb => mem_takeWhile_imp (p := (· != tick)) hb
  fun_induction quotedLoop s with
  | case1 s hdrop =>
    have hs := hsplit s
    rw [hdrop] at hs
    conv_rhs => rw [← hs]
    rw [hplain _ (htake s)]
    simp [quoteBytes]
  | case2 s byte rest hdrop ih =>
    have hs := hsplit s
    rw [hdrop] at hs
    have hbyte : byte = tick := by
      have hhead := head?_dropWhile_not (· != tick) s
      rw [hdrop] at hhead
      simpa using hhead
    conv_rhs => rw [← hs]
    rw [hplain _ (htake s), quoteBytes, if_pos hbyte, ih, append_assoc]

/-- A byte that means itself in an unquoted word, and in a pattern. -/
def ordinary (byte : UInt8) : Bool := Alias.nameByte byte || traceSafe byte

/-- **What a printer writes** is an unquoted beginning of ordinary bytes and quoted
parts, together standing for the field. -/
theorem Printer.text_eq (printer : Printer) (hvalid : printer.Valid) {value : Bytes}
    (hnul : NulFree value) :
    ∃ lead parts, printer.text value = lead ++ spelling parts ∧
      printer.field value = lead ++ meaning parts ∧ (∀ byte ∈ lead, ordinary byte = true) ∧
      (∀ part ∈ parts, part.Fine) ∧ (lead ≠ [] ∨ parts ≠ []) ∧
      (parts = [] ∧ printer.field value = value ∨ meaning parts = value) := by
  have hfine : ∀ part ∈ partsFrom [] value, part.Fine := fine_partsFrom (by simp) hnul
  have hspell := spelling_partsFrom [] value
  have hmean := meaning_partsFrom [] value
  have hne := partsFrom_ne_nil [] value
  rw [nil_append] at hmean
  cases printer with
  | quoted =>
    refine ⟨[], partsFrom [] value, ?_, hmean.symm, by simp, hfine, Or.inr hne, Or.inr hmean⟩
    rw [nil_append, hspell]
    simp [text, Quoting.quoted, quotedLoop_eq]
  | quoteAction =>
    exact ⟨[], partsFrom [] value, hspell.symm, hmean.symm, by simp, hfine, Or.inr hne, Or.inr hmean⟩
  | traceWord =>
    by_cases hsafe : (!value.isEmpty && value.all traceSafe) = true
    · rw [Bool.and_eq_true, all_eq_true] at hsafe
      refine ⟨value, [], ?_, by simp [field], ?_, by simp, Or.inl ?_, Or.inl ⟨rfl, rfl⟩⟩
      · simp only [text, Quoting.traceWord, spelling_nil, append_nil]
        rw [if_pos (by simpa using hsafe)]
      · intro byte hbyte
        simp [ordinary, hsafe.2 byte hbyte]
      · simpa using hsafe.1
    · refine ⟨[], partsFrom [] value, ?_, hmean.symm, by simp, hfine, Or.inr hne, Or.inr hmean⟩
      simp only [text, Quoting.traceWord, hsafe, nil_append]
      exact hspell.symm
  | printAlias name =>
    have hname : Alias.validName name = true := hvalid
    simp only [Alias.validName, Bool.and_eq_true, all_eq_true] at hname
    refine ⟨name ++ [byteOf '='], partsFrom [] value, ?_, by simp [field, hmean], ?_, hfine,
      Or.inr hne, Or.inr hmean⟩
    · have hline : Quoting.printAlias name value =
          name ++ [byteOf '='] ++ ([tick] ++ quoteBytes value ++ [tick]) ++ [byteOf '\n'] := by
        simp [Quoting.printAlias]
      rw [hspell, text, hline, dropLast_concat]
    · intro byte hbyte
      rcases mem_append.mp hbyte with h | h
      · simp [ordinary, hname.2 byte h]
      · rw [mem_singleton.mp h]
        decide

end Quoting
end CShell
