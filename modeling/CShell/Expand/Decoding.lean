import CShell.Lib.Numeral
import CShell.Expand.Quote

/-!
# What a dollar-single-quoted text stands for

`csh_quote_decode` writes into a buffer of the length of its input, so that no escape may
stand for more bytes than it is spelled with.  Its result is compared with rules of
decoding that know nothing of cursors: an escape stands for one byte, a text that spells no
escape keeps its backslash, and an escape that denotes NUL ends the value.

## Main definitions

* `Spells escape rest byte` — the text behind a backslash is an escape of a byte.
* `Decodes d text value` — the rules of decoding.
* `decodeRound` — one round of the loop, and `Rounds` the states it passes through.

## Main results

* `quoteDecodeLoop_eq` — the loop is its rounds.
* `Rounds.length_le` — no more bytes are written than are consumed.
* `Decodes.loop`, `exists_decodes` — the rules and the loop agree.
* `quoteDecode_decodes` — **the decoder follows the rules**, within its buffer.

## References

`src/quote.c` (`csh_quote_decode`).
-/

namespace CShell
namespace Decoding

open List

variable {lexical active : Decoder}

/-! ### The rules -/

/-- The escapes of one letter, with the bytes they stand for. -/
def letters : List (UInt8 × UInt8) :=
  [(byteOf '"', byteOf '"'), (byteOf '\'', byteOf '\''), (byteOf '\\', byteOf '\\'),
    (byteOf 'a', 7), (byteOf 'b', 8), (byteOf 'e', 27), (byteOf 'f', 12), (byteOf 'n', 10),
    (byteOf 'r', 13), (byteOf 't', 9), (byteOf 'v', 11)]

/-- The control character of a letter in either case and of `[`, `\`, `]`, `^` and `_` is in
the last five bits, and the one of `?` is DEL. -/
def controlOf (byte : UInt8) : Option UInt8 :=
  if inRange 'a' 'z' byte || inRange 'A' '_' byte then some (byte &&& 31)
  else if byte = byteOf '?' then some 127
  else none

/-- Between one and `limit` digits, as many as there are before `rest`. -/
structure Digits (digitOf : UInt8 → Option ℕ) (limit : ℕ) (digits rest : Bytes)
    (values : List ℕ) : Prop where
  spelled : Numeral.Spelled digitOf digits values
  nonempty : digits ≠ []
  longest : Numeral.Longest digitOf limit digits rest

/-- **The escapes.**  A text behind a backslash, with another one behind it, stands for a
byte. -/
inductive Spells : Bytes → Bytes → UInt8 → Prop
  | letter {c byte rest} (h : (c, byte) ∈ letters) : Spells [c] rest byte
  | control {c byte rest} (hc : c ≠ byteOf '\\') (h : controlOf c = some byte) :
      Spells [byteOf 'c', c] rest byte
  | controlBackslash {rest} : Spells [byteOf 'c', byteOf '\\', byteOf '\\'] rest 28
  | hexadecimal {digits rest values} (h : Digits hexadecimal 2 digits rest values) :
      Spells (byteOf 'x' :: digits) rest (Nat.ofDigits 16 values.reverse).toUInt8
  | octal {digits rest values} (h : Digits octal 3 digits rest values) :
      Spells digits rest (Nat.ofDigits 8 values.reverse % 256).toUInt8

/-- A text behind a backslash begins with an escape. -/
def Escaped (text : Bytes) : Prop :=
  ∃ escape rest byte, text = escape ++ rest ∧ Spells escape rest byte

/-- **The rules of decoding.**  Characters stand for themselves, and so does a backslash
behind which no escape is spelled; what follows an escape of NUL is dropped. -/
inductive Decodes (d : Decoder) : Bytes → Bytes → Prop
  | nil : Decodes d [] []
  | character {byte rest value} (hne : byte ≠ byteOf '\\')
      (h : Decodes d (rest.drop (d.characterLength (byte :: rest) true - 1)) value) :
      Decodes d (byte :: rest)
        (byte :: rest.take (d.characterLength (byte :: rest) true - 1) ++ value)
  | lone : Decodes d [byteOf '\\'] [byteOf '\\']
  | escape {escape rest byte value} (hspells : Spells escape rest byte) (hne : byte ≠ 0)
      (h : Decodes d rest value) : Decodes d (byteOf '\\' :: (escape ++ rest)) (byte :: value)
  | nul {escape rest} (hspells : Spells escape rest 0) :
      Decodes d (byteOf '\\' :: (escape ++ rest)) []
  | kept {byte rest value} (hplain : ¬Escaped (byte :: rest))
      (h : Decodes d (rest.drop (d.characterLength (byte :: rest) true - 1)) value) :
      Decodes d (byteOf '\\' :: byte :: rest)
        (byteOf '\\' :: byte :: rest.take (d.characterLength (byte :: rest) true - 1) ++ value)

/-! ### Tables -/

theorem control_eq (byte : UInt8) : control byte = controlOf byte := by
  revert byte
  apply forall_byte
  decide +kernel

/-- The letters of `letterEscape`, `e` apart. -/
theorem letterEscape_eq_some {c byte : UInt8} :
    letterEscape c = some byte ↔ (c, byte) ∈ letters ∧ c ≠ byteOf 'e' := by
  have hall : ∀ c : UInt8, letterEscape c =
      if c = byteOf 'e' then none else (letters.find? fun l => l.1 == c).map Prod.snd := by
    apply forall_byte
    decide +kernel
  have hnodup : (letters.map Prod.fst).Nodup := by decide
  rw [hall]
  by_cases he : c = byteOf 'e'
  · simp [he]
  · rw [if_neg he, Option.map_eq_some_iff]
    constructor
    · rintro ⟨⟨c', byte'⟩, hfind, rfl⟩
      have hc : c' = c := by simpa using find?_some hfind
      subst hc
      exact ⟨mem_of_find?_eq_some hfind, he⟩
    · rintro ⟨hmem, -⟩
      cases hfind : letters.find? fun l => l.1 == c with
      | none =>
        rw [find?_eq_none] at hfind
        have hfalse := hfind _ hmem
        simp at hfalse
      | some l =>
        have hc : l.1 = c := by simpa using find?_some hfind
        have hl := inj_on_of_nodup_map hnodup (mem_of_find?_eq_some hfind) hmem hc
        exact ⟨l, rfl, by rw [hl]⟩

/-! ### Digits -/

/-- `readDigits` takes the longest numeral. -/
theorem readDigits_append (base : ℕ) {digitOf : UInt8 → Option ℕ} {digits rest : Bytes}
    {values : List ℕ} (h : Numeral.Spelled digitOf digits values) :
    ∀ {limit : ℕ} (value : ℕ), Numeral.Longest digitOf limit digits rest →
      readDigits base digitOf limit value (digits ++ rest) =
        (values.foldl (fun n d => n * base + d) value, rest) := by
  induction h with
  | nil =>
    intro limit value hlongest
    cases limit with
    | zero => rfl
    | succ limit =>
      cases rest with
      | nil => rfl
      | cons byte rest =>
        have hbyte := Numeral.longest_nil_iff.mp hlongest byte rfl
        simp [readDigits, hbyte]
  | @cons byte d digits values hd _ ih =>
    intro limit value hlongest
    cases limit with
    | zero => exact absurd hlongest.1 (by simp)
    | succ limit =>
      rw [cons_append, readDigits, hd]
      simp only [foldl_cons]
      exact ih _ (Numeral.longest_cons_iff.mp hlongest)

/-! ### One escape -/

/-- What `decodeEscape` does with an escape. -/
abbrev escapeOf (byte : UInt8) (checkControl : Bool) (rest : Bytes) : Escape :=
  { byte, checkControl, rest }

/-- **An escape is decoded to its byte.** -/
theorem decodeEscape_spells {escaped byte : UInt8} {more rest : Bytes}
    (h : Spells (escaped :: more) rest byte) :
    ∃ checkControl, decodeEscape escaped (more ++ rest) = escapeOf byte checkControl rest ∧
      (checkControl = true → byte < 32 ∨ byte = 127) := by
  generalize htext : escaped :: more = text at h
  cases h with
  | @letter c _ _ hmem =>
    obtain ⟨rfl, rfl⟩ := cons.inj htext
    by_cases he : escaped = byteOf 'e'
    · have hall : letters.all (fun l => l.1 != byteOf 'e' || l.2 == 27) = true := by decide
      have hbyte : byte = 27 := by simpa [he] using all_eq_true.mp hall _ hmem
      subst he hbyte
      exact ⟨true, rfl, fun _ => .inl (by decide)⟩
    · refine ⟨false, ?_, by simp⟩
      have hletter := letterEscape_eq_some.mpr ⟨hmem, he⟩
      simp [decodeEscape, hletter, escapeOf]
  | @control c _ _ hc hcontrol =>
    obtain ⟨rfl, rfl⟩ := cons.inj htext
    refine ⟨true, ?_, ?_⟩
    · rw [← control_eq] at hcontrol
      have hletter : letterEscape (byteOf 'c') = none := by decide
      have hne : (byteOf 'c' == byteOf 'e') = false := by decide
      have hself : (c != byteOf '\\') = true := by simpa using hc
      simp [decodeEscape, hletter, hne, hcontrol, hself, escapeOf]
    · intro _
      have hall : ∀ c : UInt8, ∀ b ∈ controlOf c, b < 32 ∨ b = 127 := by
        apply forall_byte
        decide +kernel
      exact hall c byte hcontrol
  | controlBackslash =>
    obtain ⟨rfl, rfl⟩ := cons.inj htext
    refine ⟨true, ?_, fun _ => .inl (by decide)⟩
    have hletter : letterEscape (byteOf 'c') = none := by decide
    have hcontrol : control (byteOf '\\') = some 28 := by decide
    have hne : (byteOf 'c' == byteOf 'e') = false := by decide
    simp [decodeEscape, hletter, hne, hcontrol, escapeOf]
  | @hexadecimal digits _ values hnumeral =>
    obtain ⟨rfl, rfl⟩ := cons.inj htext
    refine ⟨false, ?_, by simp⟩
    have hletter : letterEscape (byteOf 'x') = none := by decide
    have hne : (byteOf 'x' == byteOf 'e') = false ∧ (byteOf 'x' == byteOf 'c') = false := by decide
    have hread := readDigits_append 16 hnumeral.spelled 0 hnumeral.longest
    have hlonger : rest.length < (more ++ rest).length := by
      have := length_pos_iff.mpr hnumeral.nonempty
      rw [length_append]
      omega
    simp only [decodeEscape, hletter, hne.1, hne.2, Bool.false_eq_true, if_false, beq_self_eq_true,
      if_true, hread, hlonger, Numeral.foldl_eq_ofDigits]
  | @octal digits _ values hnumeral =>
    subst htext
    refine ⟨false, ?_, by simp⟩
    obtain ⟨hdigits, -, hlongest⟩ := hnumeral
    cases hdigits with
    | @cons _ d _ values hd hdigits =>
      have hall : ∀ c : UInt8, (octal c).isSome = true → letterEscape c = none ∧
          (c == byteOf 'e') = false ∧ (c == byteOf 'c') = false ∧ (c == byteOf 'x') = false := by
        apply forall_byte
        decide +kernel
      obtain ⟨hletter, he, hc, hx⟩ := hall escaped (by rw [hd]; rfl)
      have hread := readDigits_append 8 hdigits d
        (Numeral.longest_cons_iff.mp hlongest)
      simp only [decodeEscape, hletter, he, hc, hx, Bool.false_eq_true, if_false, hd, hread]
      rw [← Numeral.foldl_eq_ofDigits, foldl_cons]
      simp [escapeOf]

/-- A byte behind which no escape is spelled is kept with its backslash. -/
theorem decodeEscape_literal {escaped : UInt8} {rest : Bytes} (h : ¬Escaped (escaped :: rest)) :
    decodeEscape escaped rest = .literal escaped rest := by
  have hno : ∀ more rest' byte, rest = more ++ rest' → ¬Spells (escaped :: more) rest' byte := by
    rintro more rest' byte rfl hspells
    exact h ⟨escaped :: more, rest', byte, rfl, hspells⟩
  have hletter : letterEscape escaped = none := by
    cases hl : letterEscape escaped with
    | none => rfl
    | some byte => exact absurd (.letter (letterEscape_eq_some.mp hl).1) (hno [] rest byte rfl)
  have he : (escaped == byteOf 'e') = false := by
    rw [beq_eq_false_iff_ne]
    rintro rfl
    exact hno [] rest 27 rfl (.letter (by decide))
  simp only [decodeEscape, hletter, he, Bool.false_eq_true, if_false]
  by_cases hc : escaped = byteOf 'c'
  · subst hc
    rw [if_pos (beq_self_eq_true _)]
    cases rest with
    | nil => rfl
    | cons operand rest' =>
      simp only
      cases hcontrol : control operand with
      | none => rfl
      | some byte =>
        simp only
        by_cases hself : operand = byteOf '\\'
        · subst hself
          have hsingle : ¬(rest'.head? == some (byteOf '\\')) = true := by
            intro hdouble
            cases rest' with
            | nil => cases hdouble
            | cons second rest' =>
              have hsecond : second = byteOf '\\' := by simpa using hdouble
              subst hsecond
              exact hno [byteOf '\\', byteOf '\\'] rest' 28 rfl .controlBackslash
          rw [if_neg (by simp), if_neg hsingle]
        · rw [control_eq] at hcontrol
          exact absurd (.control hself hcontrol) (hno [operand] rest' byte rfl)
  · rw [if_neg (by simpa using hc)]
    by_cases hx : escaped = byteOf 'x'
    · subst hx
      rw [if_pos (beq_self_eq_true _)]
      obtain ⟨digits, rest', values, rfl, hspelled, hlongest⟩ := Numeral.exists_longest hexadecimal 2 rest
      have hread := readDigits_append 16 hspelled 0 hlongest
      rw [hread]
      cases digits with
      | nil => simp
      | cons digit digits =>
        exact absurd (.hexadecimal ⟨hspelled, cons_ne_nil _ _, hlongest⟩) (hno _ rest' _ rfl)
    · rw [if_neg (by simpa using hx)]
      cases hoctal : octal escaped with
      | none => rfl
      | some d =>
        obtain ⟨digits, rest', values, rfl, hspelled, hlongest⟩ := Numeral.exists_longest octal 2 rest
        exact absurd (.octal ⟨.cons hoctal hspelled, cons_ne_nil _ _,
          Numeral.longest_cons_iff.mpr hlongest⟩) (hno _ rest' _ rfl)

/-- No escape is empty. -/
theorem Spells.ne_nil {escape rest : Bytes} {byte : UInt8} (h : Spells escape rest byte) :
    escape ≠ [] := by
  cases h with
  | octal h => exact h.nonempty
  | _ => exact cons_ne_nil _ _

/-- A text behind a backslash is an escape, or keeps the backslash. -/
theorem decodeEscape_cases (escaped : UInt8) (rest : Bytes) :
    (∃ more rest' byte checkControl, rest = more ++ rest' ∧
      Spells (escaped :: more) rest' byte ∧
      decodeEscape escaped rest = escapeOf byte checkControl rest' ∧
      (checkControl = true → byte < 32 ∨ byte = 127)) ∨
    ¬Escaped (escaped :: rest) ∧ decodeEscape escaped rest = .literal escaped rest := by
  by_cases h : Escaped (escaped :: rest)
  · left
    obtain ⟨escape, rest', byte, heq, hspells⟩ := h
    obtain ⟨first, more, rfl⟩ := exists_cons_of_ne_nil hspells.ne_nil
    obtain ⟨rfl, rfl⟩ := cons.inj heq
    obtain ⟨checkControl, hdecode, hcontrol⟩ := decodeEscape_spells hspells
    exact ⟨more, rest', byte, checkControl, rfl, hspells, hdecode, hcontrol⟩
  · exact .inr ⟨h, decodeEscape_literal h⟩

/-! ### One round -/

/-- What one round of the loop does: it writes and goes on, it stops at a NUL, or it finds
a control byte that is no character. -/
inductive Round
  | write (out rest : Bytes)
  | stop
  | invalid
  deriving DecidableEq, Repr

/-- A round of the loop of `csh_quote_decode`. -/
def decodeRound (lexical active : Decoder) (byte : UInt8) (rest : Bytes) : Round :=
  let width := lexical.characterLength (byte :: rest) true - 1
  if 0 < width then .write (byte :: rest.take width) (rest.drop width)
  else
    match rest with
    | escaped :: rest' =>
      if byte == byteOf '\\' then
        let width := lexical.characterLength (escaped :: rest') true - 1
        if 0 < width then .write (byte :: escaped :: rest'.take width) (rest'.drop width)
        else
          let escape := decodeEscape escaped rest'
          if escape.checkControl && !active.btowc escape.byte then .invalid
          else if escape.byte == 0 then .stop
          else .write (escape.kept ++ [escape.byte]) escape.rest
      else .write [byte] (escaped :: rest')
    | [] => .write [byte] []

/-- **The loop is its rounds.** -/
theorem quoteDecodeLoop_eq (byte : UInt8) (rest : Bytes) :
    quoteDecodeLoop lexical active (byte :: rest) =
      match decodeRound lexical active byte rest with
      | .write out rest' => (quoteDecodeLoop lexical active rest').map (out ++ ·)
      | .stop => some []
      | .invalid => none := by
  rw [quoteDecodeLoop.eq_def]
  unfold decodeRound
  simp only
  split
  · rfl
  · cases rest with
    | nil =>
      simp [quoteDecodeLoop]
    | cons escaped rest' =>
      simp only
      split
      · split
        · rfl
        · split
          · rfl
          · split
            · rfl
            · simp [append_assoc]
      · rfl

/-- A character of the text, as its first byte and the rest of it. -/
theorem width_le (d : Decoder) (byte : UInt8) (rest : Bytes) :
    d.characterLength (byte :: rest) true - 1 ≤ rest.length := by
  have hle := d.characterLength_final_le (cons_ne_nil byte rest)
  rw [length_cons] at hle
  omega

/-- The width of a character that is one byte. -/
theorem width_ascii (d : Decoder) {byte : UInt8} (h : byte < 0x80) (rest : Bytes) :
    d.characterLength (byte :: rest) true - 1 = 0 := by
  rw [Decoder.characterLength_cons_final, if_pos h]

/-- An escape begins with a byte that is a character. -/
theorem Spells.ascii {first byte : UInt8} {more rest : Bytes} (h : Spells (first :: more) rest byte) :
    first < 0x80 := by
  generalize htext : first :: more = text at h
  cases h with
  | @letter c _ _ hmem =>
    obtain ⟨rfl, -⟩ := cons.inj htext
    have hall : letters.all (fun l => decide (l.1 < 0x80)) = true := by decide
    exact of_decide_eq_true (all_eq_true.mp hall _ hmem)
  | control _ _ =>
    obtain ⟨rfl, -⟩ := cons.inj htext
    decide
  | controlBackslash =>
    obtain ⟨rfl, -⟩ := cons.inj htext
    decide
  | hexadecimal _ =>
    obtain ⟨rfl, -⟩ := cons.inj htext
    decide
  | @octal digits _ values h =>
    subst htext
    have hall : ∀ c : UInt8, (CShell.octal c).isSome = true → c < 0x80 := by
      apply forall_byte
      decide +kernel
    cases h.spelled with
    | cons hd _ => exact hall first (by rw [hd]; rfl)

/-- The rounds, by the rules that account for them. -/
inductive Accounts (lexical active : Decoder) (byte : UInt8) (rest : Bytes) : Round → Prop
  | character (hne : byte ≠ byteOf '\\') :
      Accounts lexical active byte rest
        (.write (byte :: rest.take (lexical.characterLength (byte :: rest) true - 1))
          (rest.drop (lexical.characterLength (byte :: rest) true - 1)))
  | lone (hbyte : byte = byteOf '\\') (hrest : rest = []) :
      Accounts lexical active byte rest (.write [byte] [])
  | escape {escape rest' value} (hbyte : byte = byteOf '\\') (hrest : rest = escape ++ rest')
      (hspells : Spells escape rest' value) (hne : value ≠ 0) :
      Accounts lexical active byte rest (.write [value] rest')
  | nul {escape rest'} (hbyte : byte = byteOf '\\') (hrest : rest = escape ++ rest')
      (hspells : Spells escape rest' 0) : Accounts lexical active byte rest .stop
  | kept {escaped rest'} (hbyte : byte = byteOf '\\') (hrest : rest = escaped :: rest')
      (hplain : ¬Escaped (escaped :: rest')) :
      Accounts lexical active byte rest
        (.write (byte :: escaped :: rest'.take (lexical.characterLength (escaped :: rest') true - 1))
          (rest'.drop (lexical.characterLength (escaped :: rest') true - 1)))
  | invalid {escape rest' value} (hbyte : byte = byteOf '\\') (hrest : rest = escape ++ rest')
      (hspells : Spells escape rest' value) (hcontrol : value < 32 ∨ value = 127)
      (hno : active.btowc value = false) : Accounts lexical active byte rest .invalid

/-- **Every round follows a rule**, on a text without NUL. -/
theorem accounts_decodeRound (lexical active : Decoder) (byte : UInt8) {rest : Bytes}
    (hrest : (0 : UInt8) ∉ rest) :
    Accounts lexical active byte rest (decodeRound lexical active byte rest) := by
  by_cases hbyte : byte = byteOf '\\'
  · have hwidth := width_ascii lexical (show byte < 0x80 by rw [hbyte]; decide) rest
    cases rest with
    | nil =>
      have hround : decodeRound lexical active byte [] = .write [byte] [] := by
        unfold decodeRound
        simp only [hwidth]
        rfl
      rw [hround]
      exact .lone hbyte rfl
    | cons escaped rest' =>
      unfold decodeRound
      simp only [hwidth, Nat.lt_irrefl, if_false]
      rw [if_pos (by simpa using hbyte)]
      rcases decodeEscape_cases escaped rest' with
        ⟨more, rest'', value, checkControl, rfl, hspells, hdecode, hcontrol⟩ | ⟨hplain, hdecode⟩
      · rw [width_ascii lexical hspells.ascii, if_neg (Nat.lt_irrefl 0), hdecode]
        simp only
        by_cases hbad : (checkControl && !active.btowc value) = true
        · rw [if_pos hbad]
          rw [Bool.and_eq_true, Bool.not_eq_true'] at hbad
          exact .invalid hbyte rfl hspells (hcontrol hbad.1) hbad.2
        · rw [if_neg hbad]
          by_cases hzero : value = 0
          · subst hzero
            exact .nul hbyte rfl hspells
          · rw [if_neg (by simpa using hzero)]
            exact .escape hbyte rfl hspells hzero
      · have hne : escaped ≠ 0 := by
          rintro rfl
          exact hrest mem_cons_self
        have hkept := @Accounts.kept lexical active byte _ _ _ hbyte rfl hplain
        split
        · exact hkept
        · rename_i hnarrow
          have hone : lexical.characterLength (escaped :: rest') true - 1 = 0 := by omega
          rw [hone, take_zero, drop_zero] at hkept
          rw [hdecode]
          simpa [Escape.literal, hne, hbyte] using hkept
  · have hcharacter := @Accounts.character lexical active byte rest hbyte
    unfold decodeRound
    simp only
    split
    · exact hcharacter
    · rename_i hnarrow
      have hone : lexical.characterLength (byte :: rest) true - 1 = 0 := by omega
      rw [hone, take_zero, drop_zero] at hcharacter
      cases rest with
      | nil => exact hcharacter
      | cons escaped rest' =>
        simp only
        rw [if_neg (by simpa using hbyte)]
        exact hcharacter

/-! ### The cursors -/

/-- A round that goes on consumes what it writes. -/
theorem Accounts.length_le {byte : UInt8} {rest out rest' : Bytes}
    (h : Accounts lexical active byte rest (.write out rest')) :
    out.length + rest'.length ≤ rest.length + 1 ∧ rest' <:+ byte :: rest := by
  cases h with
  | character _ =>
    have hle := width_le lexical byte rest
    constructor
    · simp only [length_cons, length_take, length_drop]
      omega
    · exact (drop_suffix _ _).trans (suffix_cons _ _)
  | lone _ hrest =>
    subst hrest
    exact ⟨Nat.le_refl _, nil_suffix⟩
  | escape _ hrest hspells _ =>
    subst hrest
    constructor
    · simp only [length_append, length_singleton]
      omega
    · exact (suffix_append _ _).trans (suffix_cons _ _)
  | @kept escaped rest'' _ hrest _ =>
    subst hrest
    have hle := width_le lexical escaped rest''
    constructor
    · simp only [length_cons, length_take, length_drop]
      omega
    · exact ((drop_suffix _ _).trans (suffix_cons _ _)).trans (suffix_cons _ _)

/-- The states of the loop on a text: what is left of the text, and what the buffer holds. -/
inductive Rounds (lexical active : Decoder) (text : Bytes) : Bytes → Bytes → Prop
  | start : Rounds lexical active text text []
  | round {byte rest written out rest'} (h : Rounds lexical active text (byte :: rest) written)
      (hround : decodeRound lexical active byte rest = .write out rest') :
      Rounds lexical active text rest' (written ++ out)

/-- **No more bytes are written than are consumed**, at the end of every round. -/
theorem Rounds.length_le {text rest written : Bytes} (htext : (0 : UInt8) ∉ text)
    (h : Rounds lexical active text rest written) :
    rest <:+ text ∧ written.length ≤ text.length - rest.length := by
  -- the sum is easier to carry along than the difference
  have hsum : rest <:+ text ∧ written.length + rest.length ≤ text.length := by
    induction h with
    | start => exact ⟨suffix_refl _, by simp⟩
    | @round byte rest written out rest' _ hround ih =>
      obtain ⟨hsuffix, hle⟩ := ih
      have hrest : (0 : UInt8) ∉ rest := fun hmem =>
        htext (hsuffix.subset (mem_cons_of_mem _ hmem))
      have haccounts := accounts_decodeRound lexical active byte hrest
      rw [hround] at haccounts
      obtain ⟨hround_le, hround_suffix⟩ := haccounts.length_le
      refine ⟨hround_suffix.trans hsuffix, ?_⟩
      rw [length_append]
      rw [length_cons] at hle
      omega
  exact ⟨hsum.1, by omega⟩

/-- What the loop has written is the beginning of its result. -/
theorem Rounds.loop {text rest written : Bytes} (h : Rounds lexical active text rest written) :
    quoteDecodeLoop lexical active text =
      (quoteDecodeLoop lexical active rest).map (written ++ ·) := by
  induction h with
  | start => simp
  | round _ hround ih =>
    rw [ih, quoteDecodeLoop_eq, hround]
    simp [Option.map_map, Function.comp_def]

/-! ### The rules and the loop -/

/-- Every byte that is checked is a character. -/
def ControlTotal (d : Decoder) : Prop :=
  ∀ byte : UInt8, byte < 32 ∨ byte = 127 → d.btowc byte = true

/-- **The loop follows the rules**, and a text without NUL has a value. -/
theorem exists_decodes (lexical : Decoder) (hactive : ControlTotal active) (text : Bytes)
    (htext : (0 : UInt8) ∉ text) :
    ∃ value, quoteDecodeLoop lexical active text = some value ∧ Decodes lexical text value := by
  induction hn : text.length using Nat.strong_induction_on generalizing text with
  | _ n ih =>
    cases text with
    | nil => exact ⟨[], by simp [quoteDecodeLoop], .nil⟩
    | cons byte rest =>
      have hrest : (0 : UInt8) ∉ rest := fun hmem => htext (mem_cons_of_mem _ hmem)
      have haccounts := accounts_decodeRound lexical active byte hrest
      rw [quoteDecodeLoop_eq]
      -- what a round leaves is shorter, and without NUL
      have hnext : ∀ {out rest'}, decodeRound lexical active byte rest = .write out rest' →
          out ≠ [] → ∃ value, quoteDecodeLoop lexical active rest' = some value ∧
            Decodes lexical rest' value := by
        intro out rest' hround hout
        rw [hround] at haccounts
        obtain ⟨hle, hsuffix⟩ := haccounts.length_le
        have hpos := length_pos_iff.mpr hout
        rw [length_cons] at hn
        exact ih rest'.length (by omega) rest' (fun hmem => htext (hsuffix.subset hmem)) rfl
      generalize hround : decodeRound lexical active byte rest = round at haccounts hnext
      cases haccounts with
      | character hne =>
        obtain ⟨value, hloop, hdecodes⟩ := hnext rfl (cons_ne_nil _ _)
        exact ⟨_, by simp only [hloop, Option.map_some], .character hne hdecodes⟩
      | lone hbyte hnil =>
        subst hbyte hnil
        exact ⟨[byteOf '\\'], by simp [quoteDecodeLoop], .lone⟩
      | escape hbyte heq hspells hne =>
        subst hbyte heq
        obtain ⟨value, hloop, hdecodes⟩ := hnext rfl (cons_ne_nil _ _)
        exact ⟨_, by simp only [hloop, Option.map_some]; rfl, .escape hspells hne hdecodes⟩
      | nul hbyte heq hspells =>
        subst hbyte heq
        exact ⟨[], rfl, .nul hspells⟩
      | kept hbyte heq hplain =>
        subst hbyte heq
        obtain ⟨value, hloop, hdecodes⟩ := hnext rfl (cons_ne_nil _ _)
        exact ⟨_, by simp only [hloop, Option.map_some], .kept hplain hdecodes⟩
      | invalid _ _ _ hcontrol hno =>
        rw [hactive _ hcontrol] at hno
        cases hno

/-- Spellings of escapes do not overlap: a text begins with one escape at most. -/
theorem Spells.unique {escape escape' rest rest' : Bytes} {byte byte' : UInt8}
    (h : Spells escape rest byte) (h' : Spells escape' rest' byte')
    (heq : escape ++ rest = escape' ++ rest') : byte = byte' ∧ rest = rest' := by
  obtain ⟨first, more, rfl⟩ := exists_cons_of_ne_nil h.ne_nil
  obtain ⟨first', more', rfl⟩ := exists_cons_of_ne_nil h'.ne_nil
  rw [cons_append, cons_append, cons.injEq] at heq
  obtain ⟨rfl, heq⟩ := heq
  obtain ⟨checkControl, hdecode, -⟩ := decodeEscape_spells h
  obtain ⟨checkControl', hdecode', -⟩ := decodeEscape_spells h'
  rw [heq, hdecode', escapeOf, escapeOf, Escape.mk.injEq] at hdecode
  exact ⟨hdecode.2.1.symm, hdecode.2.2.2.symm⟩

/-- A text has one value by the rules. -/
theorem Decodes.unique {text value value' : Bytes} (h : Decodes lexical text value)
    (h' : Decodes lexical text value') : value = value' := by
  induction h generalizing value' with
  | nil =>
    cases h'
    rfl
  | @character byte rest value hne _ ih =>
    cases h' with
    | character _ h' => rw [ih h']
    | lone => exact absurd rfl hne
    | escape _ _ _ => exact absurd rfl hne
    | nul _ => exact absurd rfl hne
    | kept _ _ => exact absurd rfl hne
  | lone =>
    generalize htext : [byteOf '\\'] = text at h'
    cases h' with
    | nil => cases htext
    | character hne _ => exact absurd (cons.inj htext).1.symm hne
    | lone => rfl
    | escape hspells _ _ =>
      have hnil := append_eq_nil_iff.mp (cons.inj htext).2.symm
      exact absurd hnil.1 hspells.ne_nil
    | nul hspells =>
      have hnil := append_eq_nil_iff.mp (cons.inj htext).2.symm
      exact absurd hnil.1 hspells.ne_nil
    | kept _ _ => cases htext
  | @escape escape rest byte value hspells hzero _ ih =>
    generalize htext : byteOf '\\' :: (escape ++ rest) = text at h'
    cases h' with
    | nil => cases htext
    | character hne _ => exact absurd (cons.inj htext).1.symm hne
    | lone =>
      have hnil := append_eq_nil_iff.mp (cons.inj htext).2
      exact absurd hnil.1 hspells.ne_nil
    | escape hspells' _ h' =>
      obtain ⟨rfl, rfl⟩ := hspells.unique hspells' (cons.inj htext).2
      rw [ih h']
    | nul hspells' =>
      exact absurd (hspells.unique hspells' (cons.inj htext).2).1 hzero
    | kept hplain _ =>
      exact absurd ⟨escape, rest, byte, (cons.inj htext).2.symm, hspells⟩ hplain
  | @nul escape rest hspells =>
    generalize htext : byteOf '\\' :: (escape ++ rest) = text at h'
    cases h' with
    | nil => cases htext
    | character hne _ => exact absurd (cons.inj htext).1.symm hne
    | lone =>
      have hnil := append_eq_nil_iff.mp (cons.inj htext).2
      exact absurd hnil.1 hspells.ne_nil
    | escape hspells' hzero _ =>
      exact absurd (hspells.unique hspells' (cons.inj htext).2).1.symm hzero
    | nul _ => rfl
    | kept hplain _ => exact absurd ⟨escape, rest, 0, (cons.inj htext).2.symm, hspells⟩ hplain
  | @kept byte rest value hplain _ ih =>
    generalize htext : byteOf '\\' :: byte :: rest = text at h'
    cases h' with
    | nil => cases htext
    | character hne _ => exact absurd (cons.inj htext).1.symm hne
    | lone => cases htext
    | @escape escape' rest' byte' _ hspells' _ _ =>
      exact absurd ⟨escape', rest', byte', (cons.inj htext).2, hspells'⟩ hplain
    | @nul escape' rest' hspells' =>
      exact absurd ⟨escape', rest', 0, (cons.inj htext).2, hspells'⟩ hplain
    | kept _ h' =>
      obtain ⟨rfl, rfl⟩ := cons.inj (cons.inj htext).2
      rw [ih h']

/-- A value holds no NUL. -/
theorem Decodes.nul_free {text value : Bytes} (h : Decodes lexical text value)
    (htext : (0 : UInt8) ∉ text) : (0 : UInt8) ∉ value := by
  induction h with
  | nil => exact htext
  | @character byte rest value _ _ ih =>
    rw [mem_cons, not_or] at htext
    rw [cons_append, mem_cons, mem_append, not_or, not_or]
    refine ⟨htext.1, fun hmem => htext.2 (mem_of_mem_take hmem), ih fun hmem => ?_⟩
    exact htext.2 (mem_of_mem_drop hmem)
  | lone => exact htext
  | escape _ hne _ ih =>
    rw [mem_cons, mem_append, not_or, not_or] at htext
    rw [mem_cons, not_or]
    exact ⟨hne.symm, ih htext.2.2⟩
  | nul _ => exact not_mem_nil
  | @kept byte rest value _ _ ih =>
    rw [mem_cons, mem_cons, not_or, not_or] at htext
    rw [cons_append, cons_append, mem_cons, mem_cons, mem_append, not_or,
      not_or, not_or]
    refine ⟨htext.1, htext.2.1, fun hmem => htext.2.2 (mem_of_mem_take hmem),
      ih fun hmem => ?_⟩
    exact htext.2.2 (mem_of_mem_drop hmem)

/-- A value is not longer than its spelling. -/
theorem Decodes.length_le {text value : Bytes} (h : Decodes lexical text value) :
    value.length ≤ text.length := by
  induction h with
  | nil => exact Nat.le_refl _
  | @character byte rest value _ _ ih =>
    have hle := width_le lexical byte rest
    rw [length_drop] at ih
    simp only [length_cons, length_append, length_take]
    omega
  | lone => exact Nat.le_refl _
  | escape hspells _ _ ih =>
    have hpos := length_pos_iff.mpr hspells.ne_nil
    simp only [length_cons, length_append]
    omega
  | nul _ => exact Nat.zero_le _
  | @kept byte rest value _ _ ih =>
    have hle := width_le lexical byte rest
    rw [length_drop] at ih
    simp only [length_cons, length_append, length_take]
    omega

/-- **Decoding follows the rules.**  The value of a text without NUL is the one by the rules
and holds no NUL, and at the end of every round no more has been written than consumed,
so that the value is not longer than the text. -/
theorem quoteDecode_decodes (hactive : ControlTotal active) {text : Bytes}
    (htext : (0 : UInt8) ∉ text) :
    (∀ value, quoteDecode lexical active text = some value ↔ Decodes lexical text value) ∧
    (∃ value, quoteDecode lexical active text = some value ∧ (0 : UInt8) ∉ value ∧
      value.length ≤ text.length) ∧
    ∀ rest written, Rounds lexical active text rest written →
      rest <:+ text ∧ written.length ≤ text.length - rest.length ∧
        quoteDecode lexical active text =
          (quoteDecodeLoop lexical active rest).map (written ++ ·) := by
  have hdecode : quoteDecode lexical active text = quoteDecodeLoop lexical active text := by
    rw [quoteDecode, if_neg (by simpa using htext)]
  obtain ⟨value, hloop, hdecodes⟩ := exists_decodes lexical hactive text htext
  refine ⟨?_, ⟨value, hdecode.trans hloop, hdecodes.nul_free htext, hdecodes.length_le⟩, ?_⟩
  · intro value'
    rw [hdecode, hloop, Option.some.injEq]
    constructor
    · rintro rfl
      exact hdecodes
    · intro h'
      exact hdecodes.unique h'
  · intro rest written h
    exact ⟨(h.length_le htext).1, (h.length_le htext).2, hdecode.trans h.loop⟩

/-- In the C locale `a\c\\\x41\0b` is three bytes: the escape of NUL drops the rest. -/
theorem quoteDecode_decodes_posix :
    Decodes .posix (ascii "a\\c\\\\\\x41\\0b") [97, 28, 65] := by
  have htotal : ControlTotal .posix := fun _ _ => rfl
  have hfree : (0 : UInt8) ∉ ascii "a\\c\\\\\\x41\\0b" := by decide
  have h := (@quoteDecode_decodes .posix .posix htotal _ hfree).1 [97, 28, 65]
  exact h.mp (by decide +kernel)

end Decoding
end CShell
