import CShell.Expand.Splitting
import CShell.Quoting.Reinput

/-!
# Patterns that keep quoted characters literal

The encoder puts a backslash before a quoted character that means something to the
matcher.  It measures characters on the raw bytes, and the matcher measures them
again on the pattern.  In an encoding whose characters may contain the byte of a
backslash the two can differ: a byte that is no character in the raw text may take
an inserted backslash for its second half.  Where that does not happen the pattern
is the raw characters with some backslashes before them, and nothing quoted is
active.

## Main definitions

* `characters`, `cellCharacters` — a text cut at the characters of an encoding.
* `Shields` — raw characters with backslashes inserted, every quoted special one
  behind an active backslash.
* `marks` — the characters of a candidate, and which of them get a backslash.
* `Unbroken` — no stray byte becomes part of a character behind the insertions.

## Main results

* `makePattern_eq_written` — the encoder writes the marked characters.
* `protects_iff` — **quoted characters stay literal if and only if no stray byte takes
  up an inserted backslash.**

## References

`src/fields.c`, `src/pathname.c`.
-/

namespace CShell

/-- An encoding without shift states: a complete character is recognised whatever
follows it, and none is longer than `MB_CUR_MAX`. -/
structure Decoder.Stateless (d : Decoder) : Prop where
  complete : ∀ {text : Bytes} {n : ℕ}, d.mbrlen text = .bytes n → 0 < n → ∀ rest,
    d.mbrlen (text.take n ++ rest) = .bytes n
  short : ∀ {text : Bytes} {n : ℕ}, d.mbrlen text = .bytes n → n ≤ d.mbCurMax

namespace Quoting

open List

/-! ### Characters -/

/-- A text cut at its characters. -/
def characters (d : Decoder) (text : Bytes) : List Bytes :=
  match text with
  | [] => []
  | byte :: rest =>
    let width := d.characterLength (byte :: rest) true
    (byte :: rest).take width :: characters d (rest.drop (width - 1))
termination_by text.length
decreasing_by simp only [List.length_drop, List.length_cons]; omega

/-- A candidate cut at its characters. -/
def cellCharacters (d : Decoder) (cells : List Cell) : List (List Cell) :=
  match cells with
  | [] => []
  | cell :: rest =>
    let width := d.characterLength (rawOf (cell :: rest)) true
    (cell :: rest).take width :: cellCharacters d (rest.drop (width - 1))
termination_by cells.length
decreasing_by simp only [List.length_drop, List.length_cons]; omega

/-- The characters that begin in the first `count` cells. -/
def charactersWithin (d : Decoder) (count : ℕ) (cells : List Cell) : List (List Cell) :=
  match cells with
  | [] => []
  | cell :: rest =>
    if count = 0 then []
    else
      let width := d.characterLength (rawOf (cell :: rest)) true
      (cell :: rest).take width :: charactersWithin d (count - width) (rest.drop (width - 1))
termination_by cells.length
decreasing_by simp only [List.length_drop, List.length_cons]; omega

/-- The backslash. -/
def slash : Bytes := [byteOf '\\']

/-- A character that means something in a pattern. -/
def activeCharacter (character : Bytes) : Bool :=
  match character with
  | [byte] => activeByte byte
  | _ => false

/-- A quoted character that means something in a pattern. -/
def quotedActive (character : List Cell) : Bool :=
  match character with
  | [cell] => cell.quoted && activeByte cell.byte
  | _ => false

/-! ### What protection means -/

/-- What a raw character leaves for the next one: whether it is an active backslash,
and if so, whether one that came unquoted from an expansion. -/
def activeAfter (active : Option Bool) (character : List Cell) : Option Bool :=
  match active, character with
  | none, [cell] => if cell.byte = byteOf '\\' then some (!cell.quoted && !cell.literal) else none
  | _, _ => none

/-- A pattern is a list of raw characters with a backslash inserted before some of
them, and every quoted character that means something is behind an active
backslash, which was inserted or came unquoted from an expansion. -/
inductive Shields : Option Bool → List (List Cell) → List Bytes → Prop
  | nil (active : Option Bool) : Shields active [] []
  | plain {active : Option Bool} {character : List Cell} {raw : List (List Cell)}
      {pattern : List Bytes} (shielded : quotedActive character = true → active = some true)
      (rest : Shields (activeAfter active character) raw pattern) :
      Shields active (character :: raw) (rawOf character :: pattern)
  | inserted {active : Option Bool} {character : List Cell} {raw : List (List Cell)}
      {pattern : List Bytes} (shielded : quotedActive character = true → active = none)
      (rest : Shields (activeAfter (if active.isSome then none else some true) character) raw
        pattern) :
      Shields active (character :: raw) (slash :: rawOf character :: pattern)

/-- No character of the pattern that means something is active, other than the
backslash before another one. -/
def inert : List Bytes → Bool
  | [] => true
  | [character] => !activeCharacter character
  | character :: next :: rest =>
    if character = slash then inert rest else !activeCharacter character && inert (next :: rest)

/-- What is asked of the encoder: it at most doubles the text, the pattern is read as
the raw characters with some backslashes before them, quoted ones are literal, and
a wholly quoted text has no wildcard. -/
structure Protects (d : Decoder) (context : ExpandContext) (cells : List Cell) : Prop where
  length_le : (makePattern d context cells false .outside).length ≤ 2 * cells.length
  shields : Shields none (cellCharacters d cells)
    (characters d (makePattern d context cells false .outside))
  inert_of_quoted : (∀ cell ∈ cells, cell.quoted) →
    inert (characters d (makePattern d context cells false .outside)) = true ∧
      hasPattern d (makePattern d context cells false .outside) = false

/-! ### Where the backslashes go -/

section Marks

variable (d : Decoder) (context : ExpandContext)

/-- A slash ends a list in a pathname. -/
def placed (bracket : Bracket) (cell : Cell) : Bracket :=
  if context = .argument && cell.byte == byteOf '/' then .outside else bracket

/-- The form a bracket opens in a list: its length behind the bracket, 0 if there is
none, and whether a part of it is quoted. -/
def form (bracket : Bracket) (cell : Cell) (rest : List Cell) : ℕ × Bool :=
  if bracket != .outside && cell.byte == byteOf '[' && !cell.quoted then
    bracketSubexpression d context rest
  else (0, false)

/-- A backslash goes before quoted special bytes and literal backslashes, and before a
bracket that would open a partly quoted form. -/
def guarded (cell : Cell) (forced : Bool) : Bool :=
  forced || (cell.byte == byteOf '\\' && (cell.quoted || cell.literal)) ||
    (cell.quoted && protectedByte cell.byte)

/-- The characters of a candidate, each with whether it gets a backslash.  None does
behind an active backslash, or in a form without quoted parts. -/
def marks (cells : List Cell) (escaped : Bool) (bracket : Bracket) : List (Bool × List Cell) :=
  match cells with
  | [] => []
  | cell :: rest =>
    let width := d.characterLength (rawOf (cell :: rest)) true
    let inside := placed context bracket cell
    let skipped := form d context inside cell rest
    let forced := skipped.1 ≠ 0 && skipped.2
    if 1 < width then
      (false, (cell :: rest).take width) :: marks (rest.drop (width - 1)) false bracket.member
    else if escaped then (false, [cell]) :: marks rest false inside.member
    else if skipped.1 ≠ 0 && !skipped.2 then
      (false, [cell]) :: (charactersWithin d skipped.1 rest).map (false, ·) ++
        marks (rest.drop skipped.1) false .open
    else if !guarded cell forced && cell.byte == byteOf '\\' then
      (false, [cell]) :: marks rest true inside
    else (guarded cell forced, [cell]) :: marks rest false (inside.step cell.byte cell.quoted forced)
termination_by cells.length
decreasing_by all_goals simp only [List.length_drop, List.length_cons]; omega

end Marks

/-- The characters of a marked text. -/
def pieces (text : List (Bool × List Cell)) : List Bytes :=
  text.flatMap fun mark => if mark.1 then [slash, rawOf mark.2] else [rawOf mark.2]

/-- A marked text as it is written. -/
def written (text : List (Bool × List Cell)) : Bytes := (pieces text).flatten

/-- No byte that was no character (one with its high bit set that stood alone) begins
one in front of what is written behind it. -/
def Unbroken (d : Decoder) : List (Bool × List Cell) → Prop
  | [] => True
  | (_, character) :: rest =>
    (∀ byte, rawOf character = [byte] → ¬byte < 0x80 →
      d.characterLength (byte :: written rest) true = 1) ∧ Unbroken d rest

/-! ### Cutting at characters -/

variable {cell : Cell} {rest : List Cell} {text : List (Bool × List Cell)} {raw : List (List Cell)}

section Cutting

variable {d : Decoder}

theorem characters_cons (d : Decoder) (byte : UInt8) (rest : Bytes) :
    characters d (byte :: rest) =
      (byte :: rest).take (d.characterLength (byte :: rest) true) ::
        characters d ((byte :: rest).drop (d.characterLength (byte :: rest) true)) := by
  have hpos := d.characterLength_final_pos (cons_ne_nil byte rest)
  obtain ⟨k, hk⟩ := Nat.exists_eq_succ_of_ne_zero hpos.ne'
  rw [characters, hk, drop_succ_cons, Nat.succ_sub_one]

theorem cellCharacters_cons (d : Decoder) (cell : Cell) (rest : List Cell) :
    cellCharacters d (cell :: rest) =
      (cell :: rest).take (d.characterLength (rawOf (cell :: rest)) true) ::
        cellCharacters d ((cell :: rest).drop (d.characterLength (rawOf (cell :: rest)) true)) := by
  have hpos := d.characterLength_final_pos (cons_ne_nil cell.byte (rawOf rest))
  obtain ⟨k, hk⟩ := Nat.exists_eq_succ_of_ne_zero hpos.ne'
  rw [show cell.byte :: rawOf rest = rawOf (cell :: rest) from rfl] at hk
  rw [cellCharacters, hk, drop_succ_cons, Nat.succ_sub_one]

theorem charactersWithin_cons (d : Decoder) (cell : Cell) (rest : List Cell) {count : ℕ}
    (hcount : count ≠ 0) :
    charactersWithin d count (cell :: rest) =
      (cell :: rest).take (d.characterLength (rawOf (cell :: rest)) true) ::
        charactersWithin d (count - d.characterLength (rawOf (cell :: rest)) true)
          ((cell :: rest).drop (d.characterLength (rawOf (cell :: rest)) true)) := by
  have hpos := d.characterLength_final_pos (cons_ne_nil cell.byte (rawOf rest))
  obtain ⟨k, hk⟩ := Nat.exists_eq_succ_of_ne_zero hpos.ne'
  rw [show cell.byte :: rawOf rest = rawOf (cell :: rest) from rfl] at hk
  rw [charactersWithin, if_neg hcount, hk, drop_succ_cons]
  rfl

/-- A character on its own. -/
theorem cellCharacters_single (h : d.characterLength (rawOf (cell :: rest)) true = 1) :
    cellCharacters d (cell :: rest) = [cell] :: cellCharacters d rest := by
  rw [cellCharacters_cons, h]
  rfl

theorem width_one (h : ¬1 < d.characterLength (rawOf (cell :: rest)) true) :
    d.characterLength (rawOf (cell :: rest)) true = 1 := by
  have hpos := d.characterLength_final_pos (cons_ne_nil cell.byte (rawOf rest))
  rw [show cell.byte :: rawOf rest = rawOf (cell :: rest) from rfl] at hpos
  omega

theorem length_rawOf (cells : List Cell) : (rawOf cells).length = cells.length := length_map ..

theorem characterLength_ascii_cell (h : cell.byte < 0x80) :
    d.characterLength (rawOf (cell :: rest)) true = 1 := if_pos h

@[simp] theorem charactersWithin_zero (d : Decoder) (cells : List Cell) :
    charactersWithin d 0 cells = [] := by
  cases cells <;> simp [charactersWithin]

/-! ### The form skipped over -/

/-- Characters that are not both quoted and special. -/
def Unquoted (text : List (List Cell)) : Prop := ∀ character ∈ text, quotedActive character = false

theorem quotedActive_of_unquoted {cell : Cell} {rest : List Cell} (h : cell.quoted = false) (n : ℕ) :
    quotedActive ((cell :: rest).take n) = false := by
  match n, rest with
  | 0, _ => rfl
  | 1, _ => simp [quotedActive, h]
  | n + 2, [] => simp [quotedActive, h]
  | n + 2, _ :: _ => rfl

/-- The first `count` cells are whole characters, the last of them a closing bracket. -/
structure Spans (d : Decoder) (count : ℕ) (cells : List Cell) : Prop where
  le : count ≤ cells.length
  split : cellCharacters d cells =
    charactersWithin d count cells ++ cellCharacters d (cells.drop count)
  flatten : (charactersWithin d count cells).flatten = cells.take count
  closed : ∃ initial cell, charactersWithin d count cells = initial ++ [[cell]] ∧
    cell.byte = byteOf ']'

/-- A character in front of whole characters. -/
theorem Spans.cons {cell : Cell} {rest : List Cell} {count : ℕ}
    (h : Spans d count (rest.drop (d.characterLength (rawOf (cell :: rest)) true - 1))) :
    Spans d (d.characterLength (rawOf (cell :: rest)) true + count) (cell :: rest) := by
  have hpos := d.characterLength_final_pos (cons_ne_nil cell.byte (rawOf rest))
  have hle := d.characterLength_final_le (cons_ne_nil cell.byte (rawOf rest))
  rw [show cell.byte :: rawOf rest = rawOf (cell :: rest) from rfl] at hpos hle
  obtain ⟨k, hk⟩ := Nat.exists_eq_succ_of_ne_zero hpos.ne'
  have hne : k.succ + count ≠ 0 := by omega
  have hwithin := charactersWithin_cons d cell rest hne
  have hcut := cellCharacters_cons d cell rest
  rw [hk] at h hle hwithin hcut ⊢
  rw [drop_succ_cons] at hwithin hcut
  rw [Nat.succ_sub_one] at h
  rw [Nat.add_sub_cancel_left] at hwithin
  obtain ⟨initial, last, hlast, hbyte⟩ := h.closed
  have hlength : (rawOf (cell :: rest)).length = rest.length + 1 := by simp [rawOf]
  refine ⟨?_, ?_, ?_, ?_⟩
  · have := h.le
    rw [length_drop] at this
    simp only [length_cons]
    omega
  · rw [hwithin, hcut, h.split, cons_append, drop_drop]
    rw [show k.succ + count = (k + count).succ by omega, drop_succ_cons]
  · rw [hwithin, flatten_cons, h.flatten]
    rw [show k.succ + count = (k + count).succ by omega, take_succ_cons, take_succ_cons,
      cons_append, take_add]
  · exact ⟨_ :: initial, last, by rw [hwithin, hlast]; rfl, hbyte⟩

theorem charactersWithin_one (h : cell.byte < 0x80) (rest : List Cell) :
    charactersWithin d 1 (cell :: rest) = [[cell]] := by
  rw [charactersWithin_cons d cell rest Nat.one_ne_zero, characterLength_ascii_cell h,
    charactersWithin_zero]
  rfl

/-- The closing bracket itself. -/
theorem Spans.last {cell : Cell} (h : cell.byte = byteOf ']') (rest : List Cell) :
    Spans d 1 (cell :: rest) := by
  have hlow : cell.byte < 0x80 := by
    rw [h]
    decide
  have hwithin := charactersWithin_one (d := d) hlow rest
  refine ⟨Nat.succ_le_succ (Nat.zero_le _), ?_, ?_, [], cell, hwithin, h⟩
  · rw [hwithin, cellCharacters_single (characterLength_ascii_cell hlow)]
    rfl
  · rw [hwithin]
    rfl

/-- The scan ends behind whole characters, none of them quoted unless it says so. -/
theorem bracketScan_spec {context : ExpandContext} {mark : UInt8} (hmark : mark < 0x80) {i : ℕ}
    {cells : List Cell} {before quoted : Bool} {last : ℕ}
    (h : bracketScan d context mark i cells before = (last, quoted)) (hlast : last ≠ 0) :
    ∃ count, last + 1 = i + count ∧ 1 < count ∧ Spans d count cells ∧
      (quoted = false → before = false ∧ Unquoted (charactersWithin d count cells)) := by
  fun_induction bracketScan d context mark i cells before with
  | case1 => exact absurd (congrArg Prod.fst h).symm hlast
  | case2 => exact absurd (congrArg Prod.fst h).symm hlast
  | case3 i before cell rest hslash found next hnext hend =>
    simp only [Bool.and_eq_true, decide_eq_true_eq, beq_iff_eq] at hend
    obtain ⟨⟨-, hcell⟩, hbracket⟩ := hend
    obtain ⟨rest, rfl⟩ : ∃ rest', rest = next :: rest' := by
      cases rest with
      | nil => cases hnext
      | cons _ rest' => exact ⟨rest', by rw [Option.some.inj hnext]⟩
    have hlow : cell.byte < 0x80 := hcell ▸ hmark
    have hwidth : d.characterLength (rawOf (cell :: next :: rest)) true = 1 :=
      characterLength_ascii_cell hlow
    have hspans : Spans d 2 (cell :: next :: rest) := by
      have hcons := @Spans.cons d cell (next :: rest) 1
      rw [hwidth] at hcons
      exact hcons (Spans.last hbracket rest)
    have hlast' : i + 1 = last := congrArg Prod.fst h
    refine ⟨2, by omega, Nat.one_lt_two, hspans, fun hquoted => ?_⟩
    have hflags : (before || cell.quoted || next.quoted) = false := (congrArg Prod.snd h).trans hquoted
    simp only [Bool.or_eq_false_iff] at hflags
    refine ⟨hflags.1.1, fun character hmem => ?_⟩
    rw [charactersWithin_cons d cell _ two_ne_zero, hwidth] at hmem
    rcases mem_cons.mp hmem with rfl | hmem
    · exact quotedActive_of_unquoted hflags.1.2 1
    · have hlow' : next.byte < 0x80 := by
        rw [hbracket]
        decide
      rw [drop_succ_cons, drop_zero, charactersWithin_one hlow'] at hmem
      rw [mem_singleton.mp hmem]
      exact @quotedActive_of_unquoted next [] hflags.2 1
  | case4 i before cell rest hslash found next hnext hend width ih =>
    obtain ⟨count, hcount, hone, hspans, hquoted⟩ := ih h
    have hpos := d.characterLength_final_pos (cons_ne_nil cell.byte (rawOf rest))
    rw [show cell.byte :: rawOf rest = rawOf (cell :: rest) from rfl] at hpos
    refine ⟨_, ?_, ?_, hspans.cons, fun hq => ?_⟩
    · simp only [width] at hcount
      omega
    · omega
    · obtain ⟨hfound, hcharacters⟩ := hquoted hq
      obtain ⟨hbefore, hcell⟩ := Bool.or_eq_false_iff.mp hfound
      refine ⟨hbefore, fun character hmem => ?_⟩
      rw [charactersWithin_cons d cell rest (by omega), Nat.add_sub_cancel_left] at hmem
      rcases mem_cons.mp hmem with rfl | hmem
      · exact quotedActive_of_unquoted hcell _
      · obtain ⟨k, hk⟩ := Nat.exists_eq_succ_of_ne_zero hpos.ne'
        rw [hk, drop_succ_cons] at hmem
        simp only [width, hk, Nat.succ_sub_one] at hcharacters
        exact hcharacters character hmem
  | case5 => exact absurd (congrArg Prod.fst h).symm hlast

/-- The form the encoder copies as it is, if there is one. -/
theorem bracketSubexpression_spec {context : ExpandContext} {cells : List Cell}
    (h : (bracketSubexpression d context cells).1 ≠ 0) :
    Spans d (bracketSubexpression d context cells).1 cells ∧
      ((bracketSubexpression d context cells).2 = false →
        Unquoted (charactersWithin d (bracketSubexpression d context cells).1 cells)) := by
  unfold bracketSubexpression at h ⊢
  split at h
  · next next hnext =>
    split at h
    · next hmark =>
      have hlow : next.byte < 0x80 := by
        have hall : (ascii ":.=").all (· < 0x80) = true := by decide
        exact of_decide_eq_true (all_eq_true.mp hall _ (contains_iff_mem.mp hmark))
      obtain ⟨count, hcount, -, hspans, hquoted⟩ := bracketScan_spec (d := d) hlow rfl h
      obtain rfl : (bracketScan d context next.byte 1 cells false).1 = count := by omega
      simp only [hmark, if_true]
      exact ⟨hspans, fun hq => (hquoted hq).2⟩
    · exact absurd rfl h
  · exact absurd rfl h

end Cutting

/-! ### The encoder writes the marked characters -/

section Writing

variable {d : Decoder} {context : ExpandContext}

theorem written_cons (guarded : Bool) (character : List Cell) (text : List (Bool × List Cell)) :
    written ((guarded, character) :: text) =
      (if guarded then slash else []) ++ rawOf character ++ written text := by
  cases guarded <;> simp [written, pieces]

theorem written_append (a b : List (Bool × List Cell)) :
    written (a ++ b) = written a ++ written b := by
  simp [written, pieces]

theorem written_copied (text : List (List Cell)) :
    written (text.map (false, ·)) = rawOf text.flatten := by
  induction text with
  | nil => rfl
  | cons character text ih =>
    rw [map_cons, written_cons, ih, flatten_cons, rawOf_append]
    rfl

/-- The encoder in the words of `marks`. -/
theorem makePattern_cons (cell : Cell) (rest : List Cell) (escaped : Bool) (bracket : Bracket) :
    makePattern d context (cell :: rest) escaped bracket =
      let width := d.characterLength (rawOf (cell :: rest)) true
      let inside := placed context bracket cell
      let skipped := form d context inside cell rest
      let forced := skipped.1 ≠ 0 && skipped.2
      if 1 < width then
        rawOf ((cell :: rest).take width) ++
          makePattern d context (rest.drop (width - 1)) false bracket.member
      else if escaped then cell.byte :: makePattern d context rest false inside.member
      else if skipped.1 ≠ 0 && !skipped.2 then
        cell.byte :: rawOf (rest.take skipped.1) ++
          makePattern d context (rest.drop skipped.1) false .open
      else if guarded cell forced then
        byteOf '\\' :: cell.byte ::
          makePattern d context rest false (inside.step cell.byte cell.quoted forced)
      else if cell.byte == byteOf '\\' then cell.byte :: makePattern d context rest true inside
      else cell.byte :: makePattern d context rest false (inside.step cell.byte cell.quoted forced) := by
  rw [makePattern]
  rfl

theorem form_spec {bracket : Bracket}
    (h : (form d context bracket cell rest).1 ≠ 0) :
    cell.byte = byteOf '[' ∧ cell.quoted = false ∧
      Spans d (form d context bracket cell rest).1 rest ∧
      ((form d context bracket cell rest).2 = false →
        Unquoted (charactersWithin d (form d context bracket cell rest).1 rest)) := by
  unfold form at h ⊢
  split at h
  · next hopen =>
    simp only [hopen, if_true]
    simp only [Bool.and_eq_true, beq_iff_eq, Bool.not_eq_true'] at hopen
    exact ⟨hopen.1.2, hopen.2, bracketSubexpression_spec h⟩
  · exact absurd rfl h

/-- **The encoder writes the marked characters.** -/
theorem makePattern_eq_written (d : Decoder) (context : ExpandContext) (cells : List Cell)
    (escaped : Bool) (bracket : Bracket) :
    makePattern d context cells escaped bracket = written (marks d context cells escaped bracket) := by
  fun_induction marks d context cells escaped bracket with
  | case1 escaped bracket => rw [makePattern]; rfl
  | case2 escaped bracket cell rest width hwidth ih =>
    rw [makePattern_cons, written_cons, ← ih]
    exact if_pos hwidth
  | case3 bracket cell rest width inside hwidth ih =>
    rw [makePattern_cons, written_cons, ← ih]
    exact if_neg hwidth
  | case4 escaped bracket cell rest width inside skipped hwidth hescaped hform ih =>
    have hskip : skipped.1 ≠ 0 := by simpa using And.left (by simpa using hform)
    rw [makePattern_cons, cons_append, written_cons, written_append, written_copied, ← ih,
      (form_spec hskip).2.2.1.flatten]
    simp only
    rw [if_neg hwidth, if_neg hescaped]
    exact if_pos hform
  | case5 escaped bracket cell rest width inside skipped forced hwidth hescaped hform hplain ih =>
    obtain ⟨hguard, hslash⟩ := Bool.and_eq_true_iff.mp hplain
    have hguard' : ¬guarded cell forced = true := by simpa using hguard
    rw [makePattern_cons, written_cons, ← ih]
    simp only
    rw [if_neg hwidth, if_neg hescaped, if_neg hform, if_neg hguard']
    exact if_pos hslash
  | case6 escaped bracket cell rest width inside skipped forced hwidth hescaped hform hplain ih =>
    rw [makePattern_cons, written_cons, ← ih]
    simp only
    rw [if_neg hwidth, if_neg hescaped, if_neg hform]
    by_cases hguard : guarded cell forced = true
    · rw [hguard]
      rfl
    · have hslash : ¬(cell.byte == byteOf '\\') = true := by simpa [hguard] using hplain
      rw [Bool.eq_false_iff.mpr hguard]
      exact if_neg hslash

/-- The characters of the candidate, in order. -/
theorem marks_characters (d : Decoder) (context : ExpandContext) (cells : List Cell)
    (escaped : Bool) (bracket : Bracket) :
    (marks d context cells escaped bracket).map Prod.snd = cellCharacters d cells := by
  fun_induction marks d context cells escaped bracket with
  | case1 escaped bracket => rw [cellCharacters]; rfl
  | case2 escaped bracket cell rest width hwidth ih =>
    rw [map_cons, ih, cellCharacters]
  | case3 bracket cell rest width inside hwidth ih =>
    rw [map_cons, ih, cellCharacters_single (width_one hwidth)]
  | case4 escaped bracket cell rest width inside skipped hwidth hescaped hform ih =>
    have hskip : skipped.1 ≠ 0 := by simpa using And.left (by simpa using hform)
    have hcopied : ((charactersWithin d skipped.1 rest).map (false, ·)).map Prod.snd =
        charactersWithin d skipped.1 rest := by
      rw [map_map]
      exact map_id _
    rw [cons_append, map_cons, map_append, ih, hcopied,
      cellCharacters_single (width_one hwidth), (form_spec hskip).2.2.1.split]
  | case5 escaped bracket cell rest width inside skipped forced hwidth hescaped hform hplain ih =>
    rw [map_cons, ih, cellCharacters_single (width_one hwidth)]
  | case6 escaped bracket cell rest width inside skipped forced hwidth hescaped hform hplain ih =>
    rw [map_cons, ih, cellCharacters_single (width_one hwidth)]

end Writing

/-! ### The characters of the pattern -/

section Reading

variable {d : Decoder}

/-- A character of the raw text: what the decoder cuts off, and not a part of it. -/
structure Whole (d : Decoder) (character : Bytes) : Prop where
  ne_nil : character ≠ []
  /-- A longer character is one wherever it stands. -/
  long : 1 < character.length → ∀ rest, d.characterLength (character ++ rest) true = character.length
  /-- The byte of a backslash at its front is a backslash. -/
  backslash : character.head? = some (byteOf '\\') → character = slash

theorem characterBytes_of_mbrlen {text : Bytes} {n : ℕ} (h : d.mbrlen text = .bytes n) (hn : n ≠ 0) :
    d.characterBytes text = n := by
  rw [Decoder.characterBytes, h]
  exact if_neg hn

/-- A character longer than a byte was recognised as one. -/
theorem mbrlen_of_characterBytes {text : Bytes} (h : 1 < d.characterBytes text) :
    d.mbrlen text = .bytes (d.characterBytes text) := by
  unfold Decoder.characterBytes at h ⊢
  split at h
  · next n hn =>
    rw [hn]
    split at h
    · exact absurd h (by decide)
    · next hzero => simp [hzero]
  · exact absurd h (by decide)

/-- What the decoder cuts off is whole. -/
theorem whole_take (hd : d.Stateless) (byte : UInt8) (rest : Bytes) :
    Whole d ((byte :: rest).take (d.characterLength (byte :: rest) true)) := by
  have hpos := d.characterLength_final_pos (cons_ne_nil byte rest)
  have hle := d.characterLength_final_le (cons_ne_nil byte rest)
  obtain ⟨k, hk⟩ := Nat.exists_eq_succ_of_ne_zero hpos.ne'
  have hlength : ((byte :: rest).take k.succ).length = k.succ := by
    rw [length_take]
    omega
  rw [hk]
  refine ⟨by simp, fun hlong tail => ?_, fun hhead => ?_⟩
  · rw [hlength] at hlong ⊢
    have hhigh : ¬byte < 0x80 := fun hlow => by
      rw [Decoder.characterLength_cons_final, if_pos hlow] at hk
      omega
    rw [Decoder.characterLength_cons_final, if_neg hhigh] at hk
    have hbytes := mbrlen_of_characterBytes (show 1 < d.characterBytes (byte :: rest) by omega)
    rw [hk] at hbytes
    have hagain := hd.complete hbytes (Nat.succ_pos k) tail
    rw [take_succ_cons, cons_append] at hagain ⊢
    rw [Decoder.characterLength_cons_final, if_neg hhigh]
    exact characterBytes_of_mbrlen hagain (Nat.succ_ne_zero k)
  · rw [take_succ_cons, head?_cons, Option.some.injEq] at hhead
    subst hhead
    have hone : d.characterLength (byteOf '\\' :: rest) true = 1 := by
      rw [Decoder.characterLength_cons_final]
      rfl
    rw [hone] at hk
    rw [← hk]
    rfl

theorem whole_cellCharacters (hd : d.Stateless) (cells : List Cell) :
    ∀ character ∈ cellCharacters d cells, Whole d (rawOf character) := by
  fun_induction cellCharacters d cells with
  | case1 => simp
  | case2 cell rest width ih =>
    intro character hmem
    rcases mem_cons.mp hmem with rfl | hmem
    · rw [rawOf, map_take]
      exact whole_take hd cell.byte (rawOf rest)
    · exact ih character hmem

theorem characters_append {character rest : Bytes} (hne : character ≠ [])
    (h : d.characterLength (character ++ rest) true = character.length) :
    characters d (character ++ rest) = character :: characters d rest := by
  obtain ⟨byte, tail, rfl⟩ := exists_cons_of_ne_nil hne
  rw [cons_append] at h ⊢
  rw [characters_cons, h, ← cons_append, take_left', drop_left']
  · rfl
  · rfl

/-- The head of a cut text. -/
theorem characterLength_of_characters {character rest : Bytes} {pieces : List Bytes}
    (hne : character ≠ []) (h : characters d (character ++ rest) = character :: pieces) :
    d.characterLength (character ++ rest) true = character.length ∧ characters d rest = pieces := by
  obtain ⟨byte, tail, rfl⟩ := exists_cons_of_ne_nil hne
  have hle := d.characterLength_final_le (cons_ne_nil byte (tail ++ rest))
  have hcut := characters_cons d byte (tail ++ rest)
  rw [← cons_append] at hle hcut
  have hhead := (cons.inj (hcut.symm.trans h)).1
  have hlength : d.characterLength (byte :: tail ++ rest) true = (byte :: tail).length := by
    have := congrArg length hhead
    rw [length_take] at this
    omega
  refine ⟨hlength, ?_⟩
  rw [characters_append hne hlength] at h
  exact (cons.inj h).2

theorem characters_slash (d : Decoder) (rest : Bytes) :
    characters d (slash ++ rest) = slash :: characters d rest := by
  refine characters_append (cons_ne_nil _ _) ?_
  rw [slash, singleton_append, Decoder.characterLength_cons_final]
  rfl

/-- How long a character is in front of a text it was not read in. -/
theorem Whole.length_iff {character : Bytes} (h : Whole d character) (rest : Bytes) :
    d.characterLength (character ++ rest) true = character.length ↔
      ∀ byte, character = [byte] → ¬byte < 0x80 → d.characterLength (byte :: rest) true = 1 := by
  constructor
  · rintro hlength byte rfl -
    exact hlength
  · intro hone
    by_cases hlong : 1 < character.length
    · exact h.long hlong rest
    · obtain ⟨byte, tail, rfl⟩ := exists_cons_of_ne_nil h.ne_nil
      obtain rfl : tail = [] := by
        rw [length_cons] at hlong
        exact eq_nil_of_length_eq_zero (by omega)
      by_cases hlow : byte < 0x80
      · rw [singleton_append, Decoder.characterLength_cons_final, if_pos hlow]
        rfl
      · exact hone byte rfl hlow

/-- **The pattern is cut at the marked characters exactly if no stray byte begins a
longer one.** -/
theorem unbroken_iff (hwhole : ∀ mark ∈ text, Whole d (rawOf mark.2)) :
    Unbroken d text ↔ characters d (written text) = pieces text := by
  induction text with
  | nil => simp [Unbroken, written, pieces, characters]
  | cons mark text ih =>
    obtain ⟨guarded, character⟩ := mark
    have hcharacter : Whole d (rawOf character) := hwhole _ mem_cons_self
    have ih := ih fun mark hmark => hwhole mark (mem_cons_of_mem _ hmark)
    have hcut : characters d (written ((guarded, character) :: text)) =
          pieces ((guarded, character) :: text) ↔
        characters d (rawOf character ++ written text) = rawOf character :: pieces text := by
      rw [written_cons, append_assoc]
      cases guarded with
      | false => rfl
      | true =>
        rw [if_pos rfl, characters_slash]
        exact ⟨fun h => (cons.inj h).2, fun h => congrArg _ h⟩
    rw [hcut, Unbroken, ← hcharacter.length_iff, ih]
    constructor
    · rintro ⟨hlength, hrest⟩
      rw [characters_append hcharacter.ne_nil hlength, hrest]
    · exact characterLength_of_characters hcharacter.ne_nil

end Reading

/-! ### One text, one way to insert backslashes -/

/-- Characters with backslashes inserted before some of them. -/
inductive Inserted : List Bytes → List Bytes → Prop
  | nil : Inserted [] []
  | plain {character : Bytes} {raw pattern : List Bytes} (rest : Inserted raw pattern) :
      Inserted (character :: raw) (character :: pattern)
  | inserted {character : Bytes} {raw pattern : List Bytes} (rest : Inserted raw pattern) :
      Inserted (character :: raw) (slash :: character :: pattern)

theorem Shields.inserted_of {active : Option Bool} {pattern : List Bytes}
    (h : Shields active raw pattern) : Inserted (raw.map rawOf) pattern := by
  induction h with
  | nil => exact .nil
  | plain _ _ ih => exact .plain ih
  | inserted _ _ ih => exact .inserted ih

/-- The first piece of a pattern: a raw character, or a backslash before one. -/
theorem Inserted.step {raw pattern : List Bytes} (h : Inserted raw pattern) :
    (raw = [] ∧ pattern = []) ∨ ∃ character raw' pattern', raw = character :: raw' ∧
      ((pattern = character :: pattern' ∧ Inserted raw' pattern') ∨
        (pattern = slash :: pattern' ∧ Inserted (character :: raw') pattern')) := by
  cases h with
  | nil => exact .inl ⟨rfl, rfl⟩
  | plain rest => exact .inr ⟨_, _, _, rfl, .inl ⟨rfl, rest⟩⟩
  | inserted rest => exact .inr ⟨_, _, _, rfl, .inr ⟨rfl, .plain rest⟩⟩

theorem whole_slash (d : Decoder) : Whole d slash :=
  ⟨cons_ne_nil _ _, fun h => absurd h (Nat.lt_irrefl 1), fun _ => rfl⟩

/-- A character in front of which another text has a backslash is one. -/
theorem Whole.eq_slash {d : Decoder} {character rest rest' : Bytes} (h : Whole d character)
    (heq : slash ++ rest = character ++ rest') : character = slash := by
  refine h.backslash ?_
  obtain ⟨byte, tail, rfl⟩ := exists_cons_of_ne_nil h.ne_nil
  exact congrArg some (cons.inj heq).1.symm

/-- Of two readings of a text, one may be some backslashes behind; the text is cut
alike. -/
theorem Inserted.unique {d : Decoder} (n : ℕ) : ∀ {raw pattern pattern' : List Bytes} (behind : ℕ),
    pattern.flatten.length = n → (∀ character ∈ raw, Whole d character) →
    Inserted (replicate behind slash ++ raw) pattern → Inserted raw pattern' →
    pattern.flatten = pattern'.flatten → pattern = pattern' := by
  -- by induction on the text, one piece at a time
  induction n using Nat.strong_induction_on with
  | h n ih =>
    intro raw pattern pattern' behind hn hwhole h h' hflat
    have hpeel : ∀ {piece : Bytes} {a b raw' : List Bytes} (k : ℕ), Whole d piece →
        piece ++ a.flatten = pattern.flatten → piece ++ b.flatten = pattern.flatten →
        (∀ character ∈ raw', Whole d character) →
        Inserted (replicate k slash ++ raw') a → Inserted raw' b → a = b := by
      intro piece a b raw' k hpiece ha hb hraw' hfirst hsecond
      have hlength := congrArg length ha
      have hpos := length_pos_iff.mpr hpiece.ne_nil
      rw [length_append, hn] at hlength
      exact ih a.flatten.length (by omega) k rfl hraw' hfirst hsecond
        (append_cancel_left (ha.trans hb.symm))
    rcases h'.step with ⟨rfl, rfl⟩ | ⟨character, raw', rest', rfl, hsecond⟩
    · -- nothing is left, backslashes included
      rcases h.step with ⟨-, rfl⟩ | ⟨first, _, rest, heq, hfirst⟩
      · rfl
      · have hfirst' : first = slash := by
          have hmem : first ∈ replicate behind slash ++ [] := heq ▸ mem_cons_self
          simpa using (mem_replicate.mp (by simpa using hmem)).2
        subst hfirst'
        rcases hfirst with ⟨rfl, -⟩ | ⟨rfl, -⟩ <;> cases hflat
    have hcharacter : Whole d character := hwhole _ mem_cons_self
    have hraw' : ∀ c ∈ raw', Whole d c := fun c hc => hwhole c (mem_cons_of_mem _ hc)
    cases behind with
    | zero =>
      rw [replicate_zero, nil_append] at h
      rcases h.step with ⟨hnil, -⟩ | ⟨_, _, rest, heq, hfirst⟩
      · cases hnil
      cases heq
      rcases hfirst with ⟨rfl, hfirst⟩ | ⟨rfl, hfirst⟩ <;>
        rcases hsecond with ⟨rfl, hsecond⟩ | ⟨rfl, hsecond⟩
      · rw [hpeel 0 hcharacter rfl hflat.symm hraw' hfirst hsecond]
      · -- the second reading has the backslash before the character
        have hslash := hcharacter.eq_slash hflat.symm
        subst hslash
        rw [hpeel 1 (whole_slash d) hflat.symm rfl hraw' hsecond hfirst]
      · have hslash := hcharacter.eq_slash hflat
        subst hslash
        rw [hpeel 1 (whole_slash d) rfl hflat.symm hraw' hfirst hsecond]
      · rw [hpeel 0 (whole_slash d) rfl hflat.symm hwhole hfirst hsecond]
    | succ k =>
      rw [replicate_succ, cons_append] at h
      rcases h.step with ⟨hnil, -⟩ | ⟨_, _, rest, heq, hfirst⟩
      · cases hnil
      cases heq
      -- the first reading goes on with a backslash, inserted or not
      obtain ⟨j, rfl, hbehind⟩ : ∃ j, pattern = slash :: rest ∧
          Inserted (replicate j slash ++ character :: raw') rest := by
        rcases hfirst with ⟨hpattern, hfirst⟩ | ⟨hpattern, hfirst⟩
        · exact ⟨k, hpattern, hfirst⟩
        · exact ⟨k + 1, hpattern, hfirst⟩
      rcases hsecond with ⟨rfl, hsecond⟩ | ⟨rfl, hsecond⟩
      · have hslash := hcharacter.eq_slash hflat
        subst hslash
        have hfirst' : Inserted (replicate (j + 1) slash ++ raw') rest := by
          rw [replicate_succ', append_assoc]
          exact hbehind
        rw [hpeel (j + 1) (whole_slash d) rfl hflat.symm hraw' hfirst' hsecond]
      · rw [hpeel j (whole_slash d) rfl hflat.symm hwhole hbehind hsecond]

/-! ### The marks shield what is quoted -/

section Shielding

variable {d : Decoder} {context : ExpandContext}

theorem pieces_cons (guarded : Bool) (character : List Cell) (text : List (Bool × List Cell)) :
    pieces ((guarded, character) :: text) =
      if guarded then slash :: rawOf character :: pieces text else rawOf character :: pieces text := by
  cases guarded <;> rfl

/-- Characters that need no shield may be copied. -/
theorem Shields.copied {text : List (List Cell)} (hunquoted : Unquoted text) {initial : List (List Cell)}
    (htext : text = initial ++ [[cell]]) (hbyte : cell.byte ≠ byteOf '\\')
    {pattern : List (Bool × List Cell)}
    (rest : Shields none raw (pieces pattern)) (active : Option Bool) :
    Shields active (text ++ raw) (pieces (text.map (false, ·) ++ pattern)) := by
  subst htext
  induction initial generalizing active with
  | nil =>
    have hafter : activeAfter active [cell] = none := by
      cases active <;> simp [activeAfter, hbyte]
    refine .plain (fun h => ?_) (hafter ▸ rest)
    rw [hunquoted [cell] (by simp)] at h
    cases h
  | cons character initial ih =>
    refine .plain (fun h => ?_) (ih _ fun c hc => hunquoted c (mem_cons_of_mem _ hc))
    rw [hunquoted character (by simp)] at h
    cases h

/-- What the state of the encoder says about the character before. -/
def activeOf (escaped : Bool) : Option Bool := if escaped then some true else none

theorem activeAfter_other (h : cell.byte ≠ byteOf '\\') (active : Option Bool) :
    activeAfter active [cell] = none := by
  cases active <;> simp [activeAfter, h]

/-- A longer character means nothing in a pattern. -/
theorem long_character (h : 1 < d.characterLength (rawOf (cell :: rest)) true) :
    let character := (cell :: rest).take (d.characterLength (rawOf (cell :: rest)) true)
    quotedActive character = false ∧ ∀ active, activeAfter active character = none := by
  have hle := d.characterLength_final_le (cons_ne_nil cell.byte (rawOf rest))
  rw [show cell.byte :: rawOf rest = rawOf (cell :: rest) from rfl] at hle
  obtain ⟨k, hk⟩ := Nat.exists_eq_add_of_lt h
  rw [hk, rawOf, length_map] at hle
  cases rest with
  | nil =>
    rw [length_singleton] at hle
    omega
  | cons next rest =>
    rw [hk, show 1 + k + 1 = k + 1 + 1 by omega, take_succ_cons, take_succ_cons]
    exact ⟨rfl, fun active => by cases active <;> rfl⟩

/-- **Every quoted special character is marked, or behind an active backslash.** -/
theorem shields_marks (d : Decoder) (context : ExpandContext) (cells : List Cell)
    (escaped : Bool) (bracket : Bracket) :
    Shields (activeOf escaped) (cellCharacters d cells)
      (pieces (marks d context cells escaped bracket)) := by
  fun_induction marks d context cells escaped bracket with
  | case1 escaped bracket =>
    rw [cellCharacters]
    exact .nil _
  | case2 escaped bracket cell rest width hwidth ih =>
    obtain ⟨hquoted, hafter⟩ := long_character hwidth
    rw [cellCharacters, pieces_cons]
    refine .plain (fun h => ?_) ?_
    · rw [hquoted] at h
      cases h
    · rw [hafter]
      exact ih
  | case3 bracket cell rest width inside hwidth ih =>
    rw [cellCharacters_single (width_one hwidth), pieces_cons]
    exact .plain (fun _ => rfl) ih
  | case4 escaped bracket cell rest width inside skipped hwidth hescaped hform ih =>
    have hskip : skipped.1 ≠ 0 := by simpa using And.left (by simpa using hform)
    have hclean : skipped.2 = false := by simpa using And.right (by simpa using hform)
    obtain ⟨hbyte, hquoted, hspans, hunquoted⟩ := form_spec hskip
    obtain ⟨initial, last, hlast, hbracket⟩ := hspans.closed
    rw [cellCharacters_single (width_one hwidth), cons_append, pieces_cons, hspans.split]
    have hplain : quotedActive [cell] = false := by simp [quotedActive, hquoted]
    have hnone : activeAfter (activeOf escaped) [cell] = none :=
      activeAfter_other (by rw [hbyte]; decide) _
    refine .plain (fun h => by rw [hplain] at h; cases h) ?_
    rw [hnone]
    exact Shields.copied (hunquoted hclean) hlast (by rw [hbracket]; decide) ih none
  | case5 escaped bracket cell rest width inside skipped forced hwidth hescaped hform hplain ih =>
    -- an unquoted backslash from an expansion: the next character is behind it
    obtain ⟨hguard, hbyte⟩ := Bool.and_eq_true_iff.mp hplain
    have hbyte' : cell.byte = byteOf '\\' := beq_iff_eq.mp hbyte
    simp only [guarded, hbyte, Bool.true_and, Bool.not_eq_true', Bool.or_eq_false_iff] at hguard
    obtain ⟨⟨-, hquoted, hliteral⟩, -⟩ := hguard
    rw [cellCharacters_single (width_one hwidth), pieces_cons, Bool.eq_false_iff.mpr hescaped]
    refine .plain (fun h => ?_) ?_
    · simp [quotedActive, hquoted] at h
    · have hafter : activeAfter (activeOf false) [cell] = some true := by
        simp [activeAfter, activeOf, hbyte', hquoted, hliteral]
      rw [hafter]
      exact ih
  | case6 escaped bracket cell rest width inside skipped forced hwidth hescaped hform hplain ih =>
    rw [cellCharacters_single (width_one hwidth), pieces_cons, Bool.eq_false_iff.mpr hescaped]
    by_cases hguard : guarded cell forced = true
    · rw [hguard, if_pos rfl]
      exact .inserted (fun _ => rfl) ih
    · have hslash : (cell.byte == byteOf '\\') = false := by simpa [hguard] using hplain
      have hother : activeAfter (activeOf false) [cell] = none :=
        activeAfter_other (beq_eq_false_iff_ne.mp hslash) _
      rw [if_neg hguard]
      refine .plain (fun h => ?_) (hother ▸ ih)
      simp only [guarded, hslash, Bool.false_and, Bool.or_false, Bool.or_eq_true, not_or] at hguard
      simp only [quotedActive, activeByte, hslash, Bool.false_or] at h
      exact absurd h hguard.2

end Shielding

/-! ### A wholly quoted text -/

section Inert

variable {d : Decoder}

theorem quotedActive_eq {character : List Cell} (h : ∀ cell ∈ character, cell.quoted) :
    quotedActive character = activeCharacter (rawOf character) := by
  match character with
  | [] => rfl
  | [cell] => simp [quotedActive, activeCharacter, rawOf, h cell (by simp)]
  | _ :: _ :: _ => rfl

theorem inert_cons {character : Bytes} (h : activeCharacter character = false) (rest : List Bytes) :
    inert (character :: rest) = inert rest := by
  cases rest with
  | nil => simp [inert, h]
  | cons next rest =>
    have hne : character ≠ slash := by
      rintro rfl
      cases h
    rw [inert, if_neg hne, h]
    rfl

theorem inert_cons_of_ne {character : Bytes} {rest : List Bytes} (hne : character ≠ slash)
    (h : inert (character :: rest) = true) :
    activeCharacter character = false ∧ inert rest = true := by
  cases rest with
  | nil => exact ⟨by simpa [inert] using h, rfl⟩
  | cons next rest =>
    rw [inert, if_neg hne, Bool.and_eq_true] at h
    exact ⟨by simpa using h.1, h.2⟩

theorem Shields.inert_of_quoted {pattern : List Bytes}
    (h : Shields none raw pattern) (hquoted : ∀ character ∈ raw, ∀ cell ∈ character, cell.quoted) :
    inert pattern = true := by
  generalize hactive : (none : Option Bool) = active at h
  induction h with
  | nil => rfl
  | @plain active character raw pattern shielded rest ih =>
    subst hactive
    have hcells := hquoted character mem_cons_self
    have hplain : quotedActive character = false := by
      rw [Bool.eq_false_iff]
      intro h
      cases shielded h
    have hafter : activeAfter none character = none := by
      match character with
      | [] => rfl
      | [cell] =>
        refine activeAfter_other (fun hbyte => ?_) none
        simp [quotedActive, activeByte, hbyte, hcells cell (by simp)] at hplain
      | _ :: _ :: _ => rfl
    rw [inert_cons (by rw [← quotedActive_eq hcells, hplain])]
    exact ih (fun c hc => hquoted c (mem_cons_of_mem _ hc)) hafter.symm
  | @inserted active character raw pattern shielded rest ih =>
    subst hactive
    rw [inert, if_pos rfl]
    exact ih (fun c hc => hquoted c (mem_cons_of_mem _ hc)) rfl

/-- A decoder without memory sees a character in any text long enough for one. -/
theorem characterBytes_take (hd : d.Stateless) (text : Bytes) :
    d.characterBytes (text.take d.mbCurMax) = d.characterBytes text := by
  by_cases hfound : ∃ n, d.mbrlen text = .bytes n ∧ n ≠ 0
  · obtain ⟨n, hn, hzero⟩ := hfound
    have hagain := hd.complete hn (Nat.pos_of_ne_zero hzero) ((text.take d.mbCurMax).drop n)
    rw [show text.take n = (text.take d.mbCurMax).take n by
      rw [take_take, Nat.min_eq_left (hd.short hn)], take_append_drop] at hagain
    rw [characterBytes_of_mbrlen hn hzero, characterBytes_of_mbrlen hagain hzero]
  · have hone : ∀ t : Bytes, (¬∃ n, d.mbrlen t = .bytes n ∧ n ≠ 0) → d.characterBytes t = 1 := by
      intro t ht
      unfold Decoder.characterBytes
      split
      · next n hn =>
        rw [if_pos (by by_contra hne; exact ht ⟨n, hn, hne⟩)]
      · rfl
    rw [hone text hfound, hone]
    rintro ⟨n, hn, hzero⟩
    refine hfound ⟨n, ?_, hzero⟩
    have hagain := hd.complete hn (Nat.pos_of_ne_zero hzero)
      ((text.take d.mbCurMax).drop n ++ text.drop d.mbCurMax)
    rwa [← append_assoc, take_append_drop, take_append_drop] at hagain

/-- The width the detector steps by. -/
theorem patternWidth_eq (hd : d.Stateless) (text : Bytes) :
    d.patternWidth text = d.characterLength text true := by
  cases text with
  | nil => simp [Decoder.patternWidth]
  | cons byte rest =>
    obtain ⟨k, hk⟩ := Nat.exists_eq_succ_of_ne_zero (Nat.pos_iff_ne_zero.mp d.mbCurMax_pos)
    have htake := characterBytes_take hd (byte :: rest)
    rw [Decoder.patternWidth]
    rw [hk, take_succ_cons] at htake ⊢
    rw [Decoder.characterLength_cons_final, Decoder.characterLength_cons_final, htake]

/-- The detector finds no wildcard among inert characters. -/
theorem hasPattern_of_inert (hd : d.Stateless) {text : Bytes}
    (h : inert (characters d text) = true) : hasPattern d text = false := by
  induction hn : text.length using Nat.strong_induction_on generalizing text with
  | h n ih =>
    cases text with
    | nil => rw [hasPattern]
    | cons byte rest =>
      have hpos := d.characterLength_final_pos (cons_ne_nil byte rest)
      obtain ⟨k, hk⟩ := Nat.exists_eq_succ_of_ne_zero hpos.ne'
      have hless : ∀ m, (rest.drop m).length < n := fun m => by
        rw [length_drop, ← hn, length_cons]
        omega
      by_cases hslash : byte = byteOf '\\'
      · subst hslash
        have hcut := characters_slash d rest
        rw [show slash ++ rest = byteOf '\\' :: rest from rfl] at hcut
        rw [hcut] at h
        cases rest with
        | nil => simp [characters, inert, activeCharacter, slash, activeByte] at h
        | cons next rest =>
          rw [characters_cons, inert, if_pos rfl] at h
          rw [hasPattern, if_pos (by simp), patternWidth_eq hd]
          exact ih _ (hless _) h rfl
      · have hne : (byte :: rest).take k.succ ≠ slash := by
          rw [take_succ_cons]
          exact fun heq => hslash (cons.inj heq).1
        rw [characters_cons, hk] at h
        obtain ⟨hcharacter, hrest⟩ := inert_cons_of_ne hne h
        have hwild : ∀ c, activeByte c → (byte == c) = false := by
          intro c hc
          rw [beq_eq_false_iff_ne]
          rintro rfl
          have hone : k.succ = 1 := by
            rw [← hk, Decoder.characterLength_cons_final, if_pos (lt_of_activeByte hc)]
          rw [hone] at hcharacter
          exact absurd (hcharacter.symm.trans hc) (by decide)
        rw [hasPattern, hwild (byteOf '\\') (by decide), hwild (byteOf '*') (by decide),
          hwild (byteOf '?') (by decide), hwild (byteOf '[') (by decide),
          patternWidth_eq hd (byte :: rest), hk]
        rw [drop_succ_cons] at hrest
        simpa using ih _ (hless k) hrest rfl

end Inert

/-! ### The encoder -/

section Encoder

variable {d : Decoder}

/-- The cells of the characters are those of the candidate. -/
theorem cellCharacters_flatten (d : Decoder) (cells : List Cell) :
    (cellCharacters d cells).flatten = cells := by
  fun_induction cellCharacters d cells with
  | case1 => rfl
  | case2 cell rest width ih =>
    have hpos := d.characterLength_final_pos (cons_ne_nil cell.byte (rawOf rest))
    obtain ⟨k, hk⟩ : ∃ k, width = k + 1 := Nat.exists_eq_succ_of_ne_zero hpos.ne'
    rw [flatten_cons, ih, hk, take_succ_cons, Nat.add_sub_cancel, cons_append,
      take_append_drop]

theorem characters_flatten (d : Decoder) (text : Bytes) : (characters d text).flatten = text := by
  fun_induction characters d text with
  | case1 => rfl
  | case2 byte rest width ih =>
    have hpos := d.characterLength_final_pos (cons_ne_nil byte rest)
    obtain ⟨k, hk⟩ : ∃ k, width = k + 1 := Nat.exists_eq_succ_of_ne_zero hpos.ne'
    rw [flatten_cons, ih, hk, take_succ_cons, Nat.add_sub_cancel, cons_append,
      take_append_drop]

theorem length_written_le (hne : ∀ mark ∈ text, rawOf mark.2 ≠ []) :
    (written text).length ≤ 2 * (text.map Prod.snd).flatten.length := by
  induction text with
  | nil => exact Nat.zero_le _
  | cons mark text ih =>
    obtain ⟨guarded, character⟩ := mark
    have hpos := length_pos_iff.mpr (hne _ mem_cons_self)
    have hrest := ih fun mark hmark => hne mark (mem_cons_of_mem _ hmark)
    have hlength : (rawOf character).length = character.length := length_map ..
    rw [written_cons, map_cons, flatten_cons]
    cases guarded <;> simp only [length_append, length_cons, length_nil, slash,
      Bool.false_eq_true, if_true, if_false] at hpos hrest ⊢ <;> omega

/-- **Quoted characters stay literal exactly where no stray byte takes up an inserted
backslash.**  In every encoding without shift states and for every candidate with
its protection: the pattern is at most twice as long, is read as the raw characters
with backslashes before some of them so that each quoted special one is behind an
active backslash, and has no wildcard when the whole candidate is quoted, if and
only if no byte that stood alone with its high bit set begins a longer character
once the backslashes are in place. -/
theorem protects_iff (d : Decoder) (hd : d.Stateless) (context : ExpandContext)
    (cells : List Cell) :
    Protects d context cells ↔ Unbroken d (marks d context cells false .outside) := by
  have hwritten := makePattern_eq_written d context cells false .outside
  have hcharacters := marks_characters d context cells false .outside
  have hwhole : ∀ mark ∈ marks d context cells false .outside, Whole d (rawOf mark.2) := by
    intro mark hmark
    exact whole_cellCharacters hd cells mark.2 (hcharacters ▸ mem_map_of_mem hmark)
  have hshields := shields_marks d context cells false .outside
  rw [unbroken_iff hwhole]
  constructor
  · intro h
    have hread := h.shields.inserted_of
    rw [hwritten] at hread
    have hraw : ∀ character ∈ (cellCharacters d cells).map rawOf, Whole d character := by
      intro character hmem
      obtain ⟨c, hc, rfl⟩ := mem_map.mp hmem
      exact whole_cellCharacters hd cells c hc
    exact Inserted.unique _ 0 rfl hraw hread hshields.inserted_of (characters_flatten d _)
  · intro hcut
    have hpattern : Shields none (cellCharacters d cells)
        (characters d (makePattern d context cells false .outside)) := by
      rw [hwritten, hcut]
      exact hshields
    refine ⟨?_, hpattern, fun hquoted => ?_⟩
    · have hle := length_written_le fun mark hmark => (hwhole mark hmark).ne_nil
      rwa [hcharacters, cellCharacters_flatten, ← hwritten] at hle
    · have hinert := hpattern.inert_of_quoted fun character hmem cell hcell =>
        hquoted cell (cellCharacters_flatten d cells ▸ mem_flatten_of_mem hmem hcell)
      exact ⟨hinert, hasPattern_of_inert hd hinert⟩

/-- High bytes at the front of a written text are those of the candidate. -/
theorem take_written {n : ℕ}
    (h : ∀ byte ∈ (written text).take n, ¬byte < 0x80) :
    (written text).take n = (rawOf (text.map Prod.snd).flatten).take n := by
  induction text generalizing n with
  | nil => rfl
  | cons mark text ih =>
    obtain ⟨guarded, character⟩ := mark
    cases n with
    | zero => rfl
    | succ n =>
      have hguarded : guarded = false := by
        cases guarded with
        | false => rfl
        | true =>
          rw [written_cons, if_pos rfl] at h
          exact absurd (show byteOf '\\' < 0x80 by decide) (h _ (by simp [slash]))
      subst hguarded
      have hsplit : written ((false, character) :: text) = rawOf character ++ written text := by
        rw [written_cons]
        rfl
      rw [hsplit, take_append] at h ⊢
      rw [map_cons, flatten_cons, rawOf_append, take_append,
        ih fun byte hbyte => h byte (mem_append_right _ hbyte)]

/-- Where no longer character contains an ASCII byte, a backslash never becomes part of
one. -/
theorem unbroken_of_asciiSafe (hd : d.Stateless) (hsafe : d.AsciiSafe)
    {cells : List Cell}
    (h : text.map Prod.snd = cellCharacters d cells) : Unbroken d text := by
  induction text generalizing cells with
  | nil => trivial
  | cons mark text ih =>
    obtain ⟨guarded, character⟩ := mark
    cases cells with
    | nil => simp [cellCharacters] at h
    | cons cell rest =>
      rw [map_cons, cellCharacters_cons] at h
      obtain ⟨hcharacter, htext⟩ := cons.inj h
      simp only at hcharacter
      refine ⟨fun byte hraw hhigh => ?_, ih htext⟩
      have hone : d.characterLength (rawOf (cell :: rest)) true = 1 := by
        rw [hcharacter] at hraw
        have hlength := congrArg length hraw
        have hle := d.characterLength_final_le (cons_ne_nil cell.byte (rawOf rest))
        rw [show cell.byte :: rawOf rest = rawOf (cell :: rest) from rfl] at hle
        rw [length_rawOf, length_take, length_singleton] at hlength
        rw [length_rawOf] at hle
        omega
      rw [hone] at hcharacter htext
      obtain rfl : cell.byte = byte := by
        rw [hcharacter] at hraw
        exact (cons.inj hraw).1
      by_contra hlong
      have hpos := d.characterLength_final_pos (cons_ne_nil cell.byte (written text))
      have hmore : 1 < d.characterLength (cell.byte :: written text) true := by omega
      -- the bytes taken up are high, so they were there before
      have hbytes := hsafe.high hmore
      rw [Decoder.characterLength_cons_final, if_neg hhigh] at hmore hbytes
      have hfound := mbrlen_of_characterBytes hmore
      obtain ⟨m, hm⟩ := Nat.exists_eq_succ_of_ne_zero (Nat.ne_of_gt (Nat.lt_of_succ_lt hmore))
      rw [hm] at hfound hbytes hmore
      rw [take_succ_cons] at hbytes
      have hsame := take_written fun byte hbyte => hbytes byte (mem_cons_of_mem _ hbyte)
      rw [htext, drop_succ_cons, drop_zero, cellCharacters_flatten] at hsame
      have hraw := hd.complete hfound (Nat.succ_pos m) ((rawOf rest).drop m)
      rw [take_succ_cons, hsame, cons_append, take_append_drop] at hraw
      have hwidth := characterBytes_of_mbrlen hraw (Nat.succ_ne_zero m)
      rw [show rawOf (cell :: rest) = cell.byte :: rawOf rest from rfl,
        Decoder.characterLength_cons_final, if_neg hhigh, hwidth] at hone
      omega

end Encoder

theorem posix_stateless : Decoder.posix.Stateless := by
  constructor
  · intro text n h hn rest
    cases text with
    | nil => cases h
    | cons byte tail =>
      obtain ⟨k, rfl⟩ := Nat.exists_eq_succ_of_ne_zero hn.ne'
      exact h
  · intro text n h
    cases text with
    | nil => cases h
    | cons byte tail =>
      simp only [Decoder.posix, Mbrlen.bytes.injEq] at h ⊢
      split at h <;> omega

/-! ### An encoding where it fails -/

theorem gbk_stateless : gbk.Stateless := by
  constructor
  · intro text n h hn rest
    cases text with
    | nil => cases h
    | cons first tail =>
      by_cases hfirst : first.toNat < 128
      · have hone : n = 1 := by
          simp only [gbk, gbkLength, hfirst, if_true, Mbrlen.bytes.injEq] at h
          split at h <;> omega
        subst hone
        simpa [gbk, gbkLength, hfirst] using h
      · have hlead : ¬(first.toNat = 128 ∨ first.toNat = 255) := fun hbad => by
          simp [gbk, gbkLength, hfirst, hbad] at h
        cases tail with
        | nil => simp [gbk, gbkLength, hfirst, hlead] at h
        | cons second tail =>
          simp only [gbk, gbkLength, hfirst, hlead, if_false] at h
          split at h
          · next hsecond =>
            cases h
            simp [gbk, gbkLength, hfirst, hlead, hsecond]
          · cases h
  · intro text n h
    cases text with
    | nil => cases h
    | cons first tail =>
      simp only [gbk, gbkLength] at h ⊢
      split at h
      · simp only [Mbrlen.bytes.injEq] at h
        split at h <;> omega
      · split at h
        · cases h
        · split at h
          · cases h
          · split at h
            · cases h
              exact Nat.le_refl 2
            · cases h

/-- A quoted candidate of the two bytes 0x81 and `*`. -/
def quotedLead : List Cell := bareLead.map fun byte => ⟨byte, true, true⟩

/-- In the C locale it is protected. -/
theorem protects_iff_quotedLead : Protects .posix .argument quotedLead :=
  (protects_iff .posix posix_stateless .argument quotedLead).mpr
    (unbroken_of_asciiSafe posix_stateless Decoder.posix_asciiSafe (marks_characters ..))

/-- **In GBK a quoted asterisk comes out active**: 0x81 takes the backslash for its
second byte. -/
theorem not_protects_quotedLead : gbk.Stateless ∧ ¬ Protects gbk .argument quotedLead := by
  refine ⟨gbk_stateless, fun h => ?_⟩
  have hquoted : ∀ cell ∈ quotedLead, cell.quoted := by decide
  have hpattern : makePattern gbk .argument quotedLead false .outside =
      [0x81, byteOf '\\', byteOf '*'] := by
    rw [makePattern_protectBy gbk .argument hquoted]
    exact protectBy_bareLead
  have hactive := (h.inert_of_quoted hquoted).2
  rw [hpattern, hasPattern_bareLead] at hactive
  cases hactive

end Quoting
end CShell
