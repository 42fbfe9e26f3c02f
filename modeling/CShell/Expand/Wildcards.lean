import CShell.Quoting.Encoding

/-!
# Wildcards of a pattern and of its components

`has_pattern` runs over the whole pattern before it is split at its slashes, and
again over every component behind the split.  In between, `pathname_pattern` takes
away the backslash directly before a slash.  Both runs step over the same characters,
so what they find can be compared on lists of characters: a bracket that spans a
slash is none in either run, and an escaped slash ends a component in both.

## Main definitions

* `wildcardIn`, `bracketIn`, `closesIn` — the scans of `src/pathname.c` on characters.
* `normalized` — `pathname_pattern` on characters.
* `pathComponents` — the components of a pattern, each with the slashes before it.

## Main results

* `hasPattern_iff_component` — **a pattern has a wildcard if and only if a component
  of the normalized pattern has one.**

## References

`src/pathname.c`.
-/

namespace CShell

/-- No character of the encoding other than the slash contains its byte. -/
def Decoder.SlashSafe (d : Decoder) : Prop :=
  ∀ (text : Bytes) (n : ℕ), d.mbrlen text = .bytes n → 1 < n → byteOf '/' ∉ text.take n

namespace Globbing

open Quoting List

/-! ### The scans on characters -/

/-- `skipSubexpression` on characters. -/
def skipIn (mark : UInt8) : List Bytes → Option (List Bytes)
  | [] => none
  | character :: rest =>
    if character = [byteOf '/'] then none
    else if character = [mark] ∧ rest.head? = some [byteOf ']'] then some rest.tail
    else skipIn mark rest

variable {mark byte : UInt8} {character : Bytes} {rest : List Bytes}

theorem length_skipIn {text rest : List Bytes} (h : skipIn mark text = some rest) :
    rest.length ≤ text.length := by
  induction text with
  | nil => cases h
  | cons character text ih =>
    rw [skipIn] at h
    split at h
    · cases h
    · split at h
      · cases h
        rw [length_tail, length_cons]
        omega
      · exact (ih h).trans (Nat.le_succ _)

/-- The delimiter of a bracket subexpression that a character stands for. -/
def markOf : Option Bytes → Option UInt8
  | some [byte] => if (ascii ":.=").contains byte then some byte else none
  | _ => none

/-- `closesBracket` on characters. -/
def closesIn (text : List Bytes) : Bool :=
  match text with
  | [] => false
  | character :: rest =>
    if character = [byteOf '/'] then false
    else if character = slash ∧ rest ≠ [] ∧ rest.head? ≠ some [byteOf '/'] then closesIn rest.tail
    else if character = [byteOf ']'] then true
    else if character = [byteOf '['] then
      match markOf rest.head? with
      | some mark =>
        match _hskip : skipIn mark rest.tail with
        | none => false
        | some rest => closesIn rest
      | none => closesIn rest
    else closesIn rest
termination_by text.length
decreasing_by
  all_goals simp only [List.length_tail, List.length_cons]
  · omega
  · have := length_skipIn _hskip
    simp only [List.length_tail] at this
    omega
  · omega
  · omega

/-- `hasBracket` on characters. -/
def bracketIn (text : List Bytes) : Bool :=
  let text := if text.head? = some [byteOf '!'] then text.tail else text
  let text := if text.head? = some [byteOf ']'] then text.tail else text
  closesIn text

/-- A wildcard, or the opening of a bracket expression. -/
def wildcardAt (character : Bytes) (rest : List Bytes) : Bool :=
  character = [byteOf '*'] || character = [byteOf '?'] || (character = [byteOf '['] && bracketIn rest)

/-- `hasPattern` on characters. -/
def wildcardIn : List Bytes → Bool
  | [] => false
  | [character] => wildcardAt character []
  | character :: next :: rest =>
    if character = slash then wildcardIn rest
    else wildcardAt character (next :: rest) || wildcardIn (next :: rest)

/-- `pathnamePattern` on characters. -/
def normalized : List Bytes → List Bytes
  | [] => []
  | [character] => [character]
  | character :: next :: rest =>
    if character = slash then
      if next = [byteOf '/'] then next :: normalized rest else slash :: next :: normalized rest
    else character :: normalized (next :: rest)

/-- The characters before the first slash. -/
def firstComponent (text : List Bytes) : List Bytes := text.takeWhile (· ≠ [byteOf '/'])

/-- `wildcardIn` of some component. -/
def someWildcard (text : List Bytes) : Bool :=
  wildcardIn (firstComponent text) ||
    match _h : text.dropWhile (· ≠ [byteOf '/']) with
    | [] => false
    | _ :: rest => someWildcard rest
termination_by text.length
decreasing_by
  have := (List.dropWhile_suffix (fun c => decide (c ≠ [byteOf '/'])) (l := text)).length_le
  rw [_h, List.length_cons] at this
  omega

/-! ### The bytes and the characters -/

section Stepping

variable {d : Decoder}

/-- One step of a scan: the character cut off is the first byte where that is ASCII. -/
theorem characters_step (hd : d.Stateless) (byte : UInt8) (rest : Bytes) :
    ∃ character, characters d (byte :: rest) =
        character :: characters d (rest.drop (d.patternWidth (byte :: rest) - 1)) ∧
      ∀ c : UInt8, c < 0x80 → (character = [c] ↔ byte = c) := by
  obtain ⟨k, hk⟩ := Nat.exists_eq_succ_of_ne_zero
    (d.characterLength_final_pos (cons_ne_nil byte rest)).ne'
  refine ⟨byte :: rest.take k, ?_, fun c hc => ⟨fun h => (cons.inj h).1, ?_⟩⟩
  · rw [characters_cons, patternWidth_eq hd, hk]
    rfl
  · rintro rfl
    have hone : d.characterLength (byte :: rest) true = 1 := if_pos hc
    obtain rfl : k = 0 := by omega
    rfl

theorem characters_ascii (h : byte < 0x80) (rest : Bytes) :
    characters d (byte :: rest) = [byte] :: characters d rest := by
  have hone : d.characterLength (byte :: rest) true = 1 := if_pos h
  rw [characters_cons, hone]
  rfl

@[simp] theorem characters_nil : characters d [] = [] := by rw [characters]

theorem head?_characters (hd : d.Stateless) (h : byte < 0x80) (text : Bytes) :
    (characters d text).head? = some [byte] ↔ text.head? = some byte := by
  cases text with
  | nil => simp
  | cons first rest =>
    obtain ⟨character, hcut, hascii⟩ := characters_step hd first rest
    rw [hcut, head?_cons, head?_cons, Option.some.injEq, Option.some.injEq]
    exact hascii byte h

theorem tail_characters (h : byte < 0x80) {text : Bytes}
    (hhead : text.head? = some byte) : (characters d text).tail = characters d text.tail := by
  obtain ⟨rest, rfl⟩ : ∃ rest, text = byte :: rest := by
    cases text with
    | nil => cases hhead
    | cons first rest => exact ⟨rest, by rw [Option.some.inj hhead]⟩
  rw [characters_ascii h]
  rfl

theorem skipSubexpression_characters (hd : d.Stateless) (hmark : mark < 0x80)
    (text : Bytes) :
    (skipSubexpression d mark text).map (characters d) = skipIn mark (characters d text) := by
  fun_induction skipSubexpression d mark text with
  | case1 => rw [characters_nil]; rfl
  | case2 byte rest hslash =>
    rw [eq_of_beq hslash, characters_ascii (by decide)]
    rfl
  | case3 byte rest hslash hend =>
    rw [Bool.and_eq_true, beq_iff_eq, beq_iff_eq] at hend
    obtain ⟨rfl, hhead⟩ := hend
    have hne : [byte] ≠ [byteOf '/'] := fun h => by
      rw [(cons.inj h).1] at hslash
      exact hslash rfl
    rw [characters_ascii hmark, skipIn, if_neg hne,
      if_pos ⟨rfl, (head?_characters hd (by decide) rest).mpr hhead⟩,
      tail_characters (by decide) hhead]
    rfl
  | case4 byte rest hslash hend ih =>
    obtain ⟨character, hcut, hascii⟩ := characters_step hd byte rest
    rw [ih, hcut, skipIn, if_neg fun h => hslash (beq_iff_eq.mpr ((hascii _ (by decide)).mp h)),
      if_neg]
    rintro ⟨hcharacter, hhead⟩
    -- an ASCII delimiter is one byte, so the bracket stands right behind it
    obtain rfl := (hascii mark hmark).mp hcharacter
    rw [characters_ascii hmark, cons.injEq] at hcut
    rw [← hcut.2, head?_characters hd (by decide)] at hhead
    exact hend (by simp [hhead])

/-- What follows a byte of the text, as a character. -/
theorem markOf_characters (hd : d.Stateless) (text : Bytes) :
    markOf (characters d text).head? = text.head?.filter (ascii ":.=").contains := by
  cases text with
  | nil => rw [characters_nil]; rfl
  | cons first rest =>
    obtain ⟨character, hcut, hascii⟩ := characters_step hd first rest
    rw [hcut, head?_cons, head?_cons]
    by_cases hmark : (ascii ":.=").contains first
    · have hlow : first < 0x80 := by
        have hall : ∀ byte ∈ ascii ":.=", byte < 0x80 := by decide +kernel
        exact hall first (contains_iff_mem.mp hmark)
      rw [(hascii first hlow).mpr rfl]
      simp [markOf, Option.filter]
    · rw [Option.filter_some, if_neg hmark]
      match character, hascii with
      | [], _ => rfl
      | [byte], hascii =>
        refine if_neg fun hbyte => hmark ?_
        have hlow : byte < 0x80 := by
          have hall : ∀ byte ∈ ascii ":.=", byte < 0x80 := by decide +kernel
          exact hall byte (contains_iff_mem.mp hbyte)
        rwa [(hascii byte hlow).mp rfl]
      | _ :: _ :: _, _ => rfl

theorem tail_characters_step (hd : d.Stateless) (text : Bytes) :
    (characters d text).tail = characters d (text.drop (d.patternWidth text)) := by
  cases text with
  | nil => simp
  | cons byte rest =>
    rw [characters_cons, patternWidth_eq hd]
    rfl

/-- A character that neither escapes nor ends a bracket expression, and opens no
subexpression. -/
theorem closesIn_other (hslash : character ≠ [byteOf '/'])
    (hescape : ¬(character = slash ∧ rest ≠ [] ∧ rest.head? ≠ some [byteOf '/']))
    (hend : character ≠ [byteOf ']'])
    (hopen : character = [byteOf '['] → markOf rest.head? = none) :
    closesIn (character :: rest) = closesIn rest := by
  rw [closesIn, if_neg hslash, if_neg hescape, if_neg hend]
  split
  · next heq => rw [hopen heq]
  · rfl

theorem closesIn_subexpression (hmark : markOf rest.head? = some mark) :
    closesIn ([byteOf '['] :: rest) =
      match skipIn mark rest.tail with
      | none => false
      | some rest => closesIn rest := by
  rw [closesIn, if_neg (by decide), if_neg fun h => absurd h.1 (by decide), if_neg (by decide),
    if_pos rfl, hmark]
  dsimp only
  split <;> split <;> simp_all

theorem mark_lt (h : (ascii ":.=").contains byte) : byte < 0x80 := by
  have hall : ∀ byte ∈ ascii ":.=", byte < 0x80 := by decide +kernel
  exact hall byte (contains_iff_mem.mp h)

theorem closesBracket_characters (hd : d.Stateless) (text : Bytes) :
    closesBracket d text = closesIn (characters d text) := by
  have hother : ∀ (byte : UInt8) (rest : Bytes), ¬(byte == byteOf '/') = true →
      ¬(byte == byteOf '\\' && rest.head?.isSome && rest.head? != some (byteOf '/')) = true →
      ¬(byte == byteOf ']') = true →
      (byte = byteOf '[' → rest.head?.filter (ascii ":.=").contains = none) →
      closesIn (characters d (byte :: rest)) =
        closesIn (characters d (rest.drop (d.patternWidth (byte :: rest) - 1))) := by
    intro byte rest hslash hescape hend hopen
    obtain ⟨character, hcut, hascii⟩ := characters_step hd byte rest
    -- an ASCII byte is a character, and what follows it is the rest of the text
    have hlow : ∀ c : UInt8, c < 0x80 → character = [c] →
        byte = c ∧ characters d (rest.drop (d.patternWidth (byte :: rest) - 1)) = characters d rest := by
      intro c hc hcharacter
      obtain rfl := (hascii c hc).mp hcharacter
      rw [characters_ascii hc, cons.injEq] at hcut
      exact ⟨rfl, hcut.2.symm⟩
    rw [hcut]
    apply closesIn_other
    · exact fun h => hslash (beq_iff_eq.mpr (hlow _ (by decide) h).1)
    · rintro ⟨h, hne, hnext⟩
      obtain ⟨rfl, hrest⟩ := hlow _ (by decide) h
      rw [hrest] at hne hnext
      refine hescape ?_
      cases rest with
      | nil => exact absurd characters_nil hne
      | cons first rest =>
        simpa [head?_characters hd (show byteOf '/' < 0x80 by decide)] using hnext
    · exact fun h => hend (beq_iff_eq.mpr (hlow _ (by decide) h).1)
    · intro h
      obtain ⟨hbyte, hrest⟩ := hlow _ (by decide) h
      rw [hrest, markOf_characters hd]
      exact hopen hbyte
  fun_induction closesBracket d text with
  | case1 => rw [characters_nil, closesIn]
  | case2 byte rest hslash =>
    rw [eq_of_beq hslash, characters_ascii (by decide), closesIn, if_pos rfl]
  | case3 byte rest hslash next hescape ih =>
    simp only [Bool.and_eq_true, beq_iff_eq, bne_iff_ne] at hescape
    obtain ⟨⟨rfl, hsome⟩, hnext⟩ := hescape
    rw [ih, characters_ascii (by decide), closesIn, if_neg (by decide), if_pos,
      tail_characters_step hd]
    refine ⟨rfl, fun hnil => ?_, fun h => hnext ((head?_characters hd (by decide) rest).mp h)⟩
    have := congrArg flatten hnil
    rw [characters_flatten] at this
    simp [next, this] at hsome
  | case4 byte rest hslash next hescape hend =>
    rw [eq_of_beq hend, characters_ascii (by decide), closesIn, if_neg (by decide),
      if_neg fun h => absurd h.1 (by decide), if_pos rfl]
  | case5 byte rest hslash next hescape hend mark hmark hopen hskip =>
    obtain ⟨hhead, hcontains⟩ := Option.filter_eq_some_iff.mp hmark
    rw [eq_of_beq hopen, characters_ascii (by decide),
      closesIn_subexpression ((markOf_characters hd rest).trans hmark),
      tail_characters (mark_lt hcontains) hhead,
      ← skipSubexpression_characters hd (mark_lt hcontains), hskip]
    rfl
  | case6 byte rest hslash next hescape hend mark hmark hopen rest' hskip ih =>
    obtain ⟨hhead, hcontains⟩ := Option.filter_eq_some_iff.mp hmark
    rw [eq_of_beq hopen, characters_ascii (by decide),
      closesIn_subexpression ((markOf_characters hd rest).trans hmark),
      tail_characters (mark_lt hcontains) hhead,
      ← skipSubexpression_characters hd (mark_lt hcontains), hskip, ih]
    rfl
  | case7 byte rest hslash next hescape hend mark hmark hopen ih =>
    rw [ih, hother byte rest hslash hescape hend fun h => absurd (beq_iff_eq.mpr h) hopen]
  | case8 byte rest hslash next hescape hend hmark ih =>
    rw [ih, hother byte rest hslash hescape hend fun _ => hmark]

theorem hasBracket_characters (hd : d.Stateless) (text : Bytes) :
    hasBracket d text = bracketIn (characters d text) := by
  have hskip : ∀ (c : UInt8) (text : Bytes), c < 0x80 →
      characters d (if text.head? == some c then text.tail else text) =
        if (characters d text).head? = some [c] then (characters d text).tail
        else characters d text := by
    intro c text hc
    by_cases h : text.head? = some c
    · rw [if_pos (beq_iff_eq.mpr h), if_pos ((head?_characters hd hc text).mpr h),
        tail_characters hc h]
    · rw [if_neg (by simpa using h), if_neg fun h' => h ((head?_characters hd hc text).mp h')]
  unfold hasBracket bracketIn
  dsimp only
  rw [closesBracket_characters hd, hskip _ _ (by decide), hskip _ _ (by decide)]

/-- The scan of a character that escapes nothing. -/
theorem wildcardIn_other (h : character = slash → rest = []) :
    wildcardIn (character :: rest) = (wildcardAt character rest || wildcardIn rest) := by
  cases rest with
  | nil => simp [wildcardIn]
  | cons next rest => rw [wildcardIn, if_neg fun heq => cons_ne_nil _ _ (h heq)]

/-- A backslash that escapes nothing is the last byte. -/
theorem unescaped {rest : Bytes} {others : List Bytes}
    (hcut : characters d (byte :: rest) = character :: others) (hbyte : byte = byteOf '\\')
    (hescape : ¬(byte == byteOf '\\' && !rest.isEmpty) = true) : others = [] := by
  subst hbyte
  have hnil : rest = [] := by simpa using hescape
  subst hnil
  rw [characters_ascii (by decide), characters_nil, cons.injEq] at hcut
  exact hcut.2.symm

/-- A character that begins a wildcard, seen from its first byte. -/
theorem wildcardAt_characters (hd : d.Stateless) {rest : Bytes}
    {others : List Bytes} (hcut : characters d (byte :: rest) = character :: others)
    (hascii : ∀ c : UInt8, c < 0x80 → (character = [c] ↔ byte = c)) :
    wildcardAt character others = (byte == byteOf '*' || byte == byteOf '?' ||
      (byte == byteOf '[' && hasBracket d rest)) := by
  have hsame : ∀ c : UInt8, c < 0x80 → decide (character = [c]) = (byte == c) := by
    intro c hc
    rw [Bool.eq_iff_iff, decide_eq_true_iff, beq_iff_eq, hascii c hc]
  rw [wildcardAt, hsame _ (by decide), hsame _ (by decide), hsame _ (by decide)]
  by_cases hopen : byte = byteOf '['
  · subst hopen
    rw [characters_ascii (by decide), cons.injEq] at hcut
    rw [hasBracket_characters hd, hcut.2]
  · rw [beq_eq_false_iff_ne.mpr hopen, Bool.false_and, Bool.false_and]

theorem hasPattern_characters (hd : d.Stateless) (text : Bytes) :
    hasPattern d text = wildcardIn (characters d text) := by
  fun_induction hasPattern d text with
  | case1 => rw [characters_nil]; rfl
  | case2 byte rest hescape ih =>
    rw [Bool.and_eq_true, beq_iff_eq] at hescape
    obtain ⟨rfl, hne⟩ := hescape
    obtain ⟨next, rest, rfl⟩ := exists_cons_of_ne_nil (show rest ≠ [] by simpa using hne)
    rw [ih, characters_ascii (by decide), characters_cons d next rest, wildcardIn,
      if_pos (by rfl), patternWidth_eq hd]
  | case3 byte rest hescape hwild =>
    obtain ⟨character, hcut, hascii⟩ := characters_step hd byte rest
    rw [hcut, wildcardIn_other, wildcardAt_characters hd hcut hascii, hwild, Bool.true_or]
    exact fun h => unescaped hcut ((hascii _ (by decide)).mp h) hescape
  | case4 byte rest hescape hwild ih =>
    obtain ⟨character, hcut, hascii⟩ := characters_step hd byte rest
    rw [hcut, wildcardIn_other, wildcardAt_characters hd hcut hascii, ih,
      Bool.eq_false_iff.mpr hwild, Bool.false_or]
    exact fun h => unescaped hcut ((hascii _ (by decide)).mp h) hescape

end Stepping

/-! ### Brackets and slashes -/

/-- The first component behind the normalization. -/
def leading (text : List Bytes) : List Bytes := firstComponent (normalized text)

theorem firstComponent_cons (h : character ≠ [byteOf '/']) (rest : List Bytes) :
    firstComponent (character :: rest) = character :: firstComponent rest := by
  rw [firstComponent, takeWhile_cons, if_pos (by simpa using h)]
  rfl

theorem firstComponent_slash (rest : List Bytes) : firstComponent ([byteOf '/'] :: rest) = [] := by
  rw [firstComponent, takeWhile_cons, if_neg (by simp)]

theorem normalized_other (h : character = slash → rest = []) :
    normalized (character :: rest) = character :: normalized rest := by
  cases rest with
  | nil => rfl
  | cons next rest => rw [normalized, if_neg fun heq => cons_ne_nil _ _ (h heq)]

@[simp] theorem leading_nil : leading [] = [] := rfl

theorem leading_slash (rest : List Bytes) : leading ([byteOf '/'] :: rest) = [] := by
  rw [leading, normalized_other fun h => absurd h (by decide), firstComponent_slash]

theorem leading_escaped (rest : List Bytes) : leading (slash :: [byteOf '/'] :: rest) = [] := by
  rw [leading, normalized, if_pos rfl, if_pos rfl, firstComponent_slash]

theorem leading_pair {next : Bytes} (h : next ≠ [byteOf '/']) (rest : List Bytes) :
    leading (slash :: next :: rest) = slash :: next :: leading rest := by
  rw [leading, normalized, if_pos rfl, if_neg h, firstComponent_cons (by decide),
    firstComponent_cons h]
  rfl

theorem leading_other (h : character = slash → rest = []) (hslash : character ≠ [byteOf '/']) :
    leading (character :: rest) = character :: leading rest := by
  rw [leading, normalized_other h, firstComponent_cons hslash]
  rfl

/-- What is neither a backslash nor a slash stands at the front of both. -/
theorem head?_leading (h : character ≠ slash) (hslash : character ≠ [byteOf '/'])
    (text : List Bytes) : (leading text).head? = some character ↔ text.head? = some character := by
  cases text with
  | nil => rfl
  | cons first rest =>
    by_cases hfirst : first = [byteOf '/']
    · subst hfirst
      rw [leading_slash]
      simp [Ne.symm hslash]
    by_cases hescape : first = slash → rest = []
    · rw [leading_other hescape hfirst]
      rfl
    · -- a pair keeps its backslash, unless it is before a slash
      rw [Classical.not_imp] at hescape
      obtain ⟨rfl, hne⟩ := hescape
      obtain ⟨next, rest, rfl⟩ := exists_cons_of_ne_nil hne
      by_cases hnext : next = [byteOf '/']
      · subst hnext
        rw [leading_escaped]
        simp [Ne.symm h]
      · rw [leading_pair hnext]
        rfl

theorem tail_leading (h : character ≠ slash) (hslash : character ≠ [byteOf '/'])
    {text : List Bytes} (hhead : text.head? = some character) :
    (leading text).tail = leading text.tail := by
  cases text with
  | nil => rfl
  | cons first rest =>
    obtain rfl := Option.some.inj hhead
    rw [leading_other (fun heq => absurd heq h) hslash]
    rfl

/-- A subexpression ends in the first component or not at all. -/
theorem skipIn_leading (hmark : mark ≠ byteOf '\\')
    (text : List Bytes) : skipIn mark (leading text) = (skipIn mark text).map leading := by
  have hne : ∀ {c : UInt8}, mark ≠ c → [mark] ≠ [c] := fun h heq => h (cons.inj heq).1
  induction hn : text.length using Nat.strong_induction_on generalizing text with
  | h n ih =>
    -- one character that both texts hold
    have hstep : ∀ (character : Bytes) (rest : List Bytes), rest.length < n →
        character ≠ [byteOf '/'] →
        skipIn mark (character :: leading rest) = (skipIn mark (character :: rest)).map leading := by
      intro character rest hlength hcharacter
      have hhead := head?_leading (show [byteOf ']'] ≠ slash by decide) (by decide) rest
      rw [skipIn, skipIn, if_neg hcharacter, if_neg hcharacter]
      by_cases hend : character = [mark] ∧ rest.head? = some [byteOf ']']
      · rw [if_pos ⟨hend.1, hhead.mpr hend.2⟩, if_pos hend,
          tail_leading (by decide) (by decide) hend.2]
        rfl
      · rw [if_neg fun h => hend ⟨h.1, hhead.mp h.2⟩, if_neg hend]
        exact ih _ hlength rest rfl
    match text with
    | [] => rfl
    | [character] =>
      by_cases hfirst : character = [byteOf '/']
      · subst hfirst
        rw [leading_slash]
        rfl
      · rw [leading_other (fun _ => rfl) hfirst]
        exact hstep character [] (by simp [← hn]) hfirst
    | character :: next :: rest =>
      rw [length_cons, length_cons] at hn
      by_cases hfirst : character = [byteOf '/']
      · subst hfirst
        rw [leading_slash]
        rfl
      by_cases hescape : character = slash
      · subst hescape
        have hpass : ∀ others, skipIn mark (slash :: others) = skipIn mark others := fun others => by
          rw [skipIn, if_neg (by decide), if_neg fun h => hne hmark h.1.symm]
        rw [hpass]
        by_cases hnext : next = [byteOf '/']
        · subst hnext
          rw [leading_escaped]
          rfl
        · rw [leading_pair hnext, hpass]
          exact hstep next rest (by omega) hnext
      · rw [leading_other (fun h => absurd h hescape) hfirst]
        exact hstep character (next :: rest) (by rw [length_cons]; omega) hfirst

theorem mark_ne (h : (ascii ":.=").contains byte) :
    byte ≠ byteOf '\\' ∧ byte ≠ byteOf '/' := by
  have hall : ∀ byte ∈ ascii ":.=", byte ≠ byteOf '\\' ∧ byte ≠ byteOf '/' := by decide +kernel
  exact hall byte (contains_iff_mem.mp h)

theorem markOf_eq {character : Option Bytes} (h : markOf character = some mark) :
    character = some [mark] ∧ mark ≠ byteOf '\\' ∧ mark ≠ byteOf '/' := by
  match character, h with
  | some [byte], h =>
    rw [markOf] at h
    split at h
    · next hmark =>
      cases h
      exact ⟨rfl, mark_ne hmark⟩
    · cases h

theorem markOf_leading (text : List Bytes) : markOf (leading text).head? = markOf text.head? := by
  have hiff : ∀ mark, markOf (leading text).head? = some mark ↔ markOf text.head? = some mark := by
    intro mark
    constructor
    · intro h
      obtain ⟨hhead, hbackslash, hslash⟩ := markOf_eq h
      rw [hhead] at h
      rw [head?_leading (by simpa [slash] using hbackslash) (by simpa using hslash)] at hhead
      rw [hhead, h]
    · intro h
      obtain ⟨hhead, hbackslash, hslash⟩ := markOf_eq h
      rw [hhead] at h
      rw [← head?_leading (by simpa [slash] using hbackslash) (by simpa using hslash)] at hhead
      rw [hhead, h]
  exact Option.ext hiff

/-- A bracket expression closes in the first component or not at all. -/
theorem closesIn_leading (text : List Bytes) : closesIn (leading text) = closesIn text := by
  induction hn : text.length using Nat.strong_induction_on generalizing text with
  | h n ih =>
    cases text with
    | nil => rfl
    | cons character rest =>
      rw [length_cons] at hn
      by_cases hslash : character = [byteOf '/']
      · subst hslash
        rw [leading_slash, closesIn, closesIn, if_pos rfl]
      by_cases hescape : character = slash ∧ rest ≠ []
      · obtain ⟨rfl, hne⟩ := hescape
        obtain ⟨next, rest, rfl⟩ := exists_cons_of_ne_nil hne
        rw [length_cons] at hn
        by_cases hnext : next = [byteOf '/']
        · -- the slash behind the backslash ends both texts
          subst hnext
          rw [leading_escaped, closesIn_other hslash (fun h => h.2.2 rfl) (by decide)
            fun h => absurd h (by decide), closesIn, closesIn, if_pos rfl]
        · have hpair : ∀ others, closesIn (slash :: next :: others) = closesIn others := by
            intro others
            rw [closesIn, if_neg hslash, if_pos ⟨rfl, by simp, by simpa using hnext⟩]
            rfl
          rw [leading_pair hnext, hpair, hpair]
          exact ih _ (by omega) rest rfl
      · have hlone : character = slash → rest = [] := fun h => by
          by_contra hne
          exact hescape ⟨h, hne⟩
        rw [leading_other hlone hslash]
        by_cases hend : character = [byteOf ']']
        · subst hend
          rw [closesIn, if_neg (by decide), if_neg fun h => absurd h.1 (by decide), if_pos rfl,
            closesIn, if_neg (by decide), if_neg fun h => absurd h.1 (by decide), if_pos rfl]
        have hlone' : character = slash → leading rest = [] := fun h => by rw [hlone h, leading_nil]
        cases hmark : markOf rest.head? with
        | none =>
          rw [closesIn_other hslash (fun h => h.2.1 (hlone h.1)) hend fun _ => hmark,
            closesIn_other hslash (fun h => h.2.1 (hlone' h.1)) hend
              fun _ => (markOf_leading rest).trans hmark]
          exact ih _ (by omega) rest rfl
        | some mark =>
          by_cases hopen : character = [byteOf '[']
          · subst hopen
            obtain ⟨hhead, hbackslash, hmarkslash⟩ := markOf_eq hmark
            rw [closesIn_subexpression hmark,
              closesIn_subexpression ((markOf_leading rest).trans hmark),
              tail_leading (by simpa [slash] using hbackslash) (by simpa using hmarkslash) hhead,
              skipIn_leading hbackslash]
            cases hskip : skipIn mark rest.tail with
            | none => rfl
            | some others =>
              have hlength := length_skipIn hskip
              rw [length_tail] at hlength
              exact ih _ (by omega) others rfl
          · rw [closesIn_other hslash (fun h => h.2.1 (hlone h.1)) hend fun h => absurd h hopen,
              closesIn_other hslash (fun h => h.2.1 (hlone' h.1)) hend fun h => absurd h hopen]
            exact ih _ (by omega) rest rfl

theorem bracketIn_leading (text : List Bytes) : bracketIn (leading text) = bracketIn text := by
  have hskip : ∀ (character : Bytes), character ≠ slash → character ≠ [byteOf '/'] →
      ∀ text, (if (leading text).head? = some character then (leading text).tail else leading text) =
        leading (if text.head? = some character then text.tail else text) := by
    intro character h hslash text
    by_cases hhead : text.head? = some character
    · rw [if_pos ((head?_leading h hslash text).mpr hhead), if_pos hhead, tail_leading h hslash hhead]
    · rw [if_neg fun h' => hhead ((head?_leading h hslash text).mp h'), if_neg hhead]
  unfold bracketIn
  dsimp only
  rw [hskip _ (by decide) (by decide), hskip _ (by decide) (by decide), closesIn_leading]

/-! ### Some component has a wildcard -/

theorem someWildcard_nil : someWildcard [] = false := by
  rw [someWildcard]
  rfl

theorem someWildcard_slash (rest : List Bytes) :
    someWildcard ([byteOf '/'] :: rest) = someWildcard rest := by
  have hdrop : ([byteOf '/'] :: rest).dropWhile (fun c => decide (c ≠ [byteOf '/'])) =
      [byteOf '/'] :: rest := by
    rw [dropWhile_cons, if_neg (by simp)]
  rw [someWildcard, firstComponent_slash]
  split
  · next h =>
    rw [hdrop] at h
    cases h
  · next h =>
    rw [hdrop, cons.injEq] at h
    rw [h.2]
    rfl

/-- The first component, and what is from its slash on. -/
theorem someWildcard_eq (text : List Bytes) :
    someWildcard text = (wildcardIn (firstComponent text) ||
      someWildcard (text.dropWhile (· ≠ [byteOf '/']))) := by
  conv_lhs => rw [someWildcard]
  split
  · next h => rw [h, someWildcard_nil]
  · next character rest h =>
    obtain rfl : character = [byteOf '/'] := by
      have hhead := head?_dropWhile_not (fun c => decide (c ≠ [byteOf '/'])) text
      rw [h] at hhead
      simpa using hhead
    rw [h, someWildcard_slash]

/-- A character that is no slash belongs to the first component. -/
theorem someWildcard_cons (h : character ≠ [byteOf '/']) (rest : List Bytes) :
    someWildcard (character :: rest) = (wildcardIn (character :: firstComponent rest) ||
      someWildcard (rest.dropWhile (· ≠ [byteOf '/']))) := by
  rw [someWildcard_eq, firstComponent_cons h, dropWhile_cons, if_pos (by simpa using h)]

/-- **The scan of a whole pattern finds what the scans of its normalized components
find.** -/
theorem wildcardIn_eq_someWildcard (text : List Bytes) :
    wildcardIn text = someWildcard (normalized text) := by
  have hother : ∀ (character : Bytes) (rest : List Bytes), (character = slash → rest = []) →
      wildcardIn rest = someWildcard (normalized rest) →
      wildcardIn (character :: rest) = someWildcard (character :: normalized rest) := by
    intro character rest hlone ih
    rw [wildcardIn_other hlone, ih]
    by_cases hslash : character = [byteOf '/']
    · subst hslash
      rw [someWildcard_slash]
      rfl
    · -- the bracket looked for behind the character lies in its component
      have hat : wildcardAt character (leading rest) = wildcardAt character rest := by
        rw [wildcardAt, wildcardAt, bracketIn_leading]
      have hlone' : character = slash → leading rest = [] := fun h => by rw [hlone h, leading_nil]
      rw [someWildcard_cons hslash, ← leading, wildcardIn_other hlone', hat, Bool.or_assoc, leading,
        ← someWildcard_eq]
  fun_induction normalized text with
  | case1 => rw [someWildcard_nil]; rfl
  | case2 character => exact hother character [] (fun _ => rfl) (by rw [normalized, someWildcard_nil]; rfl)
  | case3 rest ih => rw [wildcardIn, if_pos rfl, someWildcard_slash, ih]
  | case4 next rest hnext ih =>
    rw [wildcardIn, if_pos rfl, someWildcard_cons (by decide), firstComponent_cons hnext, wildcardIn,
      if_pos rfl, dropWhile_cons, if_pos (by simpa using hnext), ← someWildcard_eq, ih]
  | case5 character next rest hescape ih =>
    exact hother character (next :: rest) (fun h => absurd h hescape) ih

/-! ### The normalized text and its characters -/

section Normalizing

variable {d : Decoder}

section

variable (hd : d.Stateless)
include hd

/-- A stray byte stays one in front of a text that agrees up to its first slash. -/
theorem characterLength_agreeing (hslash : d.SlashSafe)
    {a b : Bytes} (h : b.takeWhile (· != byteOf '/') <+: a)
    (hone : d.characterLength (byte :: a) true = 1) : d.characterLength (byte :: b) true = 1 := by
  by_cases hlow : byte < 0x80
  · exact if_pos hlow
  rw [Decoder.characterLength_cons_final, if_neg hlow] at hone ⊢
  by_contra hlong
  have hpos := d.characterBytes_pos (byte :: b)
  have hbytes := mbrlen_of_characterBytes (show 1 < d.characterBytes (byte :: b) by omega)
  have hle := d.mbrlen_le hbytes
  obtain ⟨n, hn⟩ := Nat.exists_eq_succ_of_ne_zero hpos.ne'
  rw [hn] at hbytes hle hlong
  -- the longer character would lie before the slash, so in the other text as well
  have hmem := hslash _ _ hbytes (by omega)
  rw [take_succ_cons, mem_cons, not_or] at hmem
  have hfree : b.take n <+: b.takeWhile (· != byteOf '/') := by
    have hall : (b.take n).takeWhile (· != byteOf '/') = b.take n := by
      rw [takeWhile_eq_self_iff]
      intro c hc
      rw [bne_iff_ne]
      rintro rfl
      exact hmem.2 hc
    conv_rhs => rw [← take_append_drop n b]
    rw [takeWhile_append, hall, if_pos rfl]
    exact prefix_append _ _
  obtain ⟨more, hmore⟩ := hfree.trans h
  have hagain := hd.complete hbytes (by omega) more
  rw [take_succ_cons, cons_append, hmore] at hagain
  rw [characterBytes_of_mbrlen hagain (by omega)] at hone
  omega

/-- A character is cut off alike in front of a text that agrees up to its first
slash. -/
theorem characters_agreeing (hslash : d.SlashSafe) {rest b : Bytes}
    (h : b.takeWhile (· != byteOf '/') <+:
      (byte :: rest).drop (d.characterLength (byte :: rest) true)) :
    characters d ((byte :: rest).take (d.characterLength (byte :: rest) true) ++ b) =
      (byte :: rest).take (d.characterLength (byte :: rest) true) :: characters d b := by
  have hwhole := whole_take hd byte rest
  have hle := d.characterLength_final_le (cons_ne_nil byte rest)
  apply characters_append hwhole.ne_nil
  rw [hwhole.length_iff]
  intro first hfirst _
  have hlength : d.characterLength (byte :: rest) true = 1 := by
    have := congrArg length hfirst
    rw [length_take, length_singleton] at this
    omega
  rw [hlength] at hfirst h
  obtain rfl : byte = first := (cons.inj hfirst).1
  exact characterLength_agreeing hd hslash h hlength

theorem pathnamePattern_escape (next : UInt8) (rest : Bytes) :
    pathnamePattern d (byteOf '\\' :: next :: rest) =
      (if next = byteOf '/' then [] else slash) ++
        ((next :: rest).take (d.characterLength (next :: rest) true) ++
          pathnamePattern d ((next :: rest).drop (d.characterLength (next :: rest) true))) := by
  obtain ⟨k, hk⟩ := Nat.exists_eq_succ_of_ne_zero
    (d.characterLength_final_pos (cons_ne_nil next rest)).ne'
  rw [pathnamePattern, copyUnescaping, if_pos (by rfl), patternWidth_eq hd, hk]
  simp [slash, pathnamePattern]

theorem pathnamePattern_other {rest : Bytes} (h : byte = byteOf '\\' → rest = []) :
    pathnamePattern d (byte :: rest) =
      (byte :: rest).take (d.characterLength (byte :: rest) true) ++
        pathnamePattern d ((byte :: rest).drop (d.characterLength (byte :: rest) true)) := by
  obtain ⟨k, hk⟩ := Nat.exists_eq_succ_of_ne_zero
    (d.characterLength_final_pos (cons_ne_nil byte rest)).ne'
  cases rest with
  | nil => simp [pathnamePattern, copyUnescaping, hk]
  | cons next rest =>
    have hne : ¬(byte == byteOf '\\') = true := fun heq => cons_ne_nil _ _ (h (eq_of_beq heq))
    rw [pathnamePattern, copyUnescaping, if_neg hne, patternWidth_eq hd, hk]
    simp [pathnamePattern]

/-- Up to its first slash the pattern is the text. -/
theorem takeWhile_pathnamePattern (text : Bytes) :
    (pathnamePattern d text).takeWhile (· != byteOf '/') <+: text := by
  have happend : ∀ {piece a b : Bytes}, a.takeWhile (· != byteOf '/') <+: b →
      (piece ++ a).takeWhile (· != byteOf '/') <+: piece ++ b := by
    intro piece a b h
    rw [takeWhile_append]
    split
    · exact prefix_append_right_inj piece |>.mpr h
    · exact (List.takeWhile_prefix _).trans (prefix_append _ _)
  induction hn : text.length using Nat.strong_induction_on generalizing text with
  | h n ih =>
    cases text with
    | nil => simp [pathnamePattern, copyUnescaping]
    | cons byte rest =>
      have hcut : ∀ (first : UInt8) (others : Bytes), others.length < n →
          ((first :: others).take (d.characterLength (first :: others) true) ++
            pathnamePattern d ((first :: others).drop
              (d.characterLength (first :: others) true))).takeWhile (· != byteOf '/') <+:
            first :: others := by
        intro first others hlength
        have hpos := d.characterLength_final_pos (cons_ne_nil first others)
        conv_rhs => rw [← take_append_drop (d.characterLength (first :: others) true)
          (first :: others)]
        apply happend
        refine ih _ ?_ _ rfl
        rw [length_drop, length_cons]
        omega
      rw [length_cons] at hn
      by_cases hescape : byte = byteOf '\\' → rest = []
      · rw [pathnamePattern_other hd hescape]
        exact hcut byte rest (by omega)
      · rw [Classical.not_imp] at hescape
        obtain ⟨rfl, hne⟩ := hescape
        obtain ⟨next, rest, rfl⟩ := exists_cons_of_ne_nil hne
        rw [pathnamePattern_escape hd]
        by_cases hnext : next = byteOf '/'
        · subst hnext
          obtain ⟨k, hk⟩ := Nat.exists_eq_succ_of_ne_zero
            (d.characterLength_final_pos (cons_ne_nil (byteOf '/') rest)).ne'
          rw [if_pos rfl, nil_append, hk, take_succ_cons, cons_append,
            takeWhile_cons, if_neg (by simp)]
          exact nil_prefix
        · rw [if_neg hnext]
          rw [length_cons] at hn
          exact happend (hcut next rest (by omega))

/-- **The normalized text is cut at the normalized characters.** -/
theorem characters_pathnamePattern (hslash : d.SlashSafe) (text : Bytes) :
    characters d (pathnamePattern d text) = normalized (characters d text) := by
  induction hn : text.length using Nat.strong_induction_on generalizing text with
  | h n ih =>
    cases text with
    | nil => simp [pathnamePattern, copyUnescaping, normalized]
    | cons byte rest =>
      have hcut : ∀ (first : UInt8) (others : Bytes), others.length < n →
          characters d ((first :: others).take (d.characterLength (first :: others) true) ++
            pathnamePattern d ((first :: others).drop (d.characterLength (first :: others) true))) =
            (first :: others).take (d.characterLength (first :: others) true) ::
              normalized (characters d
                ((first :: others).drop (d.characterLength (first :: others) true))) := by
        intro first others hlength
        have hpos := d.characterLength_final_pos (cons_ne_nil first others)
        rw [characters_agreeing hd hslash (takeWhile_pathnamePattern hd _), ih _ _ _ rfl]
        rw [length_drop, length_cons]
        omega
      rw [length_cons] at hn
      by_cases hescape : byte = byteOf '\\' → rest = []
      · rw [pathnamePattern_other hd hescape, hcut byte rest (by omega), characters_cons,
          normalized_other]
        intro hcharacter
        have hhead : byte = byteOf '\\' := by
          obtain ⟨k, hk⟩ := Nat.exists_eq_succ_of_ne_zero
            (d.characterLength_final_pos (cons_ne_nil byte rest)).ne'
          rw [hk, take_succ_cons] at hcharacter
          exact (cons.inj hcharacter).1
        rw [hescape hhead, drop_of_length_le, characters_nil]
        exact d.characterLength_final_pos (cons_ne_nil byte [])
      · rw [Classical.not_imp] at hescape
        obtain ⟨rfl, hne⟩ := hescape
        obtain ⟨next, rest, rfl⟩ := exists_cons_of_ne_nil hne
        rw [length_cons] at hn
        have hnext : (next :: rest).take (d.characterLength (next :: rest) true) = [byteOf '/'] ↔
            next = byteOf '/' := by
          obtain ⟨character, hcharacters, hascii⟩ := characters_step hd next rest
          rw [characters_cons, cons.injEq] at hcharacters
          rw [hcharacters.1, hascii _ (by decide)]
        rw [pathnamePattern_escape hd, characters_ascii (by decide), characters_cons, normalized,
          if_pos (show [byteOf '\\'] = slash from rfl)]
        by_cases hsame : next = byteOf '/'
        · rw [if_pos hsame, if_pos (hnext.mpr hsame), nil_append]
          exact hcut next rest (by omega)
        · rw [if_neg hsame, if_neg fun h => hsame (hnext.mp h), characters_slash]
          exact congrArg _ (hcut next rest (by omega))

end

/-- A character other than the slash lies before the first slash. -/
theorem slash_notMem_take (hslash : d.SlashSafe) {byte : UInt8} {rest : Bytes}
    (h : byte ≠ byteOf '/') :
    byteOf '/' ∉ (byte :: rest).take (d.characterLength (byte :: rest) true) := by
  by_cases hone : d.characterLength (byte :: rest) true = 1
  · rw [hone]
    simpa using h.symm
  · have hpos := d.characterLength_final_pos (cons_ne_nil byte rest)
    have hlow : ¬byte < 0x80 := fun hlow => hone (if_pos hlow)
    rw [Decoder.characterLength_cons_final, if_neg hlow] at hone hpos ⊢
    exact hslash _ _ (mbrlen_of_characterBytes (by omega)) (by omega)

/-- The first component, on bytes and on characters. -/
theorem firstComponent_characters (hd : d.Stateless) (hslash : d.SlashSafe) (text : Bytes) :
    firstComponent (characters d text) = characters d (text.takeWhile (· != byteOf '/')) ∧
      (characters d text).dropWhile (· ≠ [byteOf '/']) =
        characters d (text.dropWhile (· != byteOf '/')) := by
  induction hn : text.length using Nat.strong_induction_on generalizing text with
  | h n ih =>
    cases text with
    | nil => simp [firstComponent]
    | cons byte rest =>
      by_cases hbyte : byte = byteOf '/'
      · subst hbyte
        rw [characters_ascii (by decide), firstComponent_slash, takeWhile_cons,
          dropWhile_cons, dropWhile_cons, if_neg (by simp), if_neg (by simp),
          if_neg (by simp), characters_nil, characters_ascii (by decide)]
        exact ⟨rfl, rfl⟩
      · have hpos := d.characterLength_final_pos (cons_ne_nil byte rest)
        have hfree := @slash_notMem_take d hslash byte rest hbyte
        have hwhole := (whole_take hd byte rest).ne_nil
        have hchars := characters_cons d byte rest
        obtain ⟨ih₁, ih₂⟩ := ih _ (by rw [length_drop, ← hn, length_cons]; omega)
          ((byte :: rest).drop (d.characterLength (byte :: rest) true)) rfl
        have hagree := characters_agreeing hd hslash
          (b := ((byte :: rest).drop (d.characterLength (byte :: rest) true)).takeWhile
            (· != byteOf '/')) ((List.takeWhile_prefix _).trans (List.takeWhile_prefix _))
        have hsplit := (take_append_drop (d.characterLength (byte :: rest) true)
          (byte :: rest)).symm
        generalize (byte :: rest).take (d.characterLength (byte :: rest) true) = character at *
        generalize (byte :: rest).drop (d.characterLength (byte :: rest) true) = others at *
        have hne : character ≠ [byteOf '/'] := by
          rintro rfl
          exact hfree mem_cons_self
        have hall : ∀ c ∈ character, (c != byteOf '/') = true := by
          intro c hc
          rw [bne_iff_ne]
          rintro rfl
          exact hfree hc
        rw [hchars, hsplit, firstComponent_cons hne, ih₁, dropWhile_cons,
          if_pos (by simpa using hne), ih₂, takeWhile_append_of_pos hall, hagree,
          dropWhile_append_of_pos hall]
        exact ⟨rfl, rfl⟩

/-- Behind the slashes in front of a component. -/
theorem someWildcard_separators (text : Bytes) :
    someWildcard (characters d text) =
      someWildcard (characters d (text.dropWhile (· == byteOf '/'))) := by
  induction text with
  | nil => rfl
  | cons byte rest ih =>
    by_cases hbyte : byte = byteOf '/'
    · subst hbyte
      rw [characters_ascii (by decide), someWildcard_slash, ih, dropWhile_cons, if_pos (by simp)]
    · rw [dropWhile_cons, if_neg (by simpa using hbyte)]

end Normalizing

/-! ### The components -/

theorem length_behind_component {text : Bytes} (h : text ≠ []) :
    ((text.dropWhile (· == byteOf '/')).dropWhile (· != byteOf '/')).length < text.length := by
  obtain ⟨byte, tail, rfl⟩ := exists_cons_of_ne_nil h
  by_cases hb : byte = byteOf '/'
  · have h₁ := (dropWhile_suffix (· != byteOf '/')
      (l := tail.dropWhile (· == byteOf '/'))).length_le
    have h₂ := (dropWhile_suffix (· == byteOf '/') (l := tail)).length_le
    rw [dropWhile_cons, if_pos (by simpa using hb), length_cons]
    omega
  · have h₁ := (dropWhile_suffix (· != byteOf '/') (l := tail)).length_le
    rw [dropWhile_cons, if_neg (by simpa using hb), dropWhile_cons,
      if_pos (by simpa using hb), length_cons]
    omega

/-- The slash-separated components of a text, each with the slashes before it.  The
component behind a trailing slash is empty. -/
def pathComponents (text : Bytes) : List (Bytes × Bytes) :=
  if text = [] then []
  else
    let rest := text.dropWhile (· == byteOf '/')
    (text.takeWhile (· == byteOf '/'), rest.takeWhile (· != byteOf '/')) ::
      pathComponents (rest.dropWhile (· != byteOf '/'))
termination_by text.length
decreasing_by exact length_behind_component (by assumption)

/-- **Where a wildcard is.**  The whole pattern is taken to hold a wildcard if and only
if a component of the normalized pattern holds one. -/
theorem hasPattern_iff_component {d : Decoder} (hd : d.Stateless) (hslash : d.SlashSafe)
    (pattern : Bytes) :
    hasPattern d pattern = true ↔
      ∃ piece ∈ pathComponents (pathnamePattern d pattern), hasPattern d piece.2 = true := by
  have hsome : ∀ text : Bytes, someWildcard (characters d text) =
      (pathComponents text).any fun piece => hasPattern d piece.2 := by
    intro text
    fun_induction pathComponents text with
    | case1 => rw [characters_nil, someWildcard_nil]; rfl
    | case2 text h rest ih =>
      obtain ⟨hfirst, hothers⟩ := firstComponent_characters hd hslash rest
      rw [someWildcard_separators, someWildcard_eq, hfirst, hothers, ih, ← hasPattern_characters hd]
      rfl
  rw [hasPattern_characters hd, wildcardIn_eq_someWildcard, ← characters_pathnamePattern hd hslash,
    hsome, any_eq_true]

end Globbing
end CShell
