import CShell.Expand.Splitting
import CShell.Utility.Assign
import Mathlib.Data.List.DropRight

/-!
# `read` splits like the expander

The splitter of `fields.c` and the loop of `read` share no code.  They are compared over
the items of a text: each item keeps the bytes it is read from, so that a place in the
items is a place in the line.  The line of `read` is seen through the same items, and
one operand takes one candidate.

`read` asks `mbrlen` about every character, the expander only about those that do not
begin with an ASCII byte.  In the supported encodings that is the same.  An operand that is
a locale variable may change the encoding while the line is split: the two agree as long as
no assignment before the last does.

## Main definitions

* `textTokens` — items with their bytes.
* `candidateAt` — the place where a candidate field starts.
* `readValues` — what the variables get, in terms of the expander.
* `Steady` — assignments that leave the encoding.

## Main results

* `splitItems_candidate` — a candidate is a field, and the rest is split alike.
* `skipWhite_tokens`, `scanField_tokens`, `skipBlock_tokens` — the three loops of `read`.
* `readBuiltin_splits` — **the variables get the fields of the expander.**
* `readBuiltin_switches` — `read LC_ALL a b` splits in two encodings.

## References

`src/utility.c` (`read_builtin`), `src/fields.c` (`finish_field`).
-/

namespace CShell

open List

/-- ASCII bytes do not start multibyte characters. -/
def Decoder.AsciiStarts (d : Decoder) : Prop :=
  ∀ (byte : UInt8) (rest : Bytes) (n : ℕ), byte < 0x80 → d.mbrlen (byte :: rest) = .bytes n → n ≤ 1

theorem Decoder.AsciiSafe.asciiStarts {d : Decoder} (h : d.AsciiSafe) : d.AsciiStarts := by
  intro byte rest n hbyte hn
  by_contra hlong
  have hmem : byte ∈ (byte :: rest).take n := by
    cases n with
    | zero => omega
    | succ n => simp
  exact h _ n hn (Nat.lt_of_not_le hlong) byte hmem hbyte

variable {byte : UInt8}

theorem Decoder.AsciiStarts.characterBytes_eq {d : Decoder} (h : d.AsciiStarts)
    (hbyte : byte < 0x80) (rest : Bytes) : d.characterBytes (byte :: rest) = 1 := by
  unfold characterBytes
  split
  · next n hn =>
    have hle := h byte rest n hbyte hn
    split <;> omega
  · rfl

/-- The two ways to step over a character agree. -/
theorem Decoder.AsciiStarts.characterLength_eq {d : Decoder} (h : d.AsciiStarts) (byte : UInt8)
    (rest : Bytes) : d.characterLength (byte :: rest) true = d.characterBytes (byte :: rest) := by
  rw [characterLength_cons_final]
  split
  · next hbyte => rw [h.characterBytes_eq hbyte]
  · rfl

namespace Utility

/-! ### Candidates -/

/-- An item with the bytes it is read from. -/
abbrev Token := Item × Bytes

/-- `textItems` with the bytes of each item. -/
def textTokens (d : Decoder) (separators : List Bytes) (text : Bytes) : List Token :=
  match text with
  | [] => []
  | byte :: rest =>
    match separators.find? fun c => c.isPrefixOf (byte :: rest) with
    | some c =>
      (if isIfsWhite c then .white else .hard, c) ::
        textTokens d separators (rest.drop (c.length - 1))
    | none =>
      let width := d.characterLength (byte :: rest) true - 1
      (.data (byte :: rest.take width), byte :: rest.take width) ::
        textTokens d separators (rest.drop width)
termination_by text.length
decreasing_by all_goals simp only [List.length_drop, List.length_cons]; omega

/-- The items of tokens. -/
def itemsOf (tokens : List Token) : List Item := tokens.map Prod.fst

/-- The text of tokens. -/
def textOf (tokens : List Token) : Bytes := tokens.flatMap Prod.snd

theorem itemsOf_textTokens (d : Decoder) (separators : List Bytes) (text : Bytes) :
    itemsOf (textTokens d separators text) = textItems d separators text := by
  fun_induction textTokens d separators text with
  | case1 => rw [textItems]; rfl
  | case2 byte rest c hfind ih =>
    rw [textItems, hfind]
    exact congrArg _ ih
  | case3 byte rest hfind width ih =>
    rw [textItems, hfind]
    exact congrArg _ ih

/-- The token belongs to a candidate. -/
def isField (t : Token) : Bool := t.1.isContent

/-- The token is `IFS` white space. -/
def isBlank (t : Token) : Bool := t.1.isWhite

/-- Behind the white space in front of a candidate. -/
def stripped (tokens : List Token) : List Token := tokens.dropWhile isBlank

/-- Behind a candidate and the block of delimiters that ends it. -/
def afterCandidate (tokens : List Token) : List Token :=
  match tokens.dropWhile isField with
  | [] => []
  | (.hard, _) :: rest => rest
  | _ :: rest =>
    match stripped rest with
    | (.hard, _) :: rest => rest
    | rest => rest

/-- The place where the candidate of a number starts. -/
def candidateAt : ℕ → List Token → List Token
  | 0, tokens => stripped tokens
  | k + 1, tokens => candidateAt k (afterCandidate (stripped tokens))

theorem itemsOf_stripped (tokens : List Token) :
    itemsOf (stripped tokens) = (itemsOf tokens).dropWhile Item.isWhite := by
  induction tokens with
  | nil => rfl
  | cons t tokens ih =>
    obtain ⟨item, bytes⟩ := t
    cases item with
    | white => exact ih
    | data _ => rfl
    | hard => rfl
    | emptyQuoted => rfl

theorem splitItems_stripped (tokens : List Token) :
    splitItems (itemsOf (stripped tokens)) = splitItems (itemsOf tokens) := by
  induction tokens with
  | nil => rfl
  | cons t tokens ih =>
    obtain ⟨item, bytes⟩ := t
    cases item with
    | white =>
      have hsplit := splitItems_white_cons (itemsOf tokens)
      exact ih.trans hsplit.symm
    | data _ => rfl
    | hard => rfl
    | emptyQuoted => rfl

/-- The data of a candidate. -/
def candidateData (tokens : List Token) : Bytes :=
  dataOf (itemsOf (tokens.takeWhile isField))

/-- Tokens as a text without quoted parts has them. -/
def Proper (tokens : List Token) : Prop :=
  ∀ t ∈ tokens, (∃ byte bytes, t.1 = .data (byte :: bytes)) ∨ t.1 = .white ∨ t.1 = .hard

theorem Proper.of_suffix {tokens tokens' : List Token} (h : Proper tokens)
    (hsuffix : tokens' <:+ tokens) : Proper tokens' := fun t ht => h t (hsuffix.subset ht)

theorem stripped_suffix (tokens : List Token) : stripped tokens <:+ tokens := dropWhile_suffix _

theorem afterCandidate_suffix (tokens : List Token) : afterCandidate tokens <:+ tokens := by
  have hsuffix := dropWhile_suffix isField (l := tokens)
  unfold afterCandidate
  split
  · exact nil_suffix
  · next heq => exact (suffix_cons _ _).trans (heq ▸ hsuffix)
  · next first rest _ heq =>
    have hrest : rest <:+ tokens := (suffix_cons _ _).trans (heq ▸ hsuffix)
    split
    · next hblock =>
      exact (suffix_cons _ _).trans ((hblock ▸ stripped_suffix rest).trans hrest)
    · exact (stripped_suffix rest).trans hrest

variable {tokens : List Token}

/-- What is behind a candidate is what the expander goes on with. -/
theorem itemsOf_afterCandidate {first : Token} {rest : List Token}
    (h : tokens.dropWhile isField = first :: rest) :
    itemsOf (afterCandidate tokens) = (delimiterBlock first.1 (itemsOf rest)).2 := by
  obtain ⟨item, bytes⟩ := first
  have hblock : itemsOf (match stripped rest with
      | (.hard, _) :: rest => rest
      | rest => rest) = (restOfBlock (itemsOf rest)).2 := by
    unfold restOfBlock
    rw [← itemsOf_stripped]
    cases stripped rest with
    | nil => rfl
    | cons t rest =>
      obtain ⟨item, bytes⟩ := t
      cases item <;> rfl
  unfold afterCandidate
  rw [h]
  cases item with
  | hard => rfl
  | white => exact hblock
  | data _ => exact hblock
  | emptyQuoted => exact hblock

/-- A candidate is a field, and the rest is split alike. -/
theorem splitItems_candidate {t : Token} (h : Proper (t :: tokens))
    (hwhite : t.1 ≠ .white) :
    splitItems (itemsOf (t :: tokens)) =
      candidateData (t :: tokens) :: splitItems (itemsOf (afterCandidate (t :: tokens))) := by
  have hbody : (itemsOf ((t :: tokens).takeWhile isField)).all Item.isContent := by
    rw [all_eq_true]
    intro item hitem
    obtain ⟨u, hu, rfl⟩ := mem_map.mp hitem
    have hfield : isField u = true := mem_takeWhile_imp hu
    exact hfield
  have hsplit := takeWhile_append_dropWhile (p := isField) (l := t :: tokens)
  -- content at the head is data
  have hdata : t.1.isContent = true → candidateData (t :: tokens) ≠ [] := by
    intro hcontent
    rcases h t mem_cons_self with ⟨byte, bytes, ht⟩ | ht | ht
    · unfold candidateData
      rw [takeWhile_cons_of_pos (by exact hcontent)]
      simp [itemsOf, dataOf, ht, Item.bytes]
    · rw [ht] at hcontent
      cases hcontent
    · rw [ht] at hcontent
      cases hcontent
  cases hrest : (t :: tokens).dropWhile isField with
  | nil =>
    rw [hrest, append_nil] at hsplit
    have hcontent : t.1.isContent = true := by
      have hmem : t ∈ (t :: tokens).takeWhile isField := by
        rw [hsplit]
        exact mem_cons_self
      have hfield : isField t = true := mem_takeWhile_imp hmem
      exact hfield
    have hafter : afterCandidate (t :: tokens) = [] := by
      unfold afterCandidate
      rw [hrest]
    have hkept := splitItems_content hbody
    rw [hsplit, keptField, if_pos (.inl (by rw [← hsplit]; exact hdata hcontent))] at hkept
    rw [hafter, hkept, show itemsOf [] = [] from rfl, splitItems_nil, candidateData, hsplit]
  | cons first rest =>
    rw [hrest] at hsplit
    have hfirst : first.1.isContent = false := by
      have hnot := head_dropWhile_not isField (l := t :: tokens)
        (by rw [hrest]; simp)
      simp only [hrest, head_cons] at hnot
      exact hnot
    have hkept : candidateData (t :: tokens) ≠ [] ∨
        (delimiterBlock first.1 (itemsOf rest)).1 = true := by
      by_cases hcontent : t.1.isContent = true
      · exact .inl (hdata hcontent)
      · rw [dropWhile_cons_of_neg (by exact hcontent)] at hrest
        obtain ⟨rfl, rfl⟩ := cons.inj hrest
        rcases h t mem_cons_self with ⟨byte, bytes, ht⟩ | ht | ht
        · rw [ht] at hcontent
          exact absurd rfl hcontent
        · exact absurd ht hwhite
        · rw [ht]
          exact .inr rfl
    rw [itemsOf_afterCandidate hrest]
    conv_lhs => rw [← hsplit]
    have hitems : itemsOf ((t :: tokens).takeWhile isField ++ first :: rest) =
        itemsOf ((t :: tokens).takeWhile isField) ++ first.1 :: itemsOf rest :=
      map_append
    rw [hitems, splitItems_delimiter hbody hfirst, keptField, if_pos (by tauto)]
    rfl

theorem stripped_head {tokens rest : List Token} {t : Token} (h : stripped tokens = t :: rest) :
    t.1 ≠ .white := by
  have hnot := head_dropWhile_not isBlank (l := tokens)
    (by rw [show dropWhile isBlank tokens = t :: rest from h]; simp)
  intro hwhite
  simp [show dropWhile isBlank tokens = t :: rest from h, isBlank, hwhite, Item.isWhite] at hnot

theorem candidateAt_nil (k : ℕ) : candidateAt k [] = [] := by
  induction k with
  | zero => rfl
  | succ k ih => exact ih

/-- The candidates are the fields, and what starts with a candidate is split into the
fields from there. -/
theorem splitItems_candidateAt (h : Proper tokens) (k : ℕ) :
    (splitItems (itemsOf tokens)).getD k [] = candidateData (candidateAt k tokens) ∧
      splitItems (itemsOf (candidateAt k tokens)) = (splitItems (itemsOf tokens)).drop k := by
  induction k generalizing tokens with
  | zero =>
    refine ⟨?_, splitItems_stripped tokens⟩
    rw [← splitItems_stripped, candidateAt]
    cases hs : stripped tokens with
    | nil => rw [itemsOf, map_nil, splitItems_nil]; rfl
    | cons t rest =>
      rw [splitItems_candidate (h.of_suffix (hs ▸ stripped_suffix tokens)) (stripped_head hs)]
      rfl
  | succ k ih =>
    rw [← splitItems_stripped, candidateAt]
    have hproper := h.of_suffix (stripped_suffix tokens)
    obtain ⟨hfield, hdrop⟩ := ih (hproper.of_suffix (afterCandidate_suffix (stripped tokens)))
    cases hs : stripped tokens with
    | nil =>
      have hnil : afterCandidate ([] : List Token) = [] := rfl
      rw [hnil, candidateAt_nil, itemsOf, map_nil, splitItems_nil]
      exact ⟨rfl, rfl⟩
    | cons t rest =>
      rw [hs] at hproper hfield hdrop
      rw [splitItems_candidate hproper (stripped_head hs), getD_cons_succ, drop_succ_cons]
      exact ⟨hfield, hdrop⟩

/-! ### The line of `read` -/

/-- A text without quoted bytes. -/
def marksOf (text : Bytes) : List Mark := text.map fun byte => ⟨byte, false⟩

@[simp] theorem bytesOf_marksOf (text : Bytes) : bytesOf (marksOf text) = text := by
  simp [bytesOf, marksOf, Function.comp_def]

@[simp] theorem marksOf_cons (byte : UInt8) (text : Bytes) :
    marksOf (byte :: text) = ⟨byte, false⟩ :: marksOf text := rfl

theorem marksOf_bytesOf {line : List Mark} (h : ∀ mark ∈ line, mark.quoted = false) :
    marksOf (bytesOf line) = line := by
  induction line with
  | nil => rfl
  | cons mark line ih =>
    have hmark : (⟨mark.byte, false⟩ : Mark) = mark := by
      rw [← h mark mem_cons_self]
    have hrest := ih fun m hm => h m (mem_cons_of_mem _ hm)
    exact congrArg₂ cons hmark hrest

theorem marksOf_drop (text : Bytes) (n : ℕ) : (marksOf text).drop n = marksOf (text.drop n) := by
  simp [marksOf, map_drop]

theorem marksOf_take (text : Bytes) (n : ℕ) : (marksOf text).take n = marksOf (text.take n) := by
  simp [marksOf, map_take]

@[simp] theorem length_marksOf (text : Bytes) : (marksOf text).length = text.length := by
  simp [marksOf]

variable {d : Decoder} {ifs : Bytes}

theorem ifsCharacters_ne_nil {c : Bytes} (h : c ∈ ifsCharacters d ifs) : c ≠ [] := by
  fun_induction ifsCharacters d ifs with
  | case1 => cases h
  | case2 byte rest width ih =>
    rcases mem_cons.mp h with rfl | h
    · exact cons_ne_nil _ _
    · exact ih h

/-- A separator that begins with an ASCII byte is that byte. -/
theorem ifsCharacters_ascii (hd : d.AsciiStarts) {rest : Bytes}
    (hbyte : byte < 0x80) (h : byte :: rest ∈ ifsCharacters d ifs) : rest = [] := by
  fun_induction ifsCharacters d ifs with
  | case1 => cases h
  | case2 first more width ih =>
    rcases mem_cons.mp h with heq | h
    · obtain ⟨rfl, rfl⟩ := cons.inj heq
      have hwidth : width = 0 := by
        show d.characterBytes (byte :: more) - 1 = 0
        rw [hd.characterBytes_eq hbyte]
      rw [hwidth, take_zero]
    · exact ih h

/-- The separator that stands at the head of a text. -/
def separatorAt (d : Decoder) (ifs text : Bytes) : Option Bytes :=
  (ifsCharacters d ifs).find? fun c => c.isPrefixOf text

theorem separatorAt_spec {text c : Bytes} (h : separatorAt d ifs text = some c) :
    c ∈ ifsCharacters d ifs ∧ c <+: text ∧ c ≠ [] := by
  have hmem := mem_of_find?_eq_some h
  have hprefix := find?_some h
  exact ⟨hmem, isPrefixOf_iff_prefix.mp hprefix, ifsCharacters_ne_nil hmem⟩

/-- `delimiter` on a text without quoted bytes. -/
theorem delimiter_marksOf (text : Bytes) :
    delimiter d ifs (marksOf text) = ((separatorAt d ifs text).map List.length).getD 0 := by
  have hloop : delimiterLoop d ifs (marksOf text) = ((separatorAt d ifs text).map length).getD 0 := by
    unfold separatorAt
    fun_induction delimiterLoop d ifs (marksOf text) with
    | case1 => rw [ifsCharacters]; rfl
    | case2 byte rest n hfound =>
      rw [bytesOf_marksOf, Bool.and_eq_true] at hfound
      rw [ifsCharacters, find?_cons, show _ = true from hfound.1, Option.map_some,
        characterBytes_take]
      rfl
    | case3 byte rest n hmissed ih =>
      have hquoted : ((marksOf text).take n).all (fun m => !m.quoted) = true := by
        rw [marksOf_take, all_eq_true]
        intro mark hmark
        obtain ⟨_, -, rfl⟩ := mem_map.mp hmark
        rfl
      rw [hquoted, Bool.and_true, bytesOf_marksOf] at hmissed
      rw [ifsCharacters, find?_cons, show _ = false from Bool.eq_false_iff.mpr hmissed]
      exact ih
  unfold delimiter
  split
  · next hempty =>
    have htext : text = [] := by simpa [marksOf] using hempty
    subst htext
    cases h : separatorAt d ifs [] with
    | none => rfl
    | some c =>
      obtain ⟨-, hprefix, hne⟩ := separatorAt_spec h
      exact absurd (prefix_nil.mp hprefix) hne
  · exact hloop

theorem delimiter_eq_zero (text : Bytes) :
    delimiter d ifs (marksOf text) = 0 ↔ separatorAt d ifs text = none := by
  rw [delimiter_marksOf]
  cases h : separatorAt d ifs text with
  | none => simp
  | some c =>
    have hne := (separatorAt_spec h).2.2
    simp [hne]

theorem white_lt (h : white byte = true) : byte < 0x80 := by
  revert h
  refine forall_byte (p := fun byte => white byte = true → byte < 0x80) ?_ byte
  decide +kernel

theorem isIfsWhite_singleton (byte : UInt8) : isIfsWhite [byte] = white byte := by
  simp [isIfsWhite, white, ascii, byteOf]

/-- White space at the head of a text is a separator of one byte. -/
theorem white_iff (hd : d.AsciiStarts) (byte : UInt8) (rest : Bytes) :
    (white byte && delimiter d ifs (marksOf (byte :: rest)) != 0) = true ↔
      ∃ c, separatorAt d ifs (byte :: rest) = some c ∧ isIfsWhite c = true ∧ c = [byte] := by
  rw [Bool.and_eq_true, bne_iff_ne, ne_eq, delimiter_eq_zero]
  constructor
  · rintro ⟨hwhite, hfound⟩
    obtain ⟨c, hc⟩ := Option.ne_none_iff_exists'.mp hfound
    obtain ⟨hmem, hprefix, hne⟩ := separatorAt_spec hc
    obtain ⟨first, more, rfl⟩ := exists_cons_of_ne_nil hne
    obtain ⟨rfl, -⟩ := cons_prefix_cons.mp hprefix
    have hmore := ifsCharacters_ascii hd (white_lt hwhite) hmem
    subst hmore
    exact ⟨[first], hc, by rw [isIfsWhite_singleton, hwhite], rfl⟩
  · rintro ⟨c, hc, hwhite, rfl⟩
    rw [isIfsWhite_singleton] at hwhite
    exact ⟨hwhite, by rw [hc]; simp⟩

/-! ### The loops of `read` and the tokens of the line -/

/-- The tokens of a text under an `IFS`. -/
def tokensOf (d : Decoder) (ifs text : Bytes) : List Token := textTokens d (ifsCharacters d ifs) text

theorem tokensOf_nil : tokensOf d ifs [] = [] := by
  rw [tokensOf, textTokens]

theorem tokensOf_separator {rest c : Bytes}
    (h : separatorAt d ifs (byte :: rest) = some c) :
    tokensOf d ifs (byte :: rest) =
      (if isIfsWhite c then .white else .hard, c) :: tokensOf d ifs (rest.drop (c.length - 1)) := by
  unfold separatorAt at h
  rw [tokensOf, textTokens, h]
  rfl

theorem tokensOf_data (hd : d.AsciiStarts) {rest : Bytes}
    (h : separatorAt d ifs (byte :: rest) = none) :
    tokensOf d ifs (byte :: rest) =
      (.data (byte :: rest.take (d.characterBytes (byte :: rest) - 1)),
        byte :: rest.take (d.characterBytes (byte :: rest) - 1)) ::
        tokensOf d ifs (rest.drop (d.characterBytes (byte :: rest) - 1)) := by
  unfold separatorAt at h
  rw [tokensOf, textTokens, h, hd.characterLength_eq]
  rfl

theorem proper_tokensOf (text : Bytes) : Proper (tokensOf d ifs text) := by
  unfold tokensOf
  fun_induction textTokens d (ifsCharacters d ifs) text with
  | case1 => exact fun t ht => (by cases ht)
  | case2 byte rest c hfind ih =>
    intro t ht
    rcases mem_cons.mp ht with rfl | ht
    · right
      dsimp only
      split
      · exact .inl rfl
      · exact .inr rfl
    · exact ih t ht
  | case3 byte rest hfind width ih =>
    intro t ht
    rcases mem_cons.mp ht with rfl | ht
    · exact .inl ⟨byte, _, rfl⟩
    · exact ih t ht

theorem textOf_tokensOf (text : Bytes) : textOf (tokensOf d ifs text) = text := by
  unfold tokensOf
  fun_induction textTokens d (ifsCharacters d ifs) text with
  | case1 => rfl
  | case2 byte rest c hfind ih =>
    obtain ⟨-, hprefix, hne⟩ := separatorAt_spec hfind
    obtain ⟨first, more, rfl⟩ := exists_cons_of_ne_nil hne
    obtain ⟨rfl, tail, htail⟩ := cons_prefix_cons.mp hprefix
    have hrest : rest.drop ((first :: more).length - 1) = tail := by
      rw [length_cons, Nat.add_sub_cancel, ← htail, drop_left]
    show (first :: more) ++ textOf _ = _
    rw [ih, hrest, cons_append, htail]
  | case3 byte rest hfind width ih =>
    show (byte :: rest.take width) ++ textOf _ = _
    rw [ih, cons_append, take_append_drop]

/-- `IFS` white space is skipped as the expander skips it. -/
theorem skipWhite_tokens (hd : d.AsciiStarts) (text : Bytes) :
    ∃ text', skipWhite d ifs (marksOf text) = marksOf text' ∧
      tokensOf d ifs text' = stripped (tokensOf d ifs text) := by
  induction text with
  | nil => exact ⟨[], rfl, by rw [tokensOf_nil]; rfl⟩
  | cons byte rest ih =>
    rw [marksOf_cons, skipWhite, ← marksOf_cons]
    split
    · next hwhite =>
      obtain ⟨c, hc, hifs, rfl⟩ := (white_iff hd byte rest).mp hwhite
      obtain ⟨text', hskip, htokens⟩ := ih
      refine ⟨text', hskip, ?_⟩
      rw [tokensOf_separator hc, if_pos hifs, htokens]
      rfl
    · next hwhite =>
      refine ⟨byte :: rest, rfl, ?_⟩
      cases hc : separatorAt d ifs (byte :: rest) with
      | none =>
        rw [tokensOf_data hd hc]
        rfl
      | some c =>
        rw [tokensOf_separator hc]
        split
        · next hifs =>
          exfalso
          apply hwhite
          refine (white_iff hd byte rest).mpr ⟨c, hc, hifs, ?_⟩
          obtain ⟨-, hprefix, hne⟩ := separatorAt_spec hc
          obtain ⟨first, more, rfl⟩ := exists_cons_of_ne_nil hne
          obtain ⟨rfl, -⟩ := cons_prefix_cons.mp hprefix
          rw [isIfsWhite_cons, Bool.and_eq_true, beq_iff_eq, length_cons] at hifs
          rw [length_eq_zero_iff.mp (Nat.succ.inj hifs.1)]
        · rfl

/-- A field is scanned as far as the expander has a candidate. -/
theorem scanField_tokens (hd : d.AsciiStarts) (text : Bytes) :
    ∃ field rest, scanField d ifs (marksOf text) = (marksOf field, marksOf rest) ∧
      field = candidateData (tokensOf d ifs text) ∧
      tokensOf d ifs rest = (tokensOf d ifs text).dropWhile isField := by
  induction hn : text.length using Nat.strong_induction_on generalizing text with
  | _ n ih =>
    cases text with
    | nil =>
      refine ⟨[], [], ?_, ?_, ?_⟩
      · show scanField d ifs [] = _
        rw [scanField]
        rfl
      · rw [tokensOf_nil]
        rfl
      · rw [tokensOf_nil]
        rfl
    | cons byte rest =>
      rw [marksOf_cons, scanField, ← marksOf_cons]
      split
      · next hfound =>
        have hc := fun h => hfound ((delimiter_eq_zero _).mpr h)
        obtain ⟨c, hc⟩ := Option.ne_none_iff_exists'.mp hc
        refine ⟨[], byte :: rest, rfl, ?_, ?_⟩
        · rw [tokensOf_separator hc]
          split <;> rfl
        · rw [tokensOf_separator hc]
          split <;> rfl
      · next hmissed =>
        have hc := (delimiter_eq_zero _).mp (not_not.mp hmissed)
        rw [bytesOf_marksOf]
        obtain ⟨field, rest', hscan, hfield, htokens⟩ :=
          ih (rest.drop (d.characterBytes (byte :: rest) - 1)).length
            (by rw [← hn, length_drop, length_cons]; omega) _ rfl
        refine ⟨byte :: rest.take (d.characterBytes (byte :: rest) - 1) ++ field, rest', ?_, ?_, ?_⟩
        · simp only [marksOf_drop, hscan, marksOf_take]
          simp [marksOf]
        · rw [tokensOf_data hd hc, hfield]
          rfl
        · rw [tokensOf_data hd hc, htokens]
          rfl

/-- Behind one delimiter that is no white space, if there is one. -/
def afterHard : List Token → List Token
  | (.hard, _) :: rest => rest
  | rest => rest

theorem tokensOf_drop_delimiter (hd : d.AsciiStarts) {text : Bytes}
    (hwhite : ∀ t rest, tokensOf d ifs text = t :: rest → t.1 ≠ .white) :
    tokensOf d ifs (text.drop (delimiter d ifs (marksOf text))) = afterHard (tokensOf d ifs text) := by
  cases text with
  | nil =>
    rw [drop_nil, tokensOf_nil]
    rfl
  | cons byte rest =>
    rw [delimiter_marksOf]
    cases hc : separatorAt d ifs (byte :: rest) with
    | none =>
      rw [tokensOf_data hd hc]
      show tokensOf d ifs (byte :: rest) = _
      rw [tokensOf_data hd hc]
      rfl
    | some c =>
      obtain ⟨first, more, rfl⟩ := exists_cons_of_ne_nil (separatorAt_spec hc).2.2
      have htokens := tokensOf_separator hc
      rw [htokens]
      split at htokens
      · exact absurd rfl (hwhite _ _ htokens)
      · next hifs =>
        rw [if_neg hifs]
        rfl

theorem afterCandidate_white {tokens rest : List Token} {t : Token}
    (h : tokens.dropWhile isField = t :: rest) (ht : t.1 = .white) :
    afterCandidate tokens = afterHard (stripped rest) := by
  obtain ⟨item, bytes⟩ := t
  subst ht
  unfold afterCandidate afterHard
  rw [h]

/-- The block of delimiters behind a field is skipped as the expander skips it. -/
theorem skipBlock_tokens (hd : d.AsciiStarts) {text : Bytes}
    (h : tokensOf d ifs text = tokens.dropWhile isField) :
    ∃ text', (skipWhite d ifs (marksOf text)).drop (delimiter d ifs (skipWhite d ifs (marksOf text))) =
        marksOf text' ∧ tokensOf d ifs text' = afterCandidate tokens := by
  obtain ⟨text₁, hskip, hstripped⟩ := @skipWhite_tokens d ifs hd text
  rw [hskip, marksOf_drop]
  refine ⟨_, rfl, ?_⟩
  rw [tokensOf_drop_delimiter hd (fun t rest ht => stripped_head (hstripped.symm.trans ht)), hstripped, h]
  cases hrest : tokens.dropWhile isField with
  | nil =>
    unfold afterCandidate
    rw [hrest]
    rfl
  | cons t rest =>
    have hfield : isField t = false := by
      have hnot := head_dropWhile_not isField (l := tokens) (by rw [hrest]; simp)
      simpa [hrest] using hnot
    obtain ⟨item, bytes⟩ := t
    cases item with
    | white =>
      rw [afterCandidate_white hrest rfl]
      rfl
    | hard =>
      unfold afterCandidate
      rw [hrest]
      rfl
    | data _ => cases hfield
    | emptyQuoted => cases hfield

/-- `IFS` white space, as a byte. -/
def blank (d : Decoder) (ifs : Bytes) (byte : UInt8) : Bool :=
  white byte && (ifsCharacters d ifs).contains [byte]

theorem blank_eq (hd : d.AsciiStarts) (byte : UInt8) (rest : Bytes) :
    (white byte && delimiter d ifs (marksOf (byte :: rest)) != 0) = blank d ifs byte := by
  rw [Bool.eq_iff_iff, white_iff hd]
  constructor
  · rintro ⟨c, hc, hwhite, rfl⟩
    rw [isIfsWhite_singleton] at hwhite
    simp [blank, hwhite, (separatorAt_spec hc).1]
  · intro hblank
    simp only [blank, Bool.and_eq_true, contains_eq_mem, decide_eq_true_eq] at hblank
    apply (white_iff hd byte rest).mp
    rw [Bool.and_eq_true, bne_iff_ne, ne_eq, delimiter_eq_zero, separatorAt, find?_eq_none]
    refine ⟨hblank.1, fun hnone => ?_⟩
    have hno := hnone [byte] hblank.2
    simp at hno

/-- Trailing `IFS` white space is removed byte by byte. -/
theorem trimEnd_eq (hd : d.AsciiStarts) (text : Bytes) :
    text.take (trimEnd d ifs (marksOf text) text.length) = text.rdropWhile (blank d ifs) := by
  have hloop : ∀ body tail : Bytes, (body ++ tail).take
      (trimEnd d ifs (marksOf (body ++ tail)) body.length) = body.rdropWhile (blank d ifs) := by
    intro body
    induction body using reverseRecOn with
    | nil => exact fun _ => rfl
    | append_singleton body byte ih =>
      intro tail
      have hdrop : (marksOf (body ++ [byte] ++ tail)).drop body.length = marksOf (byte :: tail) := by
        rw [marksOf_drop, append_assoc, drop_left, singleton_append]
      rw [length_append, length_singleton, trimEnd, hdrop, marksOf_cons]
      dsimp only
      rw [← marksOf_cons, blank_eq hd, rdropWhile_concat]
      split
      · rw [append_assoc, singleton_append]
        exact ih (byte :: tail)
      · rw [← length_singleton (a := byte), ← length_append, take_left]
  have hall := hloop text []
  rwa [append_nil] at hall

/-! ### The operands -/

/-- What the last variable gets: the line from its candidate on, without white space at the
end. -/
def lastValue (d : Decoder) (ifs : Bytes) (tokens : List Token) : Bytes :=
  (textOf tokens).rdropWhile (blank d ifs)

/-- What a number of variables get from tokens, one candidate each. -/
def valuesFrom (d : Decoder) (ifs : Bytes) : ℕ → List Token → List Bytes
  | 0, _ => []
  | 1, tokens => [lastValue d ifs (stripped tokens)]
  | n + 2, tokens =>
    candidateData (stripped tokens) :: valuesFrom d ifs (n + 1) (afterCandidate (stripped tokens))

/-- What a number of variables get, in terms of the fields of the expander. -/
def readValues (d : Decoder) (ifs line : Bytes) (fields : List Bytes) (n : ℕ) : List Bytes :=
  (List.range (n - 1)).map (fun i => fields.getD i []) ++
    [lastValue d ifs (candidateAt (n - 1) (tokensOf d ifs line))]

theorem valuesFrom_eq (n : ℕ) (tokens : List Token) :
    valuesFrom d ifs (n + 1) tokens =
      (List.range n).map (fun i => candidateData (candidateAt i tokens)) ++
        [lastValue d ifs (candidateAt n tokens)] := by
  induction n generalizing tokens with
  | zero => rfl
  | succ n ih =>
    rw [valuesFrom, ih, range_succ_eq_map, map_cons, map_map]
    rfl

/-- A variable that takes values, as `read` tests it. -/
def accepts {F : Type} (s : State F) (x : Bytes) : Bool :=
  validName x && Binding.writable (s.binding x)

/-- One assignment after another. -/
def assignAll {F : Type} (s : State F) (pairs : List (Bytes × Bytes)) : State F :=
  pairs.foldl (fun s pair => (s.setVariable pair.1 pair.2).2) s

/-- None of the assignments changes the encoding. -/
def Steady {F : Type} (locales : Locales) (d : Decoder) (s : State F) : List (Bytes × Bytes) → Prop
  | [] => True
  | (name, value) :: pairs =>
    decoderAfter locales name (s.setVariable name value).2 d = d ∧
      Steady locales d (s.setVariable name value).2 pairs

variable {F : Type} {locales : Locales}

/-- Only the locale variables matter. -/
theorem Steady.of_plain {names : List Bytes} (h : ∀ name ∈ names, localeVariable name = false)
    (values : List Bytes) (s : State F) : Steady locales d s (names.zip values) := by
  induction names generalizing values s with
  | nil => trivial
  | cons name names ih =>
    obtain ⟨hname, hnames⟩ := forall_mem_cons.mp h
    cases values with
    | nil => trivial
    | cons value values => exact ⟨if_neg (by simp [hname]), ih hnames values _⟩

/-- An assignment does not change which variables take values. -/
theorem accepts_setVariable (s : State F) (x value y : Bytes) :
    accepts (s.setVariable x value).2 y = accepts s y := by
  unfold accepts
  rw [State.binding_setVariable]
  split
  · congr 1
    cases hb : s.binding y with
    | none =>
      simp only [Binding.assign, Binding.writable, State.readonly_exportOnAssign]
      decide
    | some b =>
      by_cases hro : hasBit b.attributes Attr.readonly = true
      · simp [Binding.assign, Binding.writable, hro]
      · simp [Binding.assign, Binding.writable, hro, State.readonly_exportOnAssign]
  · rfl

/-- What `read` does with an operand that takes no value. -/
theorem readOperands_refused {s : State F} {name : Bytes} (h : accepts s name = false)
    (line : List Mark) (status : ℤ) (names : List Bytes) :
    (readOperands locales d ifs s line status (name :: names)).status = 2 ∧
      (readOperands locales d ifs s line status (name :: names)).state = s := by
  unfold readOperands
  by_cases hname : validName name = true
  · have hwritable : Binding.writable (s.binding name) = false := by
      simpa [accepts, hname] using h
    unfold State.binding at hwritable
    simp only [State.getVariable, hname, Bool.not_true, Bool.false_eq_true, if_false]
    cases hfind : State.findVariable s.vars name with
    | none =>
      rw [hfind] at hwritable
      cases hwritable
    | some v =>
      rw [hfind, Option.map_some, Binding.writable, Bool.not_eq_false'] at hwritable
      simp [hwritable]
  · simp [State.getVariable, hname]

/-- What the next operand gets. -/
def nextValue (d : Decoder) (ifs : Bytes) (line : List Mark) (last : Bool) : Bytes :=
  let text := skipWhite d ifs line
  bytesOf (if last then text.take (trimEnd d ifs text text.length) else (scanField d ifs text).1)

/-- What `read` does with an operand that takes its value. -/
theorem readOperands_accepted {s : State F} {name : Bytes} (h : accepts s name = true)
    (line : List Mark) (status : ℤ) (names : List Bytes) :
    readOperands locales d ifs s line status (name :: names) =
      readOperands locales
        (decoderAfter locales name (s.setVariable name (nextValue d ifs line names.isEmpty)).2 d) ifs
        (s.setVariable name (nextValue d ifs line names.isEmpty)).2
        ((skipWhite d ifs (scanField d ifs (skipWhite d ifs line)).2).drop
          (delimiter d ifs (skipWhite d ifs (scanField d ifs (skipWhite d ifs line)).2)))
        status names := by
  obtain ⟨hname, hwritable⟩ := Bool.and_eq_true_iff.mp h
  have hset := State.setVariable_writable hname hwritable
  rw [readOperands]
  have hget : (s.getVariable name).1 = .ok ∧
      hasBit (s.getVariable name).2.attributes Attr.readonly = false := by
    unfold State.binding at hwritable
    simp only [State.getVariable, hname, Bool.not_true, Bool.false_eq_true, if_false]
    cases hfind : State.findVariable s.vars name with
    | none => exact ⟨rfl, by decide⟩
    | some v =>
      rw [hfind, Option.map_some, Binding.writable, Bool.not_eq_true'] at hwritable
      exact ⟨rfl, hwritable⟩
  obtain ⟨hok, hplain⟩ := hget
  rcases hview : s.getVariable name with ⟨result, view⟩
  rw [hview] at hok hplain
  dsimp only at hok hplain ⊢
  subst hok
  rw [if_neg (by simp), if_neg (by simp [hplain])]
  simp only [assign, hset, nextValue]

/-- The operands get their values, up to the first that takes none. -/
theorem readOperands_eq (hd : d.AsciiStarts) (names : List Bytes) (s : State F) (line : Bytes)
    (status : ℤ)
    (hsteady : Steady locales d s
      ((names.dropLast.takeWhile (accepts s)).zip (valuesFrom d ifs names.length (tokensOf d ifs line)))) :
    (readOperands locales d ifs s (marksOf line) status names).state =
        assignAll s ((names.takeWhile (accepts s)).zip (valuesFrom d ifs names.length (tokensOf d ifs line))) ∧
      (readOperands locales d ifs s (marksOf line) status names).status =
        if names.all (accepts s) then status else 2 := by
  induction names generalizing s line with
  | nil => exact ⟨rfl, rfl⟩
  | cons name names ih =>
    cases haccept : accepts s name with
    | false =>
      obtain ⟨hstatus, hstate⟩ :=
        @readOperands_refused d ifs _ locales s name haccept (marksOf line) status names
      rw [hstate, hstatus, takeWhile_cons, haccept]
      simp [haccept, assignAll]
    | true =>
      rw [readOperands_accepted haccept, nextValue]
      obtain ⟨text, hskip, htext⟩ := @skipWhite_tokens d ifs hd line
      obtain ⟨field, rest, hscan, hfield, hrest⟩ := @scanField_tokens d ifs hd text
      obtain ⟨text', hblock, htext'⟩ := skipBlock_tokens hd hrest
      rw [hskip, hscan]
      dsimp only
      rw [hblock]
      have hsame : ∀ value, accepts (s.setVariable name value).2 = accepts s :=
        fun value => funext fun y => accepts_setVariable s name value y
      cases names with
      | nil =>
        have hvalue : bytesOf ((marksOf text).take (trimEnd d ifs (marksOf text) (marksOf text).length)) =
            lastValue d ifs (stripped (tokensOf d ifs line)) := by
          rw [marksOf_take, bytesOf_marksOf, length_marksOf, trimEnd_eq hd, lastValue, ← htext,
            textOf_tokensOf]
        rw [isEmpty_nil, if_pos rfl, hvalue]
        simp [readOperands, haccept, assignAll, valuesFrom]
      | cons next names =>
        rw [dropLast_cons_of_ne_nil (cons_ne_nil _ _),
          takeWhile_cons_of_pos haccept, length_cons, length_cons, valuesFrom,
          ← htext, ← hfield, ← htext'] at hsteady
        -- the encoding is the same for the operands that follow
        obtain ⟨hkeeps, hsteady⟩ := hsteady
        rw [← hsame field, ← length_cons] at hsteady
        obtain ⟨hstate, hstatus⟩ := ih (s.setVariable name field).2 text' hsteady
        rw [hsame] at hstate hstatus
        rw [isEmpty_cons, if_neg (by simp), bytesOf_marksOf, hkeeps, hstate, hstatus, htext', htext,
          hfield, htext]
        have hall : (name :: next :: names).all (accepts s) = (next :: names).all (accepts s) := by
          rw [all_cons, haccept, Bool.true_and]
        rw [takeWhile_cons_of_pos haccept, hall]
        exact ⟨rfl, rfl⟩

/-! ### The line -/

/-- What is left on the input is an end of it. -/
theorem readLine_rest (o : ReadOptions) (fails : Bool) (prompt : List Bytes) (input : Bytes)
    (escaped : Bool) (pending : Bytes) :
    (readLine d o fails prompt input escaped pending).rest <:+ input := by
  induction input generalizing escaped pending with
  | nil =>
    unfold readLine
    split <;> exact suffix_rfl
  | cons byte input ih =>
    have hlater : ∀ escaped pending,
        (readLine d o fails prompt input escaped pending).rest <:+ byte :: input :=
      fun escaped pending => (ih escaped pending).trans (suffix_cons _ _)
    unfold readLine
    split
    · exact suffix_cons _ _
    · split
      · exact hlater _ _
      · split
        · exact hlater _ _
        · split
          · exact hlater _ _
          · exact hlater _ _

/-- A line that was read without a backslash, or with `-r`, has no quoted byte, and never
a NUL. -/
theorem readLine_plain (o : ReadOptions) (fails : Bool) (prompt : List Bytes) (input : Bytes)
    (pending : Bytes)
    (h : o.raw = true ∨ byteOf '\\' ∉
      input.take (input.length - (readLine d o fails prompt input false pending).rest.length)) :
    ∀ mark ∈ (readLine d o fails prompt input false pending).line,
      mark.quoted = false ∧ mark.byte ≠ 0 := by
  induction input generalizing pending with
  | nil =>
    unfold readLine
    split <;> exact fun mark hmark => (by cases hmark)
  | cons byte input ih =>
    -- a byte that is read on from is consumed
    have hconsumed : ∀ rest, rest <:+ input →
        (readLine d o fails prompt (byte :: input) false pending).rest = rest →
        o.raw = true ∨ byte ≠ byteOf '\\' ∧
          byteOf '\\' ∉ input.take (input.length - rest.length) := by
      intro rest hsuffix hrest
      rcases h with h | h
      · exact .inl h
      · have hle := hsuffix.length_le
        rw [hrest, length_cons, Nat.succ_sub hle, take_succ_cons, mem_cons, not_or] at h
        exact .inr ⟨fun he => h.1 he.symm, h.2⟩
    have hlater : ∀ pending',
        (readLine d o fails prompt (byte :: input) false pending).rest =
          (readLine d o fails prompt input false pending').rest →
        ∀ mark ∈ (readLine d o fails prompt input false pending').line,
          mark.quoted = false ∧ mark.byte ≠ 0 := fun pending' hrest =>
      ih pending' ((hconsumed _ (readLine_rest o fails prompt input false pending') hrest).imp_right
        fun hc => hc.2)
    by_cases hdelim : pending = [] ∧ !false ∧ byte = o.delim
    · rw [readLine, if_pos hdelim]
      exact fun mark hmark => (by cases hmark)
    by_cases hescape : pending = [] ∧ !o.raw ∧ !false ∧ byte = byteOf '\\'
    · have hrest : (readLine d o fails prompt (byte :: input) false pending).rest =
          (readLine d o fails prompt input true pending).rest := by
        rw [readLine, if_neg hdelim, if_pos hescape]
      rcases hconsumed _ (readLine_rest o fails prompt input true pending) hrest with hraw | ⟨hne, -⟩
      · rw [hraw] at hescape
        exact absurd hescape.2.1 (by simp)
      · exact absurd hescape.2.2.2 hne
    have hnewline : ¬(pending = [] ∧ false = true ∧ byte = byteOf '\n') := fun hc => (by cases hc.2.1)
    by_cases hzero : byte = 0
    · have hread : readLine d o fails prompt (byte :: input) false pending =
          readLine d o fails prompt input false pending := by
        rw [readLine, if_neg hdelim, if_neg hescape, if_neg hnewline, if_pos hzero]
      rw [hread]
      exact hlater pending (by rw [hread])
    · obtain ⟨pending', hread⟩ : ∃ pending', readLine d o fails prompt (byte :: input) false pending =
          { readLine d o fails prompt input false pending' with
            line := ⟨byte, false⟩ :: (readLine d o fails prompt input false pending').line } := by
        refine ⟨if d.mbrlen (pending ++ [byte]) = .incomplete then pending ++ [byte] else [], ?_⟩
        rw [readLine, if_neg hdelim, if_neg hescape, if_neg hnewline, if_neg hzero]
        simp only [ite_self]
      intro mark hmark
      rw [hread] at hmark
      rcases mem_cons.mp hmark with rfl | hmark
      · exact ⟨rfl, hzero⟩
      · exact hlater pending' (by rw [hread]) mark hmark

/-! ### `read` -/

/-- The span that holds the line, as an unquoted parameter expansion has it. -/
def lineSpan (line : Bytes) : Span := ⟨line, .none, .parameter, true, false⟩

theorem itemsOf_lineSpan (line : Bytes) :
    itemsOf (tokensOf d ifs line) = fieldItems d (ifsCharacters d ifs) [lineSpan line] := by
  rw [tokensOf, itemsOf_textTokens, fieldItems, flatMap_singleton, spanItems]
  cases line with
  | nil =>
    rw [textItems]
    rfl
  | cons byte line => rfl

/-- What the operands get of a line without quoted bytes. -/
theorem readOperands_splits {env : ExpandEnv} (hd : env.current.AsciiStarts) (s : State F)
    {line : Bytes} (hnul : NulFree line) (status : ℤ) (name : Bytes) (names : List Bytes)
    {expander : State F} (hifs : ifsOf expander = ifsOf s)
    (hnoglob : hasBit expander.info.options Opt.noglob = true)
    (hsteady : ∀ fields, expandFields env expander ⟨[[lineSpan line]], .argument⟩ = (.ok, ⟨fields, []⟩, {}) →
      Steady locales env.current s (((name :: names).dropLast.takeWhile (accepts s)).zip
        (readValues env.current (ifsOf s) line fields (name :: names).length))) :
    ∃ fields, expandFields env expander ⟨[[lineSpan line]], .argument⟩ = (.ok, ⟨fields, []⟩, {}) ∧
      (readOperands locales env.current (ifsOf s) s (marksOf line) status (name :: names)).state =
        assignAll s (((name :: names).takeWhile (accepts s)).zip
          (readValues env.current (ifsOf s) line fields (name :: names).length)) ∧
      (readOperands locales env.current (ifsOf s) s (marksOf line) status (name :: names)).status =
        (if (name :: names).all (accepts s) then status else 2) ∧
      splitItems (itemsOf (candidateAt ((name :: names).length - 1)
        (tokensOf env.current (ifsOf s) line))) = fields.drop ((name :: names).length - 1) := by
  have hcandidates := splitItems_candidateAt (@proper_tokensOf env.current (ifsOf s) line)
  have hvalid : ∀ field ∈ [[lineSpan line]], ∀ span ∈ field, span.wellFormed = true := by
    intro field hfield span hspan
    rw [mem_singleton] at hfield
    subst hfield
    rw [mem_singleton] at hspan
    subst hspan
    have hzero : (0 : UInt8) ∉ line := hnul
    simpa [Span.wellFormed, lineSpan] using hzero
  have hfields := @finishFields_eq env (ifsOf s) expander.info.options hnoglob [[lineSpan line]] hvalid {}
  have hexpand : expandFields env expander ⟨[[lineSpan line]], .argument⟩ =
      (.ok, ⟨splitItems (itemsOf (tokensOf env.current (ifsOf s) line)), []⟩, {}) := by
    rw [itemsOf_lineSpan]
    unfold expandFields
    rw [hifs, hfields, flatMap_singleton]
    rfl
  have hvalues : valuesFrom env.current (ifsOf s) (name :: names).length
        (tokensOf env.current (ifsOf s) line) =
      readValues env.current (ifsOf s) line
        (splitItems (itemsOf (tokensOf env.current (ifsOf s) line))) (name :: names).length := by
    rw [length_cons, valuesFrom_eq, readValues, Nat.add_sub_cancel]
    have hmap : (fun i => candidateData (candidateAt i (tokensOf env.current (ifsOf s) line))) =
        fun i => (splitItems (itemsOf (tokensOf env.current (ifsOf s) line))).getD i [] :=
      funext fun i => (hcandidates i).1.symm
    rw [hmap]
  obtain ⟨hstate, hstatus⟩ := readOperands_eq hd (name :: names) s line status
    (hvalues ▸ hsteady _ hexpand)
  rw [hvalues] at hstate
  exact ⟨_, hexpand, hstate, hstatus, (hcandidates _).2⟩

/-- What `read` assigns, in terms of the fields that `csh_expand_fields` makes of the line
in the state `expander`: to every variable but the last a field, or the empty string when
there are too few of them; to the last one the line from where its candidate starts, without
`IFS` white space at the end.  What starts there is split into the fields that are left, and
the first variable that takes no value stops the assignments. -/
structure ReadsFields (locales : Locales) (env : ExpandEnv) (s : State F) (input : Input) (words names : List Bytes)
    (o : ReadOptions) (expander : State F) (fields : List Bytes) : Prop where
  expanded : expandFields env expander
    ⟨[[lineSpan (bytesOf (readInput env.current s input o).line)]], .argument⟩ = (.ok, ⟨fields, []⟩, {})
  state : (readBuiltin locales env.current s input words).1.state = assignAll s
    ((names.takeWhile (accepts s)).zip (readValues env.current (ifsOf s)
      (bytesOf (readInput env.current s input o).line) fields names.length))
  status : (readBuiltin locales env.current s input words).1.status =
    if names.all (accepts s) then (readInput env.current s input o).status else 2
  candidate : splitItems (itemsOf (candidateAt (names.length - 1) (tokensOf env.current (ifsOf s)
    (bytesOf (readInput env.current s input o).line)))) = fields.drop (names.length - 1)

/-- **`read` splits like the expander** under the same `IFS` and without pathname
expansion, where the line was read without a backslash or with `-r`, and no assignment to a
variable but the last changes the encoding. -/
theorem readBuiltin_splits (locales : Locales) (env : ExpandEnv) (hd : env.current.AsciiStarts) (s : State F)
    (input : Input) (words names : List Bytes) (o : ReadOptions)
    (hwords : readOptions words {} = .ok (o, names)) (hnames : names ≠ [])
    (hread : (readInput env.current s input o).status ≤ 1)
    (hplain : o.raw = true ∨ byteOf '\\' ∉
      input.bytes.take (input.bytes.length - (readInput env.current s input o).rest.length))
    (expander : State F) (hifs : ifsOf expander = ifsOf s)
    (hnoglob : hasBit expander.info.options Opt.noglob = true)
    (hsteady : ∀ fields, expandFields env expander
        ⟨[[lineSpan (bytesOf (readInput env.current s input o).line)]], .argument⟩ =
          (.ok, ⟨fields, []⟩, {}) →
      Steady locales env.current s ((names.dropLast.takeWhile (accepts s)).zip
        (readValues env.current (ifsOf s) (bytesOf (readInput env.current s input o).line) fields
          names.length))) :
    ∃ fields, ReadsFields locales env s input words names o expander fields := by
  obtain ⟨name, more, rfl⟩ := exists_cons_of_ne_nil hnames
  have hmarks := readLine_plain o input.fails _ input.bytes [] hplain
  have hline : marksOf (bytesOf (readInput env.current s input o).line) =
      (readInput env.current s input o).line := marksOf_bytesOf fun mark hmark => (hmarks mark hmark).1
  have hnul : NulFree (bytesOf (readInput env.current s input o).line) := by
    intro hzero
    obtain ⟨mark, hmark, hbyte⟩ := mem_map.mp hzero
    exact (hmarks mark hmark).2 hbyte
  have hbuiltin : (readBuiltin locales env.current s input words).1.state =
        (readOperands locales env.current (ifsOf s) s (readInput env.current s input o).line
          (readInput env.current s input o).status (name :: more)).state ∧
      (readBuiltin locales env.current s input words).1.status =
        (readOperands locales env.current (ifsOf s) s (readInput env.current s input o).line
          (readInput env.current s input o).status (name :: more)).status := by
    unfold readBuiltin
    rw [hwords]
    simp only [hread, if_true]
    exact ⟨rfl, rfl⟩
  obtain ⟨fields, hexpand, hstate, hstatus, hdrop⟩ := readOperands_splits hd s hnul
    (readInput env.current s input o).status name more hifs hnoglob hsteady
  rw [hline] at hstate hstatus
  exact ⟨fields, hexpand, hbuiltin.1.trans hstate, hbuiltin.2.trans hstatus, hdrop⟩

/-- A shell with `IFS` a space and a colon, that does not glob. -/
def colonShell : State ℕ :=
  { vars := [⟨ascii "IFS", some (ascii " :"), 0⟩], info := { options := Opt.noglob } }

/-- An encoding with one character of two bytes. -/
def accentLength : Bytes → Mbrlen
  | 0xC3 :: 0xA9 :: _ => .bytes 2
  | [0xC3] => .incomplete
  | [] => .incomplete
  | _ => .bytes 1

theorem accentLength_le {text : Bytes} {n : ℕ} (h : accentLength text = .bytes n) :
    n ≤ text.length := by
  unfold accentLength at h
  split at h
  · cases h
    simp
  · cases h
  · cases h
  · next text _ _ hne =>
    cases h
    exact length_pos_iff.mpr hne

/-- The locale of that encoding. -/
def accent : Decoder where
  mbrlen := accentLength
  mbCurMax := 2
  btowc byte := byte.toNat < 128
  mbrlen_le := accentLength_le
  mbCurMax_pos := Nat.two_pos

/-- A system with that locale and `C`. -/
def accents : Locales where
  known _ name := name == ascii "C" || name == ascii "accents"
  decoder name := if name == ascii "C" then .posix else accent

/-- The line `a : b c` for two variables. -/
theorem readBuiltin_splits_colon :
    ∃ fields, ReadsFields accents .bare colonShell ⟨ascii " a : b c \n", false, false⟩
      [ascii "x", ascii "y"] [ascii "x", ascii "y"] {} colonShell fields :=
  readBuiltin_splits accents .bare Decoder.posix_asciiSafe.asciiStarts colonShell _ _ _ {}
    (by decide +kernel) (by decide) (by decide +kernel) (.inr (by decide +kernel)) colonShell rfl
    (by decide) fun _ _ => Steady.of_plain (by decide +kernel) _ _

/-- A shell in the locale `accents`, with the character of two bytes as its `IFS`. -/
def accentShell : State ℕ :=
  { managesLocale := true,
    vars := [⟨ascii "LANG", some (ascii "accents"), 0⟩, ⟨ascii "IFS", some [0xC3, 0xA9], 0⟩],
    info := { options := Opt.noglob } }

/-- `read LC_ALL a b` of a line of three fields: the value of `LC_ALL` is `C`, and the
separator behind the second field is then two. -/
theorem readBuiltin_switches :
    let line := ascii "C" ++ [0xC3, 0xA9] ++ ascii "x" ++ [0xC3, 0xA9] ++ ascii "y"
    let names := [ascii "LC_ALL", ascii "a", ascii "b"]
    let env := { ExpandEnv.bare with current := accent }
    let reply := (readBuiltin accents accent accentShell ⟨line ++ ascii "\n", false, false⟩ names).1
    refreshLocale accents accentShell .posix = accent ∧
      expandFields env accentShell ⟨[[lineSpan line]], .argument⟩ =
        (.ok, ⟨[ascii "C", ascii "x", ascii "y"], []⟩, {}) ∧
      readValues accent (ifsOf accentShell) line [ascii "C", ascii "x", ascii "y"] 3 =
        [ascii "C", ascii "x", ascii "y"] ∧
      reply.status = 0 ∧ (reply.state.getVariable (ascii "a")).2.value = some (ascii "x") ∧
      (reply.state.getVariable (ascii "b")).2.value = some ([0xA9] ++ ascii "y") :=
  ⟨rfl, by decide +kernel⟩

end Utility
end CShell
