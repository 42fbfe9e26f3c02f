import CShell.Expand.Quote
import CShell.Token

/-!
# What the parser reads off a token

Reserved words, descriptor numbers, names and assignments are recognised on unquoted
text only; a continuation between two letters is not seen.  The delimiter of a
here-document is the spelling of its word with the quotes taken away, nothing else
being expanded.

## Main definitions

* `plainText` — the text of a token without quotes and expansions.
* `plainEqual`, `ioNumber`, `assignment`, `nameToken`, `reserved` — the predicates.
* `delimiterSpelling`, `documentLine` — here-documents.

## References

`src/parser.c`.
-/

namespace CShell
namespace Parse

/-- The bytes of a fragment. -/
def fragmentBytes (token : Token) (f : Fragment) : Bytes := token.raw.extract f.begin f.stop

/-- The text of a token of unquoted text and continuations. -/
def plainText (token : Token) : Option Bytes :=
  go token.fragments
where
  go : List Fragment → Option Bytes
    | [] => some []
    | f :: rest =>
      if f.kind = .continuation then go rest
      else if f.kind = .text ∧ f.quote = .none then (go rest).map (fragmentBytes token f ++ ·)
      else none

/-- `plain_equal`. -/
def plainEqual (token : Token) (text : String) : Bool :=
  token.kind == .word && plainText token == some (ascii text)

/-- `io_number`. -/
def ioNumber (token : Token) : Bool :=
  match plainText token with
  | some text => !text.isEmpty && text.all digit
  | none => false

/-- `assignment`: a name and `=`, whatever comes behind. -/
def assignment (token : Token) : Bool :=
  go token.fragments 0
where
  /-- The bytes of one fragment behind `count` others; `none` goes on. -/
  bytes : Bytes → ℕ → ℕ ⊕ Bool
    | [], count => .inl count
    | byte :: rest, count =>
      if byte = byteOf '=' then .inr (count ≠ 0)
      else if nameStart byte || (count ≠ 0 && digit byte) then bytes rest (count + 1)
      else .inr false
  go : List Fragment → ℕ → Bool
    | [], _ => false
    | f :: rest, count =>
      if f.kind = .continuation then go rest count
      else if f.kind = .text ∧ f.quote = .none then
        match bytes (fragmentBytes token f) count with
        | .inl count => go rest count
        | .inr answer => answer
      else false

/-- `valid_name`. -/
def nameToken (token : Token) : Bool :=
  token.kind == .word &&
    match plainText token with
    | some text => validName text
    | none => false

/-- `reserved`. -/
def reserved (token : Token) : Bool :=
  ["if", "then", "else", "elif", "fi", "do", "done", "case", "esac", "while", "until", "for", "in",
    "\x7b", "\x7d", "!"].any (plainEqual token)

/-- `redirection_kind`. -/
def redirectionKind : TokenKind → Bool
  | .less | .great | .dless | .dgreat | .lessAnd | .greatAnd | .lessGreat | .dlessDash | .clobber => true
  | _ => false

/-- `token_position`. -/
def tokenPosition (token : Token) : Position :=
  if token.invocationSource.isSome then token.invocation else token.start

/-! ### Here-documents -/

/-- The rest behind backslash-newline pairs. -/
def skipPairs : Bytes → Bytes
  | a :: b :: rest =>
    if a = byteOf '\\' ∧ b = byteOf '\n' then skipPairs rest else a :: b :: rest
  | text => text

theorem length_skipPairs : ∀ text : Bytes, (skipPairs text).length ≤ text.length
  | [] | [_] => Nat.le_refl _
  | a :: b :: rest => by
    have hrest := length_skipPairs rest
    rw [skipPairs]
    split
    · simp only [List.length_cons]
      omega
    · exact Nat.le_refl _

/-- The text up to the quote that ends `$'…'`, and the rest behind the quote. -/
def dollarQuoted (d : Decoder) (text : Bytes) : Option (Bytes × Bytes) :=
  match text with
  | [] => none
  | byte :: rest =>
    if byte = byteOf '\'' then some ([], rest)
    else
      match rest with
      | [] => none
      | next :: after =>
        if byte = byteOf '\\' then
          let width := d.characterLength (next :: after) true - 1
          (dollarQuoted d (after.drop width)).map fun r => (byte :: next :: after.take width ++ r.1, r.2)
        else
          let width := d.characterLength (byte :: next :: after) true - 1
          (dollarQuoted d ((next :: after).drop width)).map fun r =>
            (byte :: (next :: after).take width ++ r.1, r.2)
termination_by text.length
decreasing_by all_goals simp only [List.length_drop, List.length_cons]; omega

theorem length_dollarQuoted {d : Decoder} {text content rest : Bytes}
    (h : dollarQuoted d text = some (content, rest)) : rest.length < text.length := by
  fun_induction dollarQuoted d text generalizing content rest with
  | case1 => cases h
  | case2 tail =>
    cases h
    simp
  | case3 => cases h
  | case4 next after width _ =>
    rename_i ih
    obtain ⟨r, hr, heq⟩ := Option.map_eq_some_iff.mp h
    cases heq
    have := ih hr
    simp only [List.length_drop, List.length_cons] at this ⊢
    omega
  | case5 byte _ next after _ width =>
    rename_i ih
    obtain ⟨r, hr, heq⟩ := Option.map_eq_some_iff.mp h
    cases heq
    have := ih hr
    simp only [List.length_drop, List.length_cons] at this ⊢
    omega

/-- `delimiter_spelling` inside a quote, 0 for none: the delimiter and whether any of
it was quoted; `none` is a `$'…'` that cannot be decoded. -/
def delimiterSpelling (lexical current : Decoder) (quote : UInt8) (text : Bytes) :
    Option (Bytes × Bool) :=
  match text with
  | [] => some ([], false)
  | byte :: rest =>
    let width := lexical.characterLength (byte :: rest) true
    let copied := fun (bytes : Bytes) (r : Bytes × Bool) => (bytes ++ r.1, r.2)
    let marked := fun (bytes : Bytes) (r : Bytes × Bool) => (bytes ++ r.1, true)
    let plain := (delimiterSpelling lexical current quote rest).map (copied [byte])
    if 1 < width then
      (delimiterSpelling lexical current quote (rest.drop (width - 1))).map
        (copied (byte :: rest.take (width - 1)))
    else if quote = byteOf '\'' then
      if byte = byteOf '\'' then delimiterSpelling lexical current 0 rest else plain
    else if byte = byteOf '\\' ∧ rest ≠ [] then
      match rest with
      | [] => plain
      | next :: after =>
        if next = byteOf '\n' then delimiterSpelling lexical current quote after
        else if quote = 0 || (ascii "$`\\\"").contains next then
          let width := lexical.characterLength (next :: after) true - 1
          (delimiterSpelling lexical current quote (after.drop width)).map
            (marked (next :: after.take width))
        else plain
    else if byte = byteOf '"' then
      (delimiterSpelling lexical current (if quote = byteOf '"' then 0 else byteOf '"') rest).map
        (marked [])
    else if quote = 0 ∧ byte = byteOf '\'' then
      (delimiterSpelling lexical current (byteOf '\'') rest).map (marked [])
    else if quote = 0 ∧ byte = byteOf '$' then
      match _hopening : skipPairs rest with
      | opening :: inner =>
        if opening = byteOf '\'' then
          match _hquoted : dollarQuoted lexical inner with
          | none => plain
          | some (content, after) =>
            match quoteDecode lexical current content with
            | none => none
            | some decoded =>
              (delimiterSpelling lexical current quote after).map (marked decoded)
        else plain
      | [] => plain
    else plain
termination_by text.length
decreasing_by
  all_goals simp only [List.length_drop, List.length_cons]
  all_goals try omega
  have hpairs := length_skipPairs rest
  have hlength := length_dollarQuoted _hquoted
  rw [_hopening, List.length_cons] at hpairs
  omega

/-- The backslashes at the end of a line, counted by characters. -/
def trailingBackslashes (d : Decoder) (text : Bytes) (count : ℕ) : ℕ :=
  match text with
  | [] => count
  | byte :: rest =>
    let width := d.characterLength (byte :: rest) true
    trailingBackslashes d (rest.drop (width - 1))
      (if width = 1 ∧ byte = byteOf '\\' then count + 1 else 0)
termination_by text.length
decreasing_by simp only [List.length_drop, List.length_cons]; omega

/-- The loop of `append_document_line` over the leading tabs: continuations between
them stay unless the delimiter is quoted. -/
def stripTabs (quoted : Bool) : Bytes → Bytes
  | byte :: rest =>
    if byte = byteOf '\t' then stripTabs quoted rest
    else
      match rest with
      | next :: after =>
        if !quoted && byte = byteOf '\\' && next = byteOf '\n' then
          byte :: next :: stripTabs quoted after
        else byte :: rest
      | [] => [byte]
  | [] => []

/-- `append_document_line`: a line as it goes into the body. -/
def documentLine (line : Bytes) (strip quoted : Bool) : Bytes :=
  if strip then stripTabs quoted line else line

end Parse
end CShell
