import CShell.Expand.Fields
import CShell.Arithmetic.Model

/-!
# The utilities `getopts` and `read`

Both report through variables.  `getopts` keeps its place in the variable `OPTIND` and in
an offset into the current argument that the state hides; `read` splits a line by a loop
of its own, in which an assignment to a locale variable changes the encoding.

What is written to the standard error is part of the reply, since a reader of the source
will look for it there.

## Main definitions

* `refreshLocale` — the encoding after the locale of the process follows the variables.
* `getoptsBuiltin` — one call of `getopts`.
* `readLine`, `readOperands`, `readBuiltin` — one call of `read`.

## References

`src/utility.c`, `src/state.c` (`csh_state_refresh_locale`).
-/

namespace CShell
namespace Utility

variable {F : Type}

/-- What a utility leaves behind: its status, the state, and its diagnostics. -/
structure Reply (F : Type) where
  status : ℤ
  state : State F
  diagnostics : List Bytes := []

/-- What `problem` writes. -/
def problem (name message : Bytes) : Bytes :=
  ascii "cshell: " ++ name ++ ascii ": " ++ message ++ ascii "\n"

/-- `assign`: set or unset a variable; a diagnostic is a failure. -/
def assign (s : State F) (name : Bytes) (value : Option Bytes) : Option Bytes × State F :=
  let r := match value with
    | some value => s.setVariable name value
    | none => s.unsetVariable name
  match r.1 with
  | .ok => (none, r.2)
  | .readonly => (some (problem name (ascii "readonly variable")), r.2)
  | .nomem => (some (problem name (ascii "out of memory")), r.2)
  | .invalid => (some (problem name (ascii "invalid variable name")), r.2)

/-! ### The locale -/

/-- The locales of the system: which names `setlocale` takes for a category, and the
encoding that comes with a name. -/
structure Locales where
  known : Bytes → Bytes → Bool
  decoder : Bytes → Decoder

/-- `locale_categories`. -/
def localeCategories : List Bytes :=
  [ascii "LC_CTYPE", ascii "LC_COLLATE", ascii "LC_MESSAGES", ascii "LC_MONETARY",
    ascii "LC_NUMERIC", ascii "LC_TIME"]

/-- `locale_variable`. -/
def localeVariable (name : Bytes) : Bool :=
  name == ascii "LANG" || name == ascii "LC_ALL" || localeCategories.contains name

/-- `locale_value`: an empty value is none. -/
def localeValue (s : State F) (name : Bytes) : Option Bytes :=
  match State.findVariable s.vars name with
  | some v => v.value.filter (!·.isEmpty)
  | none => none

/-- The locale that the variables name for a category. -/
def localeName (s : State F) (category : Bytes) : Bytes :=
  ((localeValue s (ascii "LC_ALL")).or (localeValue s category)).getD
    ((localeValue s (ascii "LANG")).getD (ascii "C"))

/-- `csh_state_refresh_locale`, of which the encoding is seen: one category without a
locale puts all of them back to `C`. -/
def refreshLocale (locales : Locales) (s : State F) (d : Decoder) : Decoder :=
  if !s.managesLocale then d
  else if localeCategories.all fun category => locales.known category (localeName s category) then
    locales.decoder (localeName s (ascii "LC_CTYPE"))
  else locales.decoder (ascii "C")

/-- The encoding after an assignment to a variable, in the state that it left. -/
def decoderAfter (locales : Locales) (name : Bytes) (s : State F) (d : Decoder) : Decoder :=
  if localeVariable name then refreshLocale locales s d else d

/-! ### `getopts` -/

/-- `strtoumax` in base 10 on a whole text; `none` is a text with something else in it, or
a number out of range. -/
def strtoumax (text : Bytes) : Option ℕ :=
  let text := text.dropWhile Arithmetic.space
  let negative := text.head? == some (byteOf '-')
  let digits := if negative || text.head? == some (byteOf '+') then text.tail else text
  if digits.isEmpty || !digits.all digit then none
  else
    let value := digits.foldl (fun n byte => n * 10 + (byte.toNat - '0'.toNat)) 0
    if 2 ^ 64 ≤ value then none
    else some (if negative then (2 ^ 64 - value) % 2 ^ 64 else value)

/-- The index `OPTIND` holds; an unset `OPTIND` is one. -/
def optind (s : State F) : Option ℕ :=
  match (s.getVariable (ascii "OPTIND")).2.value with
  | none => some 1
  | some text =>
    if text.isEmpty || text.head? == some (byteOf '-') then none
    else
      match strtoumax text with
      | some n => if n = 0 then none else some n
      | none => none

/-- `option_argument`: the arguments are the operands of `getopts`, or the positional
parameters when there are none. -/
def optionArgument (s : State F) (explicit : List Bytes) (index : ℕ) : Option Bytes :=
  if explicit.isEmpty then s.parameter index else explicit[index - 1]?

/-- What one call finds out before it publishes: the new position, the option, its argument,
and whether the arguments are at their end. -/
structure Found where
  index : ℕ
  offset : ℕ
  output : Bytes := [byteOf '?']
  value : Option Bytes := none
  ended : Bool := false
  diagnostics : List Bytes := []
  deriving DecidableEq, Repr

/-- The diagnostic of `getopts` about an option. -/
def complaint (message : Bytes) (bad : UInt8) : Bytes :=
  ascii "cshell: getopts: " ++ message ++ ascii " -- " ++ [bad] ++ ascii "\n"

/-- The option at an offset of the current argument. -/
def optionAt (argument : ℕ → Option Bytes) (spec : Bytes) (index : ℕ) (arg : Bytes) (offset : ℕ) :
    Found :=
  let silent := spec.head? == some (byteOf ':')
  let options := if silent then spec.tail else spec
  let bad := arg.getD offset 0
  let offset := offset + 1
  -- behind the last option of an argument stands the next argument
  let (index, offset) := if arg.length ≤ offset then (index + 1, 0) else (index, offset)
  let found := if bad == byteOf ':' || bad == byteOf '?' then [] else options.dropWhile (· != bad)
  if found.isEmpty then
    { index, offset, value := if silent then some [bad] else none,
      diagnostics := if silent then [] else [complaint (ascii "illegal option") bad] }
  else if found.tail.head? == some (byteOf ':') then
    if offset ≠ 0 then
      { index := index + 1, offset := 0, output := [bad], value := some (arg.drop offset) }
    else
      match argument index with
      | some value => { index := index + 1, offset, output := [bad], value := some value }
      | none =>
        { index, offset, output := [if silent then byteOf ':' else byteOf '?'],
          value := if silent then some [bad] else none,
          diagnostics :=
            if silent then [] else [complaint (ascii "option requires an argument") bad] }
  else { index, offset, output := [bad] }

/-- The part of `getopts_builtin` between the current argument and `publish`. -/
def scanOption (argument : ℕ → Option Bytes) (spec : Bytes) (index offset : ℕ) : Found :=
  match argument index with
  | none => { index, offset := 0, ended := true }
  | some arg =>
    if arg.head? != some (byteOf '-') || arg.length == 1 || arg == ascii "--" then
      { index := if arg == ascii "--" then index + 1 else index, offset := 0, ended := true }
    else
      optionAt argument spec index arg (if offset = 0 ∨ arg.length ≤ offset then 1 else offset)

/-- The part of `getopts_builtin` behind `publish`: three assignments, up to the first
failure, and then the offset, which the assignment to `OPTIND` has just cleared. -/
def publish (s : State F) (name : Bytes) (found : Found) : Reply F :=
  match assign s name (some found.output) with
  | (some d, s) => ⟨2, s, found.diagnostics ++ [d]⟩
  | (none, s) =>
    match assign s (ascii "OPTARG") found.value with
    | (some d, s) => ⟨2, s, found.diagnostics ++ [d]⟩
    | (none, s) =>
      match assign s (ascii "OPTIND") (some (Arithmetic.decimal found.index)) with
      | (some d, s) => ⟨2, s, found.diagnostics ++ [d]⟩
      | (none, s) =>
        ⟨if found.ended then 1 else 0, s.setGetoptsOffset found.offset, found.diagnostics⟩

/-- `getopts_builtin` on the words behind the name of the utility. -/
def getoptsBuiltin (s : State F) (words : List Bytes) : Reply F :=
  let words := if words.head? == some (ascii "--") then words.tail else words
  match words with
  | spec :: name :: explicit =>
    match optind s with
    | none => ⟨2, s, [problem (ascii "getopts") (ascii "invalid OPTIND")]⟩
    | some index =>
      publish s name (scanOption (optionArgument s explicit) spec index s.getoptsOffset)
  | _ => ⟨2, s, [problem (ascii "getopts") (ascii "optstring and variable required")]⟩

/-! ### `read` -/

/-- What the options of `read` say. -/
structure ReadOptions where
  raw : Bool := false
  delim : UInt8 := byteOf '\n'
  deriving DecidableEq, Repr

/-- The letters of one option argument, and the arguments left; an error is a diagnostic. -/
def readLetters (rest : List Bytes) : Bytes → ReadOptions → Except Bytes (ReadOptions × List Bytes)
  | [], o => .ok (o, rest)
  | letter :: more, o =>
    if letter = byteOf 'r' then readLetters rest more { o with raw := true }
    else if letter = byteOf 'd' then
      match more, rest with
      | delim :: _, rest => .ok ({ o with delim }, rest)
      | [], argument :: rest => .ok ({ o with delim := argument.head?.getD 0 }, rest)
      | [], [] => .error (problem (ascii "read") (ascii "-d requires a delimiter"))
    else .error (problem (ascii "read") (ascii "invalid option"))

theorem length_readLetters {rest rest' : List Bytes} {letters : Bytes} {o o' : ReadOptions}
    (h : readLetters rest letters o = .ok (o', rest')) : rest'.length ≤ rest.length := by
  induction letters generalizing o with
  | nil =>
    cases h
    exact le_rfl
  | cons letter more ih =>
    unfold readLetters at h
    split at h
    · exact ih h
    · split at h
      · split at h
        · cases h
          exact le_rfl
        · cases h
          exact Nat.le_succ _
        · cases h
      · cases h

/-- The options in front of the operands. -/
def readOptions (words : List Bytes) (o : ReadOptions) : Except Bytes (ReadOptions × List Bytes) :=
  match words with
  | [] => .ok (o, [])
  | word :: rest =>
    if word.head? = some (byteOf '-') ∧ word.length ≠ 1 then
      if word = ascii "--" then .ok (o, rest)
      else
        match hletters : readLetters rest word.tail o with
        | .error diagnostic => .error diagnostic
        | .ok (o, rest') =>
          have := length_readLetters hletters
          readOptions rest' o
    else .ok (o, word :: rest)
termination_by words.length
decreasing_by simp only [List.length_cons]; omega

/-- A byte of the line, and whether a backslash stood before it. -/
structure Mark where
  byte : UInt8
  quoted : Bool
  deriving DecidableEq, Repr

/-- What is on the standard input: bytes, and behind them the end or an error. -/
structure Input where
  bytes : Bytes
  fails : Bool := false
  terminal : Bool := false
  deriving DecidableEq, Repr

/-- What reading a line leaves: the line, its status, what is still to be read, and what was
written to the standard error. -/
structure Reading where
  line : List Mark
  status : ℤ
  rest : Bytes
  diagnostics : List Bytes
  deriving DecidableEq, Repr

/-- The bytes of a part of the line. -/
def bytesOf (line : List Mark) : Bytes := line.map Mark.byte

section Read

variable (d : Decoder)

/-- The loop that reads a line.  `pending` are the bytes of a character that is not
complete, in which nothing is special. -/
def readLine (o : ReadOptions) (fails : Bool) (prompt : List Bytes) :
    Bytes → Bool → Bytes → Reading
  | [], _, _ =>
    if fails then ⟨[], 2, [], [problem (ascii "read") (ascii "cannot read input")]⟩
    else ⟨[], 1, [], []⟩
  | byte :: input, escaped, pending =>
    if pending = [] ∧ !escaped ∧ byte = o.delim then ⟨[], 0, input, []⟩
    else if pending = [] ∧ !o.raw ∧ !escaped ∧ byte = byteOf '\\' then
      readLine o fails prompt input true pending
    else if pending = [] ∧ escaped ∧ byte = byteOf '\n' then
      let reading := readLine o fails prompt input false pending
      { reading with diagnostics := prompt ++ reading.diagnostics }
    else if byte = 0 then readLine o fails prompt input false pending
    else
      let partly := d.mbrlen (pending ++ [byte]) = .incomplete
      let reading :=
        readLine o fails prompt input (if partly then escaped else false)
          (if partly then pending ++ [byte] else [])
      { reading with line := ⟨byte, escaped⟩ :: reading.line }

/-- `white`. -/
def white (byte : UInt8) : Bool := byte == byteOf ' ' || byte == byteOf '\t' || byte == byteOf '\n'

/-- The loop of `delimiter` over the characters of `IFS`. -/
def delimiterLoop (ifs : Bytes) (text : List Mark) : ℕ :=
  match ifs with
  | [] => 0
  | byte :: rest =>
    let n := d.characterBytes (byte :: rest)
    if (byte :: rest.take (n - 1)).isPrefixOf (bytesOf text) && (text.take n).all (!·.quoted) then n
    else delimiterLoop (rest.drop (n - 1)) text
termination_by ifs.length
decreasing_by simp only [List.length_drop, List.length_cons]; omega

/-- `delimiter`: the length of an unquoted `IFS` character at the head of a text, or 0. -/
def delimiter (ifs : Bytes) (text : List Mark) : ℕ :=
  if text.isEmpty then 0 else delimiterLoop d ifs text

/-- Behind the `IFS` white space at the head of a text. -/
def skipWhite (ifs : Bytes) : List Mark → List Mark
  | [] => []
  | mark :: rest =>
    if white mark.byte && delimiter d ifs (mark :: rest) != 0 then skipWhite ifs rest
    else mark :: rest

/-- The text up to the next delimiter, character by character, and what follows. -/
def scanField (ifs : Bytes) (text : List Mark) : List Mark × List Mark :=
  match text with
  | [] => ([], [])
  | mark :: rest =>
    if delimiter d ifs (mark :: rest) ≠ 0 then ([], mark :: rest)
    else
      let width := d.characterBytes (bytesOf (mark :: rest)) - 1
      let scanned := scanField ifs (rest.drop width)
      (mark :: rest.take width ++ scanned.1, scanned.2)
termination_by text.length
decreasing_by simp only [List.length_drop, List.length_cons]; omega

/-- The end of a text without the `IFS` white space in front of it. -/
def trimEnd (ifs : Bytes) (text : List Mark) : ℕ → ℕ
  | 0 => 0
  | finish + 1 =>
    match text.drop finish with
    | [] => finish + 1
    | mark :: rest =>
      if white mark.byte && delimiter d ifs (mark :: rest) != 0 then trimEnd ifs text finish
      else finish + 1

end Read

/-- The loop over the operands: each takes a field, the last one what is left.  A value
that a locale variable gets counts from the next operand on. -/
def readOperands (locales : Locales) (d : Decoder) (ifs : Bytes) (s : State F) (line : List Mark)
    (status : ℤ) : List Bytes → Reply F
  | [] => ⟨status, s, []⟩
  | name :: names =>
    let (result, view) := s.getVariable name
    if result ≠ .ok then ⟨2, s, [problem (ascii "read") (ascii "invalid variable name")]⟩
    else if hasBit view.attributes Attr.readonly then
      ⟨2, s, [problem (ascii "read") (ascii "readonly variable")]⟩
    else
      let text := skipWhite d ifs line
      let (field, rest) := scanField d ifs text
      let value := if names.isEmpty then text.take (trimEnd d ifs text text.length) else field
      let rest := skipWhite d ifs rest
      let rest := rest.drop (delimiter d ifs rest)
      match assign s name (some (bytesOf value)) with
      | (some diagnostic, s) => ⟨2, s, [diagnostic]⟩
      | (none, s) => readOperands locales (decoderAfter locales name s d) ifs s rest status names

/-- The line that `read_builtin` reads.  A continued line is prompted for on a terminal. -/
def readInput (d : Decoder) (s : State F) (input : Input) (o : ReadOptions) : Reading :=
  let prompt :=
    if hasBit s.info.options Opt.interactive && input.terminal then
      [(s.getVariable (ascii "PS2")).2.value.getD (ascii "> ")]
    else []
  readLine d o input.fails prompt input.bytes false []

/-- `read_builtin` on the words behind the name of the utility, and what is left on the
standard input. -/
def readBuiltin (locales : Locales) (d : Decoder) (s : State F) (input : Input)
    (words : List Bytes) : Reply F × Bytes :=
  match readOptions words {} with
  | .error diagnostic => (⟨2, s, [diagnostic]⟩, input.bytes)
  | .ok (_, []) =>
    (⟨2, s, [problem (ascii "read") (ascii "variable required")]⟩, input.bytes)
  | .ok (o, name :: names) =>
    let ifs := (s.getVariable (ascii "IFS")).2.value.getD (ascii " \t\n")
    let reading := readInput d s input o
    let reply :=
      if reading.status ≤ 1 then
        readOperands locales d ifs s reading.line reading.status (name :: names)
      else ⟨reading.status, s, []⟩
    ({ reply with diagnostics := reading.diagnostics ++ reply.diagnostics }, reading.rest)

end Utility
end CShell
