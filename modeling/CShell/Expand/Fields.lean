import CShell.Expand.Pathname
import CShell.State
import CShell.Token

/-!
# Field splitting and pattern encoding

`fields.c` turns an intermediate expansion into final strings.  An intermediate
field is a list of *spans*, each a contiguous result with the protection it came
with.  A cursor walks the spans, cuts candidates at `IFS` delimiters, and emits
each of them: as it is, as a matcher-ready pattern, or through pathname
expansion.

## Main definitions

* `Span`, `Expansion` — intermediate expansions.
* `delimiter`, `finishField`, `expandFields` — the splitter.
* `makePattern` — the encoder of quote protection.

## References

`src/fields.c`, `include/cshell/expand.h`.
-/

namespace CShell

/-- `enum csh_expand_context`. -/
inductive ExpandContext
  | argument
  | assignment
  | pattern
  | redirection
  | heredoc
  deriving DecidableEq, Repr, Inhabited

/-- `enum csh_expand_origin`. -/
inductive ExpandOrigin
  | literal
  | tilde
  | parameter
  | arithmetic
  | substitution
  deriving DecidableEq, Repr, Inhabited

/-- `struct csh_expand_span`. -/
structure Span where
  text : Bytes
  quote : Quote
  origin : ExpandOrigin
  split : Bool
  keepEmpty : Bool
  deriving DecidableEq, Repr, Inhabited

/-- `struct csh_expansion`; a field is its list of spans. -/
structure Expansion where
  fields : List (List Span) := []
  context : ExpandContext := .argument
  deriving DecidableEq, Repr, Inhabited

/-- `struct csh_expand_error`; a fragment of `none` is `CSH_FRAGMENT_ROOT`. -/
structure ExpandError where
  code : ExpandResult := .ok
  fragment : Option ℕ := none
  position : Position := {}
  message : Bytes := []
  deriving DecidableEq, Repr, Inhabited

/-- What `finish_field` requires of a span. -/
def Span.wellFormed (span : Span) : Bool :=
  !(span.split && span.quote != .none) && !(span.keepEmpty && span.quote == .none) &&
    !span.text.contains 0

/-! ### Pattern encoding -/

/-- A byte of a candidate with its protection flags `FIELD_QUOTED` and
`FIELD_LITERAL`. -/
structure Cell where
  byte : UInt8
  quoted : Bool
  literal : Bool
  deriving DecidableEq, Repr, Inhabited

/-- The bytes of a candidate. -/
def rawOf (cells : List Cell) : Bytes := cells.map Cell.byte

section Encoding

variable (d : Decoder) (context : ExpandContext)

/-- The loop of `bracket_subexpression` at index `i` behind the opening bracket:
the index of the closing bracket, 0 if there is none, and whether any byte on
the way was quoted. -/
def bracketScan (mark : UInt8) (i : ℕ) (cells : List Cell) (quoted : Bool) : ℕ × Bool :=
  match cells with
  | [] => (0, quoted)
  | cell :: rest =>
    if context = .argument && cell.byte == byteOf '/' then (0, quoted)
    else
      let quoted := quoted || cell.quoted
      match rest.head? with
      | some next =>
        if 1 < i && cell.byte == mark && next.byte == byteOf ']' then
          (i + 1, quoted || next.quoted)
        else
          let width := d.characterLength (rawOf (cell :: rest)) true - 1
          bracketScan mark (i + 1 + width) (rest.drop width) quoted
      | none => (0, quoted)
termination_by cells.length
decreasing_by simp only [List.length_drop, List.length_cons]; omega

/-- `bracket_subexpression` on the cells behind an opening bracket. -/
def bracketSubexpression (cells : List Cell) : ℕ × Bool :=
  match cells.head? with
  | some next =>
    if (ascii ":.=").contains next.byte then bracketScan d context next.byte 1 cells false
    else (0, false)
  | none => (0, false)

/-- Where a bracket list stands: outside, before its first member, behind an
initial `!`, or where `]` closes it. -/
inductive Bracket
  | outside
  | first
  | negated
  | open
  deriving DecidableEq, Repr, Inhabited

/-- A byte that a protective backslash goes before when it is quoted. -/
def protectedByte (byte : UInt8) : Bool := (ascii "*?[]-!^").contains byte

/-- How a byte that was just copied moves the bracket state. -/
def Bracket.step (bracket : Bracket) (byte : UInt8) (quoted forced : Bool) : Bracket :=
  match bracket with
  | .outside => if byte == byteOf '[' && !quoted && !forced then .first else .outside
  | .first => if byte == byteOf '!' && !quoted then .negated else .open
  | .negated => .open
  | .open => if byte == byteOf ']' && !quoted then .outside else .open

/-- A list that has begun can be closed by the next `]`. -/
def Bracket.member : Bracket → Bracket
  | .outside => .outside
  | _ => .open

/-- `make_pattern`. -/
def makePattern (cells : List Cell) (pendingEscape : Bool) (bracket : Bracket) : Bytes :=
  match cells with
  | [] => []
  | cell :: rest =>
    let width := d.characterLength (rawOf (cell :: rest)) true
    if 1 < width then
      rawOf ((cell :: rest).take width) ++ makePattern (rest.drop (width - 1)) false bracket.member
    else
      let byte := cell.byte
      let bracket := if context = .argument && byte == byteOf '/' then .outside else bracket
      if pendingEscape then byte :: makePattern rest false bracket.member
      else
        let sub :=
          if bracket != .outside && byte == byteOf '[' && !cell.quoted then
            bracketSubexpression d context rest
          else (0, false)
        if sub.1 ≠ 0 && !sub.2 then
          -- unquoted POSIX syntax goes intact to the matcher
          byte :: rawOf (rest.take sub.1) ++ makePattern (rest.drop sub.1) false .open
        else
          let forced := sub.1 ≠ 0 && sub.2
          if forced || (byte == byteOf '\\' && (cell.quoted || cell.literal)) ||
              (cell.quoted && protectedByte byte) then
            byteOf '\\' :: byte ::
              makePattern rest false (bracket.step byte cell.quoted forced)
          else if byte == byteOf '\\' then byte :: makePattern rest true bracket
          else byte :: makePattern rest false (bracket.step byte cell.quoted forced)
termination_by cells.length
decreasing_by all_goals simp only [List.length_drop, List.length_cons]; omega

end Encoding

/-! ### The splitter -/

/-- What expansion asks of the system it runs on. -/
structure ExpandEnv where
  /-- The decoder captured at startup. -/
  lexical : Decoder
  /-- The decoder of the current `LC_CTYPE`. -/
  current : Decoder
  fs : FileSystem
  /-- The home directory `getpwnam` finds for a user. -/
  getpwnam : Bytes → Option Bytes

/-- The C locale on a system without files and users. -/
def ExpandEnv.bare : ExpandEnv := ⟨.posix, .posix, .empty, fun _ => none⟩

section Splitter

variable (env : ExpandEnv)

/-- `current`: skip what the cursor has used up and the implicit empty results,
but not the empty protected spans. -/
def current : List Span → ℕ → List Span × ℕ
  | [], offset => ([], offset)
  | span :: rest, offset =>
    if offset < span.text.length || (span.text.isEmpty && span.keepEmpty) then (span :: rest, offset)
    else current rest 0

/-- The loop of `delimiter` over the `IFS` characters: the length of the first one
that `text` begins with, and whether it is `IFS` white space. -/
def matchIfs (ifs text : Bytes) : Option (ℕ × Bool) :=
  match ifs with
  | [] => none
  | byte :: rest =>
    let length := env.current.characterBytes (byte :: rest)
    if (byte :: rest.take (length - 1)).isPrefixOf text then
      some (length, length == 1 && (ascii " \t\n").contains byte)
    else matchIfs (rest.drop (length - 1)) text
termination_by ifs.length
decreasing_by simp only [List.length_drop, List.length_cons]; omega

/-- `delimiter` at the cursor. -/
def delimiter (ifs : Bytes) (spans : List Span) (offset : ℕ) : Option (ℕ × Bool) :=
  match spans with
  | [] => none
  | span :: _ =>
    if !span.split || span.quote != .none || offset == span.text.length then none
    else matchIfs env ifs (span.text.drop offset)

/-- What is left to read at the cursor, an upper bound of the steps to its end. -/
def remaining : List Span → ℕ → ℕ
  | [], _ => 0
  | span :: rest, offset =>
    span.text.length - offset + 1 + (rest.map fun s => s.text.length + 1).sum

theorem remaining_cons (span : Span) (rest : List Span) (offset : ℕ) :
    remaining (span :: rest) offset =
      span.text.length - offset + 1 + (rest.map fun s => s.text.length + 1).sum := rfl

/-- A delimiter is a nonempty part of its span. -/
theorem matchIfs_bounds {ifs text : Bytes} {n : ℕ} {white : Bool}
    (h : matchIfs env ifs text = some (n, white)) : 0 < n ∧ n ≤ text.length := by
  fun_induction matchIfs env ifs text with
  | case1 => cases h
  | case2 byte rest length hprefix =>
    have hlength : 0 < length := env.current.characterBytes_pos _
    have hle : length ≤ (byte :: rest).length := env.current.characterBytes_le (by simp)
    have hfits := (List.isPrefixOf_iff_prefix.mp hprefix).length_le
    simp only [List.length_cons, List.length_take] at hfits hle
    simp only [Option.some.injEq, Prod.mk.injEq] at h
    omega
  | case3 byte rest length _ ih => exact ih h

theorem delimiter_bounds {ifs : Bytes} {span : Span} {rest : List Span} {offset n : ℕ} {white : Bool}
    (h : delimiter env ifs (span :: rest) offset = some (n, white)) :
    0 < n ∧ n ≤ span.text.length - offset := by
  simp only [delimiter] at h
  split at h
  · cases h
  · have := matchIfs_bounds env h
    rwa [List.length_drop] at this

/-- A cursor stands inside a span, or at an empty protected one. -/
theorem current_head {spans rest : List Span} {span : Span} {offset offset' : ℕ}
    (h : current spans offset = (span :: rest, offset')) :
    offset' < span.text.length ∨ (span.text.isEmpty ∧ span.keepEmpty) := by
  induction spans generalizing offset with
  | nil => cases h
  | cons first others ih =>
    unfold current at h
    split at h
    · rename_i hstay
      cases h
      simpa using hstay
    · exact ih h

theorem remaining_add_le (spans : List Span) (offset n : ℕ) :
    remaining spans (offset + n) ≤ remaining spans offset := by
  cases spans with
  | nil => exact Nat.le_refl _
  | cons span rest =>
    simp only [remaining]
    omega

theorem remaining_le_zero (spans : List Span) (offset : ℕ) :
    remaining spans offset ≤ (spans.map fun s => s.text.length + 1).sum := by
  cases spans with
  | nil => exact Nat.zero_le _
  | cons span rest =>
    simp only [remaining, List.map_cons, List.sum_cons]
    omega

theorem remaining_current (spans : List Span) (offset : ℕ) :
    remaining (current spans offset).1 (current spans offset).2 ≤ remaining spans offset := by
  induction spans generalizing offset with
  | nil => exact Nat.le_refl _
  | cons span rest ih =>
    unfold current
    split
    · exact Nat.le_refl _
    · refine (ih 0).trans ?_
      cases rest with
      | nil => simp [remaining]
      | cons next rest =>
        simp only [remaining, List.map_cons, List.sum_cons]
        omega

/-- The white space loop of `finish_field` behind a white delimiter: the cursor
behind the run and the one other delimiter it may take along, and whether there
was one. -/
def skipWhite (ifs : Bytes) (spans : List Span) (offset : ℕ) : List Span × ℕ × Bool :=
  match h : current spans offset with
  | ([], offset') => ([], offset', false)
  | (span :: rest, offset') =>
    match hd : delimiter env ifs (span :: rest) offset' with
    | none => (span :: rest, offset', false)
    | some (n, false) => (span :: rest, offset' + n, true)
    | some (n, true) => skipWhite ifs (span :: rest) (offset' + n)
termination_by remaining spans offset
decreasing_by
  have hcur := remaining_current spans offset
  have hbounds := delimiter_bounds env hd
  rw [h, remaining_cons] at hcur
  rw [remaining_cons]
  omega

theorem remaining_skipWhite (ifs : Bytes) (spans : List Span) (offset : ℕ) :
    remaining (skipWhite env ifs spans offset).1 (skipWhite env ifs spans offset).2.1 ≤
      remaining spans offset := by
  fun_induction skipWhite env ifs spans offset with
  | case1 spans offset offset' h => exact Nat.zero_le _
  | case2 spans offset span rest offset' h hd => simpa only [h] using remaining_current spans offset
  | case3 spans offset span rest offset' h n hd =>
    have hcur := remaining_current spans offset
    rw [h] at hcur
    exact (remaining_add_le _ _ _).trans hcur
  | case4 spans offset span rest offset' h n hd ih =>
    have hcur := remaining_current spans offset
    rw [h] at hcur
    exact ih.trans ((remaining_add_le _ _ _).trans hcur)

/-- The cursor behind the delimiters that end a candidate, the first of which has
length `n`, and whether a non-white one was among them. -/
def skipDelimiters (ifs : Bytes) (spans : List Span) (offset n : ℕ) (white : Bool) :
    List Span × ℕ × Bool :=
  if white then skipWhite env ifs spans (offset + n) else (spans, offset + n, true)

theorem remaining_skipDelimiters (ifs : Bytes) (spans : List Span) (offset n : ℕ) (white : Bool) :
    remaining (skipDelimiters env ifs spans offset n white).1
        (skipDelimiters env ifs spans offset n white).2.1 ≤ remaining spans (offset + n) := by
  unfold skipDelimiters
  split
  · exact remaining_skipWhite env ifs spans _
  · exact Nat.le_refl _

/-- `emit`. -/
def emit (context : ExpandContext) (options : UInt32) (cells : List Cell) (out : Output) :
    ExpandResult × Output :=
  match context with
  | .assignment | .redirection | .heredoc => (.ok, out.append (rawOf cells))
  | .pattern => (.ok, out.append (makePattern env.current context cells false .outside))
  | .argument =>
    if hasBit options Opt.noglob then (.ok, out.append (rawOf cells))
    else
      pathnameExpand env.fs env.current (rawOf cells)
        (makePattern env.current context cells false .outside) out

/-- The protected copy of one character of a span. -/
def Span.cells (span : Span) (offset width : ℕ) : List Cell :=
  ((span.text.drop offset).take width).map fun byte =>
    ⟨byte, span.quote != .none, span.origin == .literal⟩

/-- The main loop of `finish_field`. -/
def finishLoop (context : ExpandContext) (ifs : Bytes) (options : UInt32) (spans : List Span)
    (offset : ℕ) (cells : List Cell) (keep : Bool) (out : Output) : ExpandResult × Output :=
  match h : current spans offset with
  | ([], _) => if !cells.isEmpty || keep then emit env context options cells out else (.ok, out)
  | (span :: rest, offset') =>
    if hempty : span.text.isEmpty then
      finishLoop context ifs options rest offset' cells true out
    else
      match hd : if context = .argument then delimiter env ifs (span :: rest) offset' else none with
      | none =>
        let width := env.current.characterLength (span.text.drop offset') true
        finishLoop context ifs options (span :: rest) (offset' + width)
          (cells ++ span.cells offset' width) keep out
      | some (n, white) =>
        -- white space, then at most one other delimiter, ends the candidate
        let after := skipDelimiters env ifs (span :: rest) offset' n white
        let emitted :=
          if !cells.isEmpty || keep || after.2.2 then emit env context options cells out
          else (.ok, out)
        if emitted.1 = .ok then
          finishLoop context ifs options after.1 after.2.1 [] false emitted.2
        else emitted
termination_by remaining spans offset
decreasing_by
  all_goals
    have hcur := remaining_current spans offset
    rw [h, remaining_cons] at hcur
  · have := remaining_le_zero rest offset'
    omega
  · have hlt : offset' < span.text.length := by
      rcases current_head h with hlt | ⟨hnil, _⟩
      · exact hlt
      · exact absurd hnil hempty
    have hne : span.text.drop offset' ≠ [] := by simpa using hlt
    have hwidth : 0 < width := env.current.characterLength_final_pos hne
    rw [remaining_cons]
    omega
  · have hbounds : 0 < n ∧ n ≤ span.text.length - offset' := by
      split at hd
      · exact delimiter_bounds env hd
      · cases hd
    have hskip := remaining_skipDelimiters env ifs (span :: rest) offset' n white
    rw [remaining_cons] at hskip
    omega

section Steps

variable {env} {context : ExpandContext} {ifs : Bytes} {options : UInt32} {spans rest : List Span}
  {span : Span} {offset offset' : ℕ} (cells : List Cell) (keep : Bool) (out : Output)

theorem finishLoop_of_done (h : current spans offset = ([], offset')) :
    finishLoop env context ifs options spans offset cells keep out =
      if !cells.isEmpty || keep then emit env context options cells out else (.ok, out) := by
  rw [finishLoop]
  split
  · rfl
  · rename_i hcur
    rw [h] at hcur
    cases hcur

theorem finishLoop_of_empty (h : current spans offset = (span :: rest, offset'))
    (hempty : span.text.isEmpty) :
    finishLoop env context ifs options spans offset cells keep out =
      finishLoop env context ifs options rest offset' cells true out := by
  rw [finishLoop]
  split
  · rename_i hcur
    rw [h] at hcur
    cases hcur
  · rename_i hcur
    rw [h] at hcur
    cases hcur
    rw [dif_pos hempty]

theorem finishLoop_of_character (h : current spans offset = (span :: rest, offset'))
    (hne : ¬span.text.isEmpty)
    (hd : (if context = .argument then delimiter env ifs (span :: rest) offset' else none) = none) :
    finishLoop env context ifs options spans offset cells keep out =
      finishLoop env context ifs options (span :: rest)
        (offset' + env.current.characterLength (span.text.drop offset') true)
        (cells ++ span.cells offset' (env.current.characterLength (span.text.drop offset') true))
        keep out := by
  conv_lhs => rw [finishLoop]
  split
  · rename_i hcur
    rw [h] at hcur
    cases hcur
  · rename_i hcur
    rw [h] at hcur
    cases hcur
    rw [dif_neg hne]
    split
    · rfl
    · rename_i hfound
      rw [hd] at hfound
      cases hfound

end Steps

/-- `finish_field`. -/
def finishField (context : ExpandContext) (ifs : Bytes) (options : UInt32) (field : List Span)
    (out : Output) : ExpandResult × Output :=
  if field.all Span.wellFormed then
    finishLoop env context ifs options field 0 [] (context != .argument) out
  else (.invalid, out)

/-- The loop of `csh_expand_fields` over the intermediate fields. -/
def finishFields (context : ExpandContext) (ifs : Bytes) (options : UInt32) :
    List (List Span) → Output → ExpandResult × Output
  | [], out => (.ok, out)
  | field :: fields, out =>
    match finishField env context ifs options field out with
    | (.ok, out) => finishFields context ifs options fields out
    | failed => failed

/-- The diagnostic of a failed `csh_expand_fields`. -/
def fieldsMessage : ExpandResult → Bytes
  | .nomem => ascii "field expansion allocation failed"
  | .io => ascii "pathname expansion I/O failed"
  | .interrupted => ascii "field expansion interrupted"
  | .limit => ascii "pathname expansion limit exceeded"
  | _ => ascii "invalid intermediate expansion"

variable {F : Type}

/-- The separators `csh_expand_fields` works with: an unset `IFS` stands for
space, tab and newline. -/
def ifsOf (s : State F) : Bytes :=
  (s.getVariable (ascii "IFS")).2.value.getD (ascii " \t\n")

/-- `csh_expand_fields`: errors clear the fields, but not what was looked at. -/
def expandFields (s : State F) (expansion : Expansion) : ExpandResult × Output × ExpandError :=
  match finishFields env expansion.context (ifsOf s) s.info.options expansion.fields {} with
  | (.ok, out) => (.ok, out, {})
  | (result, out) =>
    (result, { out with fields := [] }, { code := result, message := fieldsMessage result })

end Splitter

end CShell
