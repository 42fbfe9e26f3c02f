import CShell.Character
import Mathlib.Data.List.Sort

/-!
# Pathname expansion

`pathname.c`: a field whose encoded pattern has a wildcard is matched against the
file system one path component at a time.  The file system, `fnmatch` and
`strcoll` are parameters.  Every directory opened and every path looked up is
noted in a log, so that what a word makes the shell look at can be stated.  The
cancellation callback of `struct csh_field_options` is taken to be absent.

## Main definitions

* `FileSystem` — the system calls and library functions used.
* `hasPattern` — whether a pattern holds an active wildcard.
* `pathnameExpand` — `csh_pathname_expand`.

## References

`src/pathname.c`.
-/

namespace CShell

/-- `enum csh_expand_result`. -/
inductive ExpandResult
  | ok
  | invalid
  | nomem
  | unset
  | readonly
  | arithmeticError
  | deferred
  | limit
  | io
  | interrupted
  | resource
  deriving DecidableEq, Repr, Inhabited

/-- The `errno` values that `filesystem_error` tells apart. -/
inductive Errno
  | noent
  | notdir
  | acces
  | nametoolong
  | loop
  | nomem
  | intr
  | other
  deriving DecidableEq, Repr, Inhabited

/-- What one opened directory yields: the names read, the error that ended the
reading, and the error of `closedir`. -/
structure Listing where
  entries : List Bytes
  readError : Option Errno := none
  closeError : Option Errno := none

/-- The file system and the library functions that pathname expansion calls. -/
structure FileSystem where
  /-- `fnmatch(pattern, text, flags) == 0`, the flag being `FNM_PERIOD`. -/
  fnmatch : Bytes → Bytes → Bool → Bool
  /-- `strcoll`. -/
  strcoll : Bytes → Bytes → Ordering
  /-- `opendir`, with everything `readdir` and `closedir` will say. -/
  opendir : Bytes → Except Errno Listing
  /-- `lstat` succeeds. -/
  lstat : Bytes → Except Errno Unit
  /-- `stat`, and whether it found a directory. -/
  stat : Bytes → Except Errno Bool

/-- A file system without files, where only equal texts match. -/
def FileSystem.empty : FileSystem where
  fnmatch pattern text _ := pattern == text
  strcoll a b := compareOfLessAndEq a b
  opendir _ := .error .noent
  lstat _ := .error .noent
  stat _ := .error .noent

/-- One look at the file system. -/
inductive Access
  | opendir (path : Bytes)
  | lstat (path : Bytes)
  | stat (path : Bytes)
  deriving DecidableEq, Repr

/-- The vector of fields under construction, and the looks taken so far. -/
structure Output where
  fields : List Bytes := []
  log : List Access := []
  deriving DecidableEq, Repr, Inhabited

/-- `csh_fields_append` (and `append_path`). -/
def Output.append (out : Output) (text : Bytes) : Output :=
  { out with fields := out.fields ++ [text] }

@[simp] theorem Output.append_fields (out : Output) (text : Bytes) :
    (out.append text).fields = out.fields ++ [text] := rfl

@[simp] theorem Output.append_log (out : Output) (text : Bytes) :
    (out.append text).log = out.log := rfl

/-- `filesystem_error`. -/
def filesystemError : Errno → ExpandResult
  | .noent | .notdir | .acces | .nametoolong | .loop => .ok
  | .nomem => .nomem
  | .intr => .interrupted
  | .other => .io

section Wildcards

variable (d : Decoder)

/-- The end of a bracket subexpression opened by `mark`: what follows its `]`, or
`none` at a slash or the end of the text. -/
def skipSubexpression (mark : UInt8) (text : Bytes) : Option Bytes :=
  match text with
  | [] => none
  | byte :: rest =>
    if byte == byteOf '/' then none
    else if byte == mark && rest.head? == some (byteOf ']') then some rest.tail
    else skipSubexpression mark (rest.drop (d.patternWidth (byte :: rest) - 1))
termination_by text.length
decreasing_by simp only [List.length_drop, List.length_cons]; omega

theorem length_skipSubexpression {mark : UInt8} {text rest : Bytes}
    (h : skipSubexpression d mark text = some rest) : rest.length ≤ text.length := by
  fun_induction skipSubexpression d mark text with
  | case1 => cases h
  | case2 => cases h
  | case3 byte tail _ _ =>
    cases h
    simp only [List.length_tail, List.length_cons]
    omega
  | case4 byte tail _ _ ih =>
    have := ih h
    simp only [List.length_drop] at this
    simp only [List.length_cons]
    omega

/-- The scan of `has_bracket` behind the first list position. -/
def closesBracket (text : Bytes) : Bool :=
  match text with
  | [] => false
  | byte :: rest =>
    if byte == byteOf '/' then false
    else
      let next := rest.head?
      if byte == byteOf '\\' && next.isSome && next != some (byteOf '/') then
        closesBracket (rest.drop (d.patternWidth rest))
      else if byte == byteOf ']' then true
      else match next.filter (ascii ":.=").contains with
        | some mark =>
          if byte == byteOf '[' then
            match hskip : skipSubexpression d mark rest.tail with
            | none => false
            | some rest => closesBracket rest
          else closesBracket (rest.drop (d.patternWidth (byte :: rest) - 1))
        | none => closesBracket (rest.drop (d.patternWidth (byte :: rest) - 1))
termination_by text.length
decreasing_by
  all_goals simp only [List.length_drop, List.length_cons]
  · omega
  · have := length_skipSubexpression d hskip
    simp only [List.length_tail] at this
    omega
  · omega
  · omega

/-- `has_bracket`, on the text behind the opening bracket. -/
def hasBracket (text : Bytes) : Bool :=
  let text := if text.head? == some (byteOf '!') then text.tail else text
  let text := if text.head? == some (byteOf ']') then text.tail else text
  closesBracket d text

/-- `has_pattern`. -/
def hasPattern (text : Bytes) : Bool :=
  match text with
  | [] => false
  | byte :: rest =>
    if byte == byteOf '\\' && !rest.isEmpty then hasPattern (rest.drop (d.patternWidth rest))
    else if byte == byteOf '*' || byte == byteOf '?' || (byte == byteOf '[' && hasBracket d rest)
      then true
    else hasPattern (rest.drop (d.patternWidth (byte :: rest) - 1))
termination_by text.length
decreasing_by all_goals simp only [List.length_drop, List.length_cons]; omega

/-- Copy a text character by character, an escaping backslash going through
`escape`, which keeps or drops it in view of the byte it protects. -/
def copyUnescaping (escape : UInt8 → Bytes) (text : Bytes) : Bytes :=
  match text with
  | [] => []
  | byte :: rest =>
    match rest with
    | next :: rest' =>
      if byte == byteOf '\\' then
        let width := d.patternWidth (next :: rest') - 1
        escape next ++ next :: rest'.take width ++ copyUnescaping escape (rest'.drop width)
      else
        let width := d.patternWidth (byte :: next :: rest') - 1
        byte :: (next :: rest').take width ++ copyUnescaping escape ((next :: rest').drop width)
    | [] => [byte]
termination_by text.length
decreasing_by all_goals simp only [List.length_drop, List.length_cons]; omega

/-- `pathname_pattern`: an escape cannot turn a slash into a filename character. -/
def pathnamePattern (text : Bytes) : Bytes :=
  copyUnescaping d (fun next => if next == byteOf '/' then [] else [byteOf '\\']) text

/-- `unescape`. -/
def unescape (text : Bytes) : Bytes := copyUnescaping d (fun _ => []) text

end Wildcards

section Traversal

variable (fs : FileSystem)

/-- `literal_path`: `path` is the prefix, the separators and the component. -/
def literalPath (path : Bytes) (final directory : Bool) (next : Output) : ExpandResult × Output :=
  if !final then (.ok, next.append path)
  else if directory then
    let next := { next with log := next.log ++ [.stat path] }
    match fs.stat path with
    | .error e => (filesystemError e, next)
    | .ok false => (.ok, next)
    | .ok true => (.ok, next.append path)
  else
    let next := { next with log := next.log ++ [.lstat path] }
    match fs.lstat path with
    | .error e => (filesystemError e, next)
    | .ok () => (.ok, next.append path)

/-- A directory entry that a pattern component selects. -/
def selects (component entry : Bytes) : Bool :=
  entry != ascii "." && entry != ascii ".." && fs.fnmatch component entry true

/-- The result of reading or closing a directory, and whether it means that the
directory supplied no matches; `before` stands when there was no error. -/
def failureOf (error : Option Errno) (before : ExpandResult × Bool) : ExpandResult × Bool :=
  match error with
  | none => before
  | some e => (filesystemError e, filesystemError e = .ok)

/-- `pattern_paths`.  A read failure that only says something about the directory
drops the matches read before it. -/
def patternPaths (directory component : Bytes) (next : Output) : ExpandResult × Output :=
  let path := if directory.isEmpty then ascii "." else directory
  let next := { next with log := next.log ++ [.opendir path] }
  match fs.opendir path with
  | .error e => (filesystemError e, next)
  | .ok listing =>
    let matched := (listing.entries.filter (selects fs component)).map (directory ++ ·)
    let found := { next with fields := next.fields ++ matched }
    let (result, noMatch) := failureOf listing.readError (.ok, false)
    let (result, noMatch) :=
      if result = .ok then failureOf listing.closeError (result, noMatch) else (result, noMatch)
    (result, if noMatch then next else found)

/-- The inner loop of `csh_pathname_expand`: one component behind every path
found so far. -/
def extendPaths (step : Bytes → Output → ExpandResult × Output) :
    List Bytes → Output → ExpandResult × Output
  | [], next => (.ok, next)
  | path :: paths, next =>
    match step path next with
    | (.ok, next) => extendPaths step paths next
    | failed => failed

/-- `compare_paths` as an order. -/
def comparePaths (a b : Bytes) : Bool :=
  match fs.strcoll a b with
  | .lt => true
  | .gt => false
  | .eq => decide (a ≤ b)

/-- `PATHNAME_COMPONENT_LIMIT`. -/
def pathnameComponentLimit : ℕ := 4096

/-- One component: the separators before it, the component, and whether the
pattern ends behind it. -/
def componentStep (d : Decoder) (separators component : Bytes) (final : Bool) (path : Bytes)
    (next : Output) : ExpandResult × Output :=
  if hasPattern d component then patternPaths fs (path ++ separators) component next
  else
    literalPath fs (path ++ separators ++ unescape d component) final
      (component.isEmpty && !separators.isEmpty) next

/-- The outer loop of `csh_pathname_expand`, over the normalized pattern. -/
def walkComponents (d : Decoder) (position : Bytes) (components : ℕ) (paths : Output) :
    ExpandResult × Output :=
  if h : position = [] then (.ok, paths)
  else if paths.fields = [] then (.ok, paths)
  else
    let separators := position.takeWhile (· == byteOf '/')
    let rest := position.dropWhile (· == byteOf '/')
    let component := rest.takeWhile (· != byteOf '/')
    let after := rest.dropWhile (· != byteOf '/')
    if components + 1 > pathnameComponentLimit then (.limit, paths)
    else
      match extendPaths (componentStep fs d separators component after.isEmpty) paths.fields
          { paths with fields := [] } with
      | (.ok, next) => walkComponents d after (components + 1) next
      | failed => failed
termination_by position.length
decreasing_by
  obtain ⟨byte, tail, rfl⟩ := List.exists_cons_of_ne_nil h
  by_cases hb : byte == byteOf '/'
  · have h₁ := (List.dropWhile_suffix (· != byteOf '/') (l := tail.dropWhile (· == byteOf '/'))).length_le
    have h₂ := (List.dropWhile_suffix (· == byteOf '/') (l := tail)).length_le
    simp only [List.dropWhile_cons, hb, if_true, List.length_cons]
    omega
  · have hb' : (byte != byteOf '/') = true := by simpa using hb
    have h₁ := (List.dropWhile_suffix (· != byteOf '/') (l := tail)).length_le
    simp only [List.dropWhile_cons, hb, hb', if_true, List.length_cons,
      Bool.false_eq_true, if_false]
    omega

/-- `csh_pathname_expand`. -/
def pathnameExpand (d : Decoder) (raw pattern : Bytes) (out : Output) : ExpandResult × Output :=
  if !hasPattern d pattern then (.ok, out.append raw)
  else
    match walkComponents fs d (pathnamePattern d pattern) 0 { fields := [[]], log := out.log } with
    | (.ok, paths) =>
      if paths.fields = [] then (.ok, { out.append raw with log := paths.log })
      else (.ok, { fields := out.fields ++ paths.fields.mergeSort (comparePaths fs),
                   log := paths.log })
    | (result, paths) => (result, { out with log := paths.log })

end Traversal

/-- A pattern without an active wildcard stands for itself, and no path is
looked up. -/
theorem pathnameExpand_of_not_hasPattern {d : Decoder} {pattern : Bytes}
    (h : hasPattern d pattern = false) (fs : FileSystem) (raw : Bytes) (out : Output) :
    pathnameExpand fs d raw pattern out = (.ok, out.append raw) := by
  simp [pathnameExpand, h]

end CShell
