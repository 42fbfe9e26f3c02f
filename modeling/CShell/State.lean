import CShell.Lib.Table
import CShell.Text

/-!
# The shell state

`struct csh_state` and the operations of `state.c` and `alias.c` on it.  Linked
lists are lists, a `NULL` value is `none`, and the payload of a function is an
arbitrary type, as the state never looks into it.  Allocation never fails here;
`nomem` survives only where the source returns it for another reason.  The libc
locale that `csh_state_refresh_locale` selects belongs to the process and not to
the state, so of locale handling only the `manages_locale` flag is kept.

## Main definitions

* `State F` — the state, over function payloads `F`.
* `State.setVariable`, `State.updateAttributes`, `State.unsetVariable` and the
  other mutators, each returning its `csh_state_result` and the new state.
* `State.clone`, `State.save`, `State.restore` — full-state checkpoints.

## References

`src/state.c`, `src/alias.c`, `include/cshell/state.h`.
-/

namespace CShell

/-- `enum csh_state_result`. -/
inductive StateResult
  | ok
  | invalid
  | nomem
  | readonly
  deriving DecidableEq, Repr, Inhabited

/-- `enum csh_input_mode`. -/
inductive InputMode
  | stdin
  | string
  | file
  deriving DecidableEq, Repr, Inhabited

/-! ### Option and attribute bits -/

namespace Opt

def interactive : UInt32 := 0x1
def allexport : UInt32 := 0x2
def errexit : UInt32 := 0x4
def noglob : UInt32 := 0x8
def noexec : UInt32 := 0x10
def nounset : UInt32 := 0x20
def verbose : UInt32 := 0x40
def xtrace : UInt32 := 0x80
def noclobber : UInt32 := 0x100
def pipefail : UInt32 := 0x200
def monitor : UInt32 := 0x400
def notify : UInt32 := 0x800
def hashall : UInt32 := 0x1000
def ignoreeof : UInt32 := 0x2000
def nolog : UInt32 := 0x4000

/-- `CSH_SETTABLE_OPTIONS`: every option but `CSH_OPT_INTERACTIVE`. -/
def settable : UInt32 :=
  allexport ||| notify ||| noclobber ||| errexit ||| noglob ||| hashall ||| monitor |||
    noexec ||| nounset ||| verbose ||| xtrace ||| pipefail ||| ignoreeof ||| nolog

/-- `SHELL_OPTIONS` of `state.c`. -/
def shell : UInt32 := interactive ||| settable

end Opt

namespace Attr

def exported : UInt32 := 0x1
def readonly : UInt32 := 0x2

/-- `VARIABLE_ATTRIBUTES`. -/
def all : UInt32 := exported ||| readonly

end Attr

/-- `bits & mask` as a condition. -/
def hasBit (bits mask : UInt32) : Bool := bits &&& mask != 0

/-! ### The state record -/

/-- `struct variable`, its link apart.  A `NULL` value is an unset variable that
is declared for its attributes only. -/
structure Variable where
  name : Bytes
  value : Option Bytes
  attributes : UInt32
  deriving DecidableEq, Repr, Inhabited

/-- `struct csh_variable_view`; a missing name has attributes 0. -/
structure VariableView where
  value : Option Bytes := none
  attributes : UInt32 := 0
  deriving DecidableEq, Repr, Inhabited

/-- `struct csh_state_info`. -/
structure Info where
  sourceDepth : ℕ := 0
  functionDepth : ℕ := 0
  argumentCount : ℕ := 0
  lastStatus : ℤ := 0
  shellPid : ℤ := 0
  backgroundPid : ℤ := 0
  mode : InputMode := .stdin
  options : UInt32 := 0
  errexitIgnored : ℕ := 0
  deriving DecidableEq, Repr, Inhabited

/-- `struct csh_state`.  The alias table is allocated lazily: `none` is a table
nobody asked for yet. -/
structure State (F : Type) where
  managesLocale : Bool := false
  aliases : Option (List (Bytes × Bytes)) := none
  hashes : List (Bytes × Bytes) := []
  getoptsOffset : ℕ := 0
  functions : List (Bytes × F) := []
  vars : List Variable := []
  arg0 : Bytes := []
  arguments : List Bytes := []
  info : Info := {}
  deriving DecidableEq, Repr, Inhabited

/-- `struct csh_variable_save`: a copy of a variable, or of its absence. -/
structure VariableSave where
  var : Variable
  present : Bool
  deriving DecidableEq, Repr, Inhabited

namespace State

variable {F : Type}

/-! ### Variables -/

/-- `find_variable` on the linked list. -/
def findVariable (vars : List Variable) (name : Bytes) : Option Variable :=
  vars.find? fun v => v.name == name

/-- `csh_state_get_variable`. -/
def getVariable (s : State F) (name : Bytes) : StateResult × VariableView :=
  if !validName name then (.invalid, {})
  else match findVariable s.vars name with
    | some v => (.ok, ⟨v.value, v.attributes⟩)
    | none => (.ok, {})

/-- Overwrite the first variable of a name, in place. -/
def modifyVariable (name : Bytes) (f : Variable → Variable) : List Variable → List Variable
  | [] => []
  | v :: vs => if v.name == name then f v :: vs else v :: modifyVariable name f vs

/-- Unlink the first variable of a name. -/
def unlinkVariable (name : Bytes) : List Variable → List Variable
  | [] => []
  | v :: vs => if v.name == name then vs else v :: unlinkVariable name vs

/-- `csh_state_hash_clear`. -/
def hashClear (s : State F) : State F := { s with hashes := [] }

/-- What an assignment to a name does beside storing the value: a new `PATH`
empties the command hash, a new `OPTIND` restarts `getopts`. -/
def assigned (s : State F) (name : Bytes) : State F :=
  let s := if name == ascii "PATH" then s.hashClear else s
  if name == ascii "OPTIND" then { s with getoptsOffset := 0 } else s

/-- The attribute `allexport` adds to an assigned variable. -/
def exportOnAssign (options attributes : UInt32) : UInt32 :=
  if hasBit options Opt.allexport then attributes ||| Attr.exported else attributes

/-- `csh_state_set_variable`. -/
def setVariable (s : State F) (name value : Bytes) : StateResult × State F :=
  if !validName name then (.invalid, s)
  else match findVariable s.vars name with
    | some v =>
      if hasBit v.attributes Attr.readonly then (.readonly, s)
      else
        let update : Variable → Variable := fun v =>
          { v with value := some value,
                   attributes := exportOnAssign s.info.options v.attributes }
        (.ok, { s with vars := modifyVariable name update s.vars }.assigned name)
    | none =>
      let v : Variable := ⟨name, some value, exportOnAssign s.info.options 0⟩
      (.ok, { s with vars := v :: s.vars }.assigned name)

/-- `csh_state_update_attributes`. -/
def updateAttributes (s : State F) (name : Bytes) (set clear : UInt32) : StateResult × State F :=
  if !validName name || (set ||| clear) &&& ~~~Attr.all != 0 || set &&& clear != 0 then (.invalid, s)
  else match findVariable s.vars name with
    | some v =>
      if hasBit v.attributes Attr.readonly && hasBit clear Attr.readonly then (.readonly, s)
      else
        let update : Variable → Variable := fun v =>
          { v with attributes := (v.attributes ||| set) &&& ~~~clear }
        (.ok, { s with vars := modifyVariable name update s.vars })
    | none =>
      let attributes := set &&& ~~~clear
      if attributes == 0 then (.ok, s)
      else (.ok, { s with vars := ⟨name, none, attributes⟩ :: s.vars })

/-- `csh_state_unset_variable`. -/
def unsetVariable (s : State F) (name : Bytes) : StateResult × State F :=
  if !validName name then (.invalid, s)
  else match findVariable s.vars name with
    | none => (.ok, s)
    | some v =>
      if hasBit v.attributes Attr.readonly then (.readonly, s)
      else
        let s := { s with vars := unlinkVariable name s.vars }
        (.ok, if name == ascii "PATH" then s.hashClear else s)

/-- One name of `csh_state_save_variables`; a name already saved is skipped. -/
def saveVariable (s : State F) (saves : List VariableSave) (name : Bytes) : List VariableSave :=
  if saves.any fun e => e.var.name == name then saves
  else match findVariable s.vars name with
    | some v => ⟨⟨name, v.value, v.attributes⟩, true⟩ :: saves
    | none => ⟨⟨name, none, 0⟩, false⟩ :: saves

/-- `csh_state_save_variables`. -/
def saveVariables (s : State F) (names : List Bytes) : StateResult × List VariableSave :=
  if !names.all validName then (.invalid, [])
  else (.ok, names.foldl s.saveVariable [])

/-- One entry of `csh_state_restore_variables`. -/
def restoreVariable (s : State F) (entry : VariableSave) : State F :=
  let name := entry.var.name
  let s := if name == ascii "PATH" then s.hashClear else s
  let vars := unlinkVariable name s.vars
  { s with vars := if entry.present then entry.var :: vars else vars }

/-- `csh_state_restore_variables`. -/
def restoreVariables (s : State F) (saves : List VariableSave) : State F :=
  saves.foldl restoreVariable s

/-! ### Positional parameters and metadata -/

/-- `csh_state_set_parameters` for a vector without `NULL` elements. -/
def setParameters (s : State F) (arguments : List Bytes) : State F :=
  { s with arguments, info := { s.info with argumentCount := arguments.length } }

/-- `csh_state_push_parameters`; the caller keeps the vector it displaced. -/
def pushParameters (s : State F) (arguments : List Bytes) : State F × (List Bytes × ℕ) :=
  (s.setParameters arguments, (s.arguments, s.info.argumentCount))

/-- `csh_state_pop_parameters`. -/
def popParameters (s : State F) (save : List Bytes × ℕ) : State F :=
  { s with arguments := save.1, info := { s.info with argumentCount := save.2 } }

/-- `csh_state_parameter`: index 0 is `$0`. -/
def parameter (s : State F) (index : ℕ) : Option Bytes :=
  if s.info.argumentCount < index then none
  else match index with
    | 0 => some s.arg0
    | index + 1 => s.arguments[index]?

/-- `csh_state_set_status`. -/
def setStatus (s : State F) (status : ℤ) : StateResult × State F :=
  if status < 0 then (.invalid, s)
  else (.ok, { s with info := { s.info with lastStatus := status } })

/-- `csh_state_set_background`. -/
def setBackground (s : State F) (pid : ℤ) : StateResult × State F :=
  if pid < 0 then (.invalid, s)
  else (.ok, { s with info := { s.info with backgroundPid := pid } })

/-- `csh_state_update_options`. -/
def updateOptions (s : State F) (set clear : UInt32) : StateResult × State F :=
  if (set ||| clear) &&& ~~~Opt.shell != 0 || set &&& clear != 0 then (.invalid, s)
  else (.ok, { s with info := { s.info with options := (s.info.options ||| set) &&& ~~~clear } })

/-- `csh_state_set_errexit_ignored`. -/
def setErrexitIgnored (s : State F) (depth : ℕ) : State F :=
  { s with info := { s.info with errexitIgnored := depth } }

/-- `csh_state_set_function_depth`. -/
def setFunctionDepth (s : State F) (depth : ℕ) : State F :=
  { s with info := { s.info with functionDepth := depth } }

/-- `csh_state_set_source_depth`. -/
def setSourceDepth (s : State F) (depth : ℕ) : State F :=
  { s with info := { s.info with sourceDepth := depth } }

/-- `csh_state_set_getopts_offset`. -/
def setGetoptsOffset (s : State F) (offset : ℕ) : State F := { s with getoptsOffset := offset }

/-! ### Functions and the command hash -/

/-- `csh_state_function`. -/
def function (s : State F) (name : Bytes) : Option F := Table.find? name s.functions

/-- `csh_state_set_function`; no payload removes the definition. -/
def setFunction (s : State F) (name : Bytes) (function : Option F) : StateResult × State F :=
  if !validName name then (.invalid, s)
  else match function with
    | none => (.ok, { s with functions := Table.erase name s.functions })
    | some f => (.ok, { s with functions := Table.put name f s.functions })

/-- `csh_state_hash_get`. -/
def hashGet (s : State F) (name : Bytes) : Option Bytes := Table.find? name s.hashes

/-- `csh_state_hash_set`. -/
def hashSet (s : State F) (name path : Bytes) : State F :=
  { s with hashes := Table.put name path s.hashes }

end State

/-! ### Aliases -/

namespace Alias

/-- A byte of an alias name. -/
def nameByte (byte : UInt8) : Bool :=
  inRange 'a' 'z' byte || inRange 'A' 'Z' byte || inRange '0' '9' byte ||
    (ascii "!%,-@_").contains byte

/-- `valid_name` of `alias.c`, and `csh_alias_name_valid`. -/
def validName (name : Bytes) : Bool := !name.isEmpty && name.all nameByte

/-- `strcmp(a, b) < 0`: bytes compare as unsigned, and a proper initial segment
comes first. -/
def below : Bytes → Bytes → Bool
  | _, [] => false
  | [], _ :: _ => true
  | a :: as, b :: bs => if a < b then true else if b < a then false else below as bs

/-- `csh_aliases_get`. -/
def get (aliases : List (Bytes × Bytes)) (name : Bytes) : Option Bytes :=
  if validName name then Table.find? name aliases else none

/-- `set_alias` and `csh_aliases_set`; `none` is a rejected definition. -/
def set (aliases : List (Bytes × Bytes)) (name value : Bytes) : Option (List (Bytes × Bytes)) :=
  if validName name then some (Table.insert below name value aliases) else none

/-- `csh_aliases_unset`; `none` is a rejected name. -/
def unset (aliases : List (Bytes × Bytes)) (name : Bytes) : Option (List (Bytes × Bytes)) :=
  if validName name then some (Table.erase name aliases) else none

/-- `csh_aliases_clone`: the copy is rebuilt entry by entry through the setter. -/
def clone : Option (List (Bytes × Bytes)) → Option (Option (List (Bytes × Bytes)))
  | none => some none
  | some source => (source.foldlM (fun acc e => set acc e.1 e.2) []).map some

end Alias

namespace State

variable {F : Type}

/-- `csh_state_aliases`: the table, allocated on first use. -/
def withAliases (s : State F) : State F := { s with aliases := some (s.aliases.getD []) }

/-! ### Copies and checkpoints -/

/-- One function of `csh_state_clone`. -/
def cloneFunction (copy : State F) (entry : Bytes × F) : Option (State F) :=
  match copy.setFunction entry.1 (some entry.2) with
  | (.ok, copy) => some copy
  | _ => none

/-- `csh_state_clone`.  Variables are copied node by node; functions, aliases and
hashed commands are rebuilt through their setters. -/
def clone (s : State F) : Option (State F) := do
  -- `csh_state_set_parameters` reads `argument_count` elements of the vector
  let arguments := s.arguments.take s.info.argumentCount
  if arguments.length < s.info.argumentCount then none
  let copy : State F := ({ arg0 := s.arg0 } : State F).setParameters arguments
  let copy := { copy with vars := s.vars }
  let copy ← s.functions.foldlM cloneFunction copy
  let aliases ← Alias.clone s.aliases
  let copy := { copy with aliases }
  let copy := s.hashes.foldl (fun c e => c.hashSet e.1 e.2) copy
  some { copy with managesLocale := s.managesLocale,
                   getoptsOffset := s.getoptsOffset, info := s.info }

/-- `csh_state_save`: a checkpoint is a clone kept aside. -/
def save (s : State F) : Option (State F) := s.clone

/-- `csh_state_restore`: the checkpoint replaces the whole state. -/
def restore (_s checkpoint : State F) : State F := checkpoint

end State

end CShell
