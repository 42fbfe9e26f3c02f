import CShell.Lib.Slots
import CShell.Text

/-!
# Redirections

`redirect.c` over a model of the descriptor table: a number stands for an open file
description and a close-on-exec flag, and a call takes the lowest free number.  The
file system is a parameter that answers the calls which open, inspect and write files;
it never sees a descriptor number.

A call that fails with `EINTR` is repeated by the source until it does not, so here a
call is what the last repetition does.  `close` of an open descriptor succeeds.  Memory
is not exhausted, and a redirection kind is one of the enumeration.

## Main definitions

* `Host` — the file system, and what it knows of an open file description.
* `Kernel` — the descriptor table of the process, and the state of the file system.
* `saveDescriptor`, `applyOne` — a private backup, and one redirection.
* `Process` — the kernel side and the stack of live saves, top first.
* `Process.applyReserved`, `Process.restore` — the two ends of a redirection.

## References

`src/redirect.c`, `include/cshell/redirect.h`.
-/

namespace CShell

namespace Redirect

/-- The error numbers the source tells apart. -/
inductive Errno
  | badf
  | mfile
  | inval
  | exist
  | io
  | other (number : ℕ)
  deriving DecidableEq, Repr, Inhabited

/-- `O_ACCMODE` of an open file description. -/
inductive Access
  | read
  | write
  | readWrite
  deriving DecidableEq, Repr, Inhabited

/-- The flags of an `open`; `O_CLOEXEC` is always among them. -/
structure OpenFlags where
  access : Access
  create : Bool := false
  truncate : Bool := false
  append : Bool := false
  exclusive : Bool := false
  deriving DecidableEq, Repr, Inhabited

/-- A descriptor: its open file description and `FD_CLOEXEC`. -/
structure Slot (D : Type) where
  description : D
  cloexec : Bool
  deriving DecidableEq, Repr, Inhabited

/-- The file system, over its states `W` and open file descriptions `D`.  `stat` and
`fstat` say whether the file is a regular one. -/
structure Host (W D : Type) where
  access : D → Access
  openFile : W → Bytes → OpenFlags → Except Errno D × W
  stat : W → Bytes → Except Errno Bool × W
  fstat : W → D → Except Errno Bool × W
  mkstemp : W → Except Errno (D × Bytes) × W
  unlink : W → Bytes → Except Errno Unit × W
  write : W → D → Bytes → Except Errno ℕ × W
  rewind : W → D → Except Errno Unit × W

/-- `INT_MAX`. -/
def intMax : ℕ := 2147483647

/-- The descriptor table of a process whose numbers stay below `limit`, which are `int`
values, and the file system. -/
@[ext]
structure Kernel (W D : Type) (limit : ℕ) where
  table : Slots limit (Slot D)
  world : W
  bounded : limit ≤ intMax + 1

/-! ### Redirections as data -/

/-- `enum csh_redirect_kind`. -/
inductive Kind
  | read
  | write
  | append
  | readWrite
  | clobber
  | dupRead
  | dupWrite
  | close
  | noclobber
  | heredoc
  deriving DecidableEq, Repr, Inhabited

/-- A duplication, which has a source descriptor. -/
def Kind.isDup : Kind → Bool
  | .dupRead | .dupWrite => true
  | _ => false

/-- A file operation, which has a path. -/
def Kind.isFile : Kind → Bool
  | .read | .write | .append | .readWrite | .clobber | .noclobber => true
  | _ => false

/-- `struct csh_redirect`; a `NULL` pointer is `none`. -/
structure Item where
  kind : Kind
  fd : ℤ
  sourceFd : ℤ := 0
  path : Option Bytes := none
  data : Option Bytes := none
  length : ℕ := 0
  deriving DecidableEq, Repr, Inhabited

namespace Item

/-- The target as a descriptor number. -/
def target (item : Item) : ℕ := item.fd.toNat

/-- The source as a descriptor number. -/
def source (item : Item) : ℕ := item.sourceFd.toNat

/-- The `length` bytes at `data`. -/
def document (item : Item) : Bytes := (item.data.getD []).take item.length

end Item

/-- `struct csh_error`, of which the status is always 1. -/
structure Failure where
  message : String
  errno : Errno
  argumentIndex : ℕ
  deriving DecidableEq, Repr, Inhabited

/-- The checks `csh_redirect_validate` makes on one item. -/
def validateItem (item : Item) (index : ℕ) : Option Failure :=
  if item.fd < 0 then some ⟨"invalid redirection descriptor", .badf, index⟩
  else if item.kind.isFile && item.path.isNone then some ⟨"missing redirection path", .inval, index⟩
  else if item.kind.isDup && decide (item.sourceFd < 0) then
    some ⟨"invalid source descriptor", .badf, index⟩
  else if item.kind == .heredoc && item.length != 0 && item.data.isNone then
    some ⟨"missing here-document data", .inval, index⟩
  else none

/-- `csh_redirect_validate`: the first complaint. -/
def validate (items : List Item) : Option Failure :=
  items.zipIdx 1 |>.findSome? fun (item, index) => validateItem item index

/-- `is_operand`. -/
def isOperand (fd : ℕ) (items : List Item) : Bool :=
  items.any fun item => decide ((fd : ℤ) = item.fd) ||
    (item.kind.isDup && decide ((fd : ℤ) = item.sourceFd))

/-! ### System calls -/

namespace Kernel

variable {W D : Type} {limit : ℕ}

/-- `fcntl(fd, F_GETFD)`. -/
def descriptorFlags (k : Kernel W D limit) (fd : ℕ) : Option Bool :=
  (k.table.get fd).map Slot.cloexec

/-- `set_descriptor_flags`. -/
def setDescriptorFlags (k : Kernel W D limit) (fd : ℕ) (cloexec : Bool) :
    Except Errno Unit × Kernel W D limit :=
  match k.table.get fd with
  | none => (.error .badf, k)
  | some slot => (.ok (), { k with table := k.table.put fd { slot with cloexec } })

/-- `duplicate_to`: `dup2` onto itself changes nothing, else the flag is cleared. -/
def duplicateTo (k : Kernel W D limit) (source target : ℕ) :
    Except Errno Unit × Kernel W D limit :=
  match k.table.get source with
  | none => (.error .badf, k)
  | some slot =>
    if limit ≤ target then (.error .badf, k)
    else if source = target then (.ok (), k)
    else (.ok (), { k with table := k.table.put target ⟨slot.description, false⟩ })

/-- `close_descriptor`, to which a descriptor that is not open is as good as closed. -/
def closeDescriptor (k : Kernel W D limit) (fd : ℕ) : Kernel W D limit :=
  { k with table := k.table.clear fd }

/-- `fcntl(fd, F_DUPFD_CLOEXEC, minimum)`. -/
def duplicateFrom (k : Kernel W D limit) (fd minimum : ℕ) :
    Except Errno ℕ × Kernel W D limit :=
  match k.table.get fd with
  | none => (.error .badf, k)
  | some slot =>
    if limit ≤ minimum then (.error .inval, k)
    else match k.table.firstFree minimum with
      | none => (.error .mfile, k)
      | some result =>
        (.ok result, { k with table := k.table.put result ⟨slot.description, true⟩ })

/-- A call that makes a new open file description and gives it the lowest number. -/
def openWith {α : Type} (k : Kernel W D limit) (call : W → Except Errno (D × α) × W) (cloexec : Bool) :
    Except Errno (ℕ × α) × Kernel W D limit :=
  match k.table.firstFree 0 with
  | none => (.error .mfile, k)
  | some fd =>
    match call k.world with
    | (.error err, world) => (.error err, { k with world })
    | (.ok (description, extra), world) =>
      (.ok (fd, extra), { k with table := k.table.put fd ⟨description, cloexec⟩, world })

/-- `open(path, flags | O_CLOEXEC, 0666)`. -/
def openFile (host : Host W D) (k : Kernel W D limit) (path : Bytes) (flags : OpenFlags) :
    Except Errno ℕ × Kernel W D limit :=
  let call := fun world =>
    match host.openFile world path flags with
    | (.error err, world) => (.error err, world)
    | (.ok description, world) => (.ok (description, ()), world)
  match k.openWith call true with
  | (.error err, k) => (.error err, k)
  | (.ok (fd, _), k) => (.ok fd, k)

/-- A call on the open file description of a descriptor. -/
def onDescription {α : Type} (k : Kernel W D limit) (fd : ℕ) (call : W → D → Except Errno α × W) :
    Except Errno α × Kernel W D limit :=
  match k.table.get fd with
  | none => (.error .badf, k)
  | some slot =>
    let (result, world) := call k.world slot.description
    (result, { k with world })

end Kernel

section Items

variable {W D : Type} {limit : ℕ}

/-! ### Private backups -/

/-- The loop of `save_descriptor`: a number that is an operand or reserved is closed
again, and the search goes on above it. -/
def saveDescriptorLoop (items : List Item) (reserved : List ℕ) (fd : ℕ) :
    ℕ → ℕ → Kernel W D limit → Except Errno ℕ × Kernel W D limit
  | 0, _, k => (.error .mfile, k)
  | fuel + 1, minimum, k =>
    match k.duplicateFrom fd minimum with
    | (.error err, k) => (.error err, k)
    | (.ok result, k) =>
      if !reserved.contains result && !isOperand result items then (.ok result, k)
      else
        let k := k.closeDescriptor result
        if result = intMax then (.error .mfile, k)
        else saveDescriptorLoop items reserved fd fuel (result + 1) k

/-- `save_descriptor`.  Each turn takes a higher number, so `limit` turns are enough. -/
def saveDescriptor (items : List Item) (reserved : List ℕ) (fd : ℕ) (k : Kernel W D limit) :
    Except Errno ℕ × Kernel W D limit :=
  saveDescriptorLoop items reserved fd (limit + 1) 3 k

/-! ### One redirection -/

/-- The `write` loop of `here_document`, on what is left of the text. -/
def writeAll (host : Host W D) (fd : ℕ) :
    ℕ → Bytes → Kernel W D limit → Except Errno Unit × Kernel W D limit
  | _, [], k => (.ok (), k)
  | 0, _ :: _, k => (.error .io, k)
  | fuel + 1, text, k =>
    match k.onDescription fd fun world description =>
        host.write world description (text.take 16384) with
    | (.error err, k) => (.error err, k)
    | (.ok 0, k) => (.error .io, k)
    | (.ok written, k) => writeAll host fd fuel (text.drop written) k

/-- `here_document`. -/
def hereDocument (host : Host W D) (text : Bytes) (k : Kernel W D limit) :
    Except Errno ℕ × Kernel W D limit :=
  match k.openWith host.mkstemp false with
  | (.error err, k) => (.error err, k)
  | (.ok (fd, path), k) =>
    match host.unlink k.world path with
    | (.error err, world) =>
      -- one more attempt to remove the file, whatever it does
      let k := { k with world }.closeDescriptor fd
      (.error err, { k with world := (host.unlink k.world path).2 })
    | (.ok (), world) =>
      match { k with world }.setDescriptorFlags fd true with
      | (.error err, k) => (.error err, k.closeDescriptor fd)
      | (.ok (), k) =>
        match writeAll host fd text.length text k with
        | (.error err, k) => (.error err, k.closeDescriptor fd)
        | (.ok (), k) =>
          match k.onDescription fd host.rewind with
          | (.error err, k) => (.error err, k.closeDescriptor fd)
          | (.ok (), k) => (.ok fd, k)

/-- `open_noclobber`. -/
def openNoclobber (host : Host W D) (path : Bytes) (k : Kernel W D limit) :
    Except Errno ℕ × Kernel W D limit :=
  match k.openFile host path { access := .write, create := true, exclusive := true } with
  | (.ok fd, k) => (.ok fd, k)
  | (.error err, k) =>
    if err ≠ .exist then (.error err, k)
    else match host.stat k.world path with
      | (.error err, world) => (.error err, { k with world })
      | (.ok true, world) => (.error .exist, { k with world })
      | (.ok false, world) =>
        match { k with world }.openFile host path { access := .write } with
        | (.error err, k) => (.error err, k)
        | (.ok fd, k) =>
          match k.onDescription fd host.fstat with
          | (.ok false, k) => (.ok fd, k)
          | (.ok true, k) => (.error .exist, k.closeDescriptor fd)
          | (.error err, k) => (.error err, k.closeDescriptor fd)

/-- The flags `apply_one` opens a file with. -/
def openFlags : Kind → OpenFlags
  | .read => { access := .read }
  | .append => { access := .write, create := true, append := true }
  | .readWrite => { access := .readWrite, create := true }
  | _ => { access := .write, create := true, truncate := true }

/-- The new descriptor of a redirection that opens something. -/
def openItem (host : Host W D) (item : Item) (k : Kernel W D limit) :
    Except Errno ℕ × Kernel W D limit :=
  match item.kind with
  | .noclobber => openNoclobber host (item.path.getD []) k
  | .heredoc => hereDocument host item.document k
  | kind => k.openFile host (item.path.getD []) (openFlags kind)

/-- A description opened for writing only cannot be duplicated for reading, and the
other way round. -/
def forbidden (kind : Kind) (access : Access) : Bool :=
  (kind == .dupRead && access == .write) || (kind == .dupWrite && access == .read)

/-- `apply_one`. -/
def applyOne (host : Host W D) (item : Item) (k : Kernel W D limit) :
    Except Errno Unit × Kernel W D limit :=
  match item.kind with
  | .close => (.ok (), k.closeDescriptor item.target)
  | .dupRead | .dupWrite =>
    match k.table.get item.source with
    | none => (.error .badf, k)
    | some slot =>
      if forbidden item.kind (host.access slot.description) then (.error .badf, k)
      else match k.duplicateTo item.source item.target with
        | (.error err, k) => (.error err, k)
        | (.ok (), k) => k.setDescriptorFlags item.target false
  | _ =>
    match openItem host item k with
    | (.error err, k) => (.error err, k)
    | (.ok fd, k) =>
      if fd = item.target then k.setDescriptorFlags fd false
      else
        let (result, k) := k.duplicateTo fd item.target
        (result, k.closeDescriptor fd)

/-- The items in order, up to the first that fails. -/
def applyAll (host : Host W D) :
    List (Item × ℕ) → Kernel W D limit → Except (Errno × ℕ) Unit × Kernel W D limit
  | [], k => (.ok (), k)
  | (item, index) :: rest, k =>
    match applyOne host item k with
    | (.error err, k) => (.error (err, index), k)
    | (.ok (), k) => applyAll host rest k

/-! ### Saves -/

/-- `struct saved_descriptor`; no backup is a target that was closed. -/
structure SavedDescriptor where
  target : ℕ
  backup : Option ℕ
  flags : Bool
  argumentIndex : ℕ
  deriving DecidableEq, Repr, Inhabited

/-- `struct csh_redirect_save`; the token stands for its address. -/
structure Save where
  token : ℕ
  entries : List SavedDescriptor
  deriving DecidableEq, Repr, Inhabited

/-- The process as far as `redirect.c` sees it; `saves` is `active_saves`. -/
structure Process (W D : Type) (limit : ℕ) where
  kernel : Kernel W D limit
  saves : List Save
  nextToken : ℕ

/-- Move a backup that is an operand of the new list out of its way. -/
def relocateEntry (items : List Item) (reserved : List ℕ) (entry : SavedDescriptor)
    (k : Kernel W D limit) : Except Errno SavedDescriptor × Kernel W D limit :=
  match entry.backup with
  | none => (.ok entry, k)
  | some old =>
    if !isOperand old items then (.ok entry, k)
    else match saveDescriptor items reserved old k with
      | (.error err, k) => (.error err, k)
      | (.ok moved, k) => (.ok { entry with backup := some moved }, k.closeDescriptor old)

/-- The entries of one outer save; those before a failure stay moved. -/
def relocateEntries (items : List Item) (reserved : List ℕ) :
    List SavedDescriptor → Kernel W D limit → Option Errno × List SavedDescriptor × Kernel W D limit
  | [], k => (none, [], k)
  | entry :: rest, k =>
    match relocateEntry items reserved entry k with
    | (.error err, k) => (some err, entry :: rest, k)
    | (.ok entry, k) =>
      let (result, rest, k) := relocateEntries items reserved rest k
      (result, entry :: rest, k)

/-- All outer saves, top first. -/
def relocateSaves (items : List Item) (reserved : List ℕ) :
    List Save → Kernel W D limit → Option Errno × List Save × Kernel W D limit
  | [], k => (none, [], k)
  | save :: rest, k =>
    match relocateEntries items reserved save.entries k with
    | (some err, entries, k) => (some err, { save with entries } :: rest, k)
    | (none, entries, k) =>
      let (result, rest, k) := relocateSaves items reserved rest k
      (result, { save with entries } :: rest, k)

/-- `discard_save`. -/
def discard (entries : List SavedDescriptor) (k : Kernel W D limit) : Kernel W D limit :=
  entries.foldl (fun k entry => (entry.backup.map k.closeDescriptor).getD k) k

/-- The snapshot of the targets, each taken once; a failure gives all backups up. -/
def snapshot (items : List Item) (reserved : List ℕ) :
    List (Item × ℕ) → List SavedDescriptor → Kernel W D limit →
      Except (Errno × ℕ) (List SavedDescriptor) × Kernel W D limit
  | [], entries, k => (.ok entries, k)
  | (item, index) :: rest, entries, k =>
    if entries.any fun entry => entry.target == item.target then
      snapshot items reserved rest entries k
    else match k.descriptorFlags item.target with
      | none => snapshot items reserved rest (entries ++ [⟨item.target, none, false, index⟩]) k
      | some flags =>
        match saveDescriptor items reserved item.target k with
        | (.error err, k) => (.error (err, index), discard entries k)
        | (.ok backup, k) =>
          snapshot items reserved rest (entries ++ [⟨item.target, some backup, flags, index⟩]) k

/-- One entry of `csh_redirect_restore`. -/
def restoreEntry (entry : SavedDescriptor) (k : Kernel W D limit) :
    Except Errno Unit × Kernel W D limit :=
  match entry.backup with
  | none => (.ok (), k.closeDescriptor entry.target)
  | some backup =>
    match k.duplicateTo backup entry.target with
    | (.error err, k) => (.error err, k.closeDescriptor backup)
    | (.ok (), k) =>
      let (restored, k) := k.setDescriptorFlags entry.target entry.flags
      (restored, k.closeDescriptor backup)

/-- Every entry is restored; the first failure is the one reported. -/
def restoreEntries :
    List SavedDescriptor → Kernel W D limit → Except Failure Unit × Kernel W D limit
  | [], k => (.ok (), k)
  | entry :: rest, k =>
    match restoreEntry entry k with
    | (.ok (), k) => restoreEntries rest k
    | (.error err, k) =>
      (.error ⟨"cannot restore redirection descriptor", err, entry.argumentIndex⟩,
        (restoreEntries rest k).2)

end Items

namespace Process

variable {W D : Type} {limit : ℕ}

/-- `csh_redirect_restore`.  No token is a `NULL` save; one that is not live would be a
dangling pointer, which no caller has. -/
def restore (p : Process W D limit) (token : Option ℕ) : Except Failure Unit × Process W D limit :=
  match token.bind fun token => p.saves.find? fun save => save.token == token with
  | none => (.ok (), p)
  | some saved =>
    let saves := p.saves.eraseP fun save => save.token == saved.token
    let (result, kernel) := restoreEntries saved.entries p.kernel
    (result, { p with saves, kernel })

/-- The last part of `csh_redirect_apply_reserved`: the items in order over a snapshot
that is in place, undone if one of them fails. -/
def carryOut (host : Host W D) (p : Process W D limit) (items : List Item) (token : ℕ) :
    Except Failure (Option ℕ) × Process W D limit :=
  match applyAll host (items.zipIdx 1) p.kernel with
  | (.ok (), kernel) => (.ok (some token), { p with kernel })
  | (.error (err, index), kernel) =>
    match { p with kernel }.restore (some token) with
    | (.error failure, p) => (.error failure, p)
    | (.ok (), p) => (.error ⟨"cannot apply redirection", err, index⟩, p)

/-- `csh_redirect_apply_reserved`. -/
def applyReserved (host : Host W D) (p : Process W D limit) (items : List Item)
    (reserved : List ℕ) : Except Failure (Option ℕ) × Process W D limit :=
  match validate items with
  | some failure => (.error failure, p)
  | none =>
    if items.isEmpty then (.ok none, p)
    else match relocateSaves items reserved p.saves p.kernel with
      | (some err, saves, kernel) =>
        (.error ⟨"cannot relocate private descriptor", err, 0⟩, { p with saves, kernel })
      | (none, saves, kernel) =>
        match snapshot items reserved (items.zipIdx 1) [] kernel with
        | (.error (err, index), kernel) =>
          (.error ⟨"cannot save redirection descriptor", err, index⟩, { p with saves, kernel })
        | (.ok entries, kernel) =>
          carryOut host ⟨kernel, ⟨p.nextToken, entries⟩ :: saves, p.nextToken + 1⟩ items p.nextToken

/-- `csh_redirect_apply`. -/
def apply (host : Host W D) (p : Process W D limit) (items : List Item) :
    Except Failure (Option ℕ) × Process W D limit := p.applyReserved host items []

end Process

end Redirect

end CShell
