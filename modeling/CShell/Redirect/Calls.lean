import CShell.Redirect.Model

/-!
# What one redirection does

A redirection that opens a file takes some free descriptor, moves the description to its
target and gives the descriptor back.  Which one it took does not show: here each call
is reduced to its net effect on the table.

## Main definitions

* `acquire host item world` — the open file description an item asks the file system for.
* `netEffect host item k` — a redirection without the descriptor it borrows.
* `spares items reserved t` — the numbers a private backup may get, in rising order.

## Main results

* `saveDescriptor_eq` — a backup gets the lowest spare number, or there is none.
* `applyOne_eq` — **a redirection does what its net effect says, if it finds a free
  descriptor to borrow.**
* `applyAll_frame` — redirections change nothing but their targets.
* `applyAll_hide` — **descriptors that are no operands do not show.**
-/

namespace CShell

namespace Redirect

open List

variable {W D : Type} {limit : ℕ}

/-! ### Backups -/

/-- A number a private backup may get. -/
def isSpare (items : List Item) (reserved : List ℕ) (t : Slots limit (Slot D)) (n : ℕ) : Bool :=
  decide (3 ≤ n) && (t.get n).isNone && !reserved.contains n &&
    !isOperand n items

/-- The numbers a private backup may get, in rising order. -/
def spares (items : List Item) (reserved : List ℕ) (t : Slots limit (Slot D)) : List ℕ :=
  (List.range limit).filter fun n => isSpare items reserved t n

variable {items : List Item} {n fd : ℕ} {reserved : List ℕ} {t : Slots limit (Slot D)}
  {k : Kernel W D limit} {slot : Slot D}

theorem isSpare_iff :
    isSpare items reserved t n = true ↔
      3 ≤ n ∧ t.get n = none ∧ n ∉ reserved ∧ isOperand n items = false := by
  unfold isSpare
  simp only [Bool.and_eq_true, decide_eq_true_eq, Option.isNone_iff_eq_none, Bool.not_eq_true',
    contains_eq_mem, decide_eq_false_iff_not]
  tauto

theorem mem_spares :
    n ∈ spares items reserved t ↔ n < limit ∧ isSpare items reserved t n = true := by
  simp [spares]

theorem pairwise_spares (items : List Item) (reserved : List ℕ) (t : Slots limit (Slot D)) :
    (spares items reserved t).Pairwise (· < ·) :=
  List.Pairwise.filter _ pairwise_lt_range

/-- The head of the spare numbers is the lowest of them. -/
theorem spares_eq_cons {rest : List ℕ} (h : spares items reserved t = n :: rest) :
    n < limit ∧ isSpare items reserved t n = true ∧ n ∉ rest ∧
      ∀ m, m < limit → isSpare items reserved t m = true → n ≤ m := by
  have hmem : n ∈ spares items reserved t := by
    rw [h]
    exact mem_cons_self
  have hsorted := pairwise_spares items reserved t
  rw [h, pairwise_cons] at hsorted
  refine ⟨(mem_spares.mp hmem).1, (mem_spares.mp hmem).2, ?_, ?_⟩
  · intro hn
    exact lt_irrefl n (hsorted.1 n hn)
  · intro m hm hspare
    have hm' : m ∈ n :: rest := h ▸ mem_spares.mpr ⟨hm, hspare⟩
    rcases mem_cons.mp hm' with rfl | hm'
    · exact le_refl m
    · exact le_of_lt (hsorted.1 m hm')

/-- The table after a backup took a number and, perhaps, left another. -/
theorem spares_after {t t' : Slots limit (Slot D)}
    {rest : List ℕ} (h : spares items reserved t = n :: rest)
    (hn : t'.get n ≠ none)
    (hsame : ∀ m, m ≠ n → isOperand m items = false → (t'.get m = none ↔ t.get m = none)) :
    spares items reserved t' = rest := by
  obtain ⟨-, -, hnot, -⟩ := spares_eq_cons h
  have hiff : ∀ m, isSpare items reserved t' m
      = (isSpare items reserved t m && decide (m ≠ n)) := by
    intro m
    rw [Bool.eq_iff_iff]
    simp only [Bool.and_eq_true, decide_eq_true_eq, isSpare_iff]
    constructor
    · rintro ⟨h3, hfree, hres, hop⟩
      have hmn : m ≠ n := fun e => hn (e ▸ hfree)
      exact ⟨⟨h3, (hsame m hmn hop).mp hfree, hres, hop⟩, hmn⟩
    · rintro ⟨⟨h3, hfree, hres, hop⟩, hmn⟩
      exact ⟨h3, (hsame m hmn hop).mpr hfree, hres, hop⟩
  have hfilter : spares items reserved t' = (spares items reserved t).filter fun m => decide (m ≠ n) := by
    unfold spares
    rw [filter_filter]
    congr 1
    funext m
    rw [hiff m, Bool.and_comm]
  rw [hfilter, h, filter_cons]
  simp only [ne_eq, not_true_eq_false, decide_false, Bool.false_eq_true, if_false]
  rw [filter_eq_self]
  intro m hm
  have hmn : m ≠ n := fun e => hnot (e ▸ hm)
  simpa using hmn

/-- A duplicate that is closed again leaves the kernel as it was. -/
theorem closeDescriptor_put (h : k.table.get n = none) (slot : Slot D) :
    ({ k with table := k.table.put n slot } : Kernel W D limit).closeDescriptor n = k := by
  unfold Kernel.closeDescriptor
  simp only [Slots.clear_put h]

/-- The search from `minimum` on, with turns enough. -/
theorem saveDescriptorLoop_eq (hopen : k.table.get fd = some slot)
    (fuel minimum : ℕ) (hfuel : limit < fuel + minimum) (hmin : 3 ≤ minimum)
    (hbelow : ∀ n, n < minimum → isSpare items reserved k.table n = false) :
    (∃ err, spares items reserved k.table = [] ∧
      saveDescriptorLoop items reserved fd fuel minimum k = (.error err, k)) ∨
    (∃ n rest, spares items reserved k.table = n :: rest ∧
      saveDescriptorLoop items reserved fd fuel minimum k
        = (.ok n, { k with table := k.table.put n ⟨slot.description, true⟩ })) := by
  -- nothing is spare where the search cannot go on
  have hnone : (∀ n, n < limit → isSpare items reserved k.table n = false) →
      spares items reserved k.table = [] := by
    intro hall
    rw [eq_nil_iff_forall_not_mem]
    intro n hn
    obtain ⟨hlt, hspare⟩ := mem_spares.mp hn
    rw [hall n hlt] at hspare
    cases hspare
  induction fuel generalizing minimum with
  | zero =>
    left
    refine ⟨.mfile, hnone fun n hn => hbelow n (by omega), rfl⟩
  | succ fuel ih =>
    simp only [saveDescriptorLoop, Kernel.duplicateFrom, hopen]
    by_cases hend : limit ≤ minimum
    · left
      rw [if_pos hend]
      exact ⟨.inval, hnone fun n hn => hbelow n (by omega), rfl⟩
    · rw [if_neg hend]
      cases hfree : k.table.firstFree minimum with
      | none =>
        left
        refine ⟨.mfile, hnone fun n hn => ?_, rfl⟩
        by_cases hle : minimum ≤ n
        · have hheld := Slots.firstFree_eq_none hfree hle hn
          rw [Bool.eq_false_iff, Ne, isSpare_iff]
          exact fun h => hheld h.2.1
        · exact hbelow n (by omega)
      | some result =>
        obtain ⟨hle, hlt, hget, hheld⟩ := Slots.firstFree_eq_some hfree
        -- between the minimum and the result everything is held
        have hbelow' : ∀ n, n < result → isSpare items reserved k.table n = false := by
          intro n hn
          by_cases hn' : n < minimum
          · exact hbelow n hn'
          · rw [Bool.eq_false_iff, Ne, isSpare_iff]
            exact fun h => hheld n (by omega) hn h.2.1
        simp only
        by_cases hgood : (!reserved.contains result && !isOperand result items) = true
        · -- the result is spare, and nothing below it is
          rw [if_pos hgood]
          right
          have hspare : isSpare items reserved k.table result = true := by
            simp only [Bool.and_eq_true, Bool.not_eq_true', contains_eq_mem,
              decide_eq_false_iff_not] at hgood
            exact isSpare_iff.mpr ⟨by omega, hget, hgood.1, hgood.2⟩
          cases hs : spares items reserved k.table with
          | nil =>
            have hmem := mem_spares.mpr ⟨hlt, hspare⟩
            rw [hs] at hmem
            cases hmem
          | cons n rest =>
            obtain ⟨-, hnspare, -, hlowest⟩ := spares_eq_cons hs
            have hle' : n ≤ result := hlowest result hlt hspare
            have hnr : n = result := by
              by_contra hne
              rw [hbelow' n (by omega)] at hnspare
              cases hnspare
            exact ⟨n, rest, rfl, by rw [hnr]⟩
        · -- the result is given back, and the search goes on above it
          rw [if_neg hgood, closeDescriptor_put hget]
          have hbad : isSpare items reserved k.table result = false := by
            rw [Bool.eq_false_iff, Ne, isSpare_iff]
            rintro ⟨-, -, hres, hop⟩
            exact hgood (by simp [hres, hop])
          have hbelow'' : ∀ n, n < result + 1 → isSpare items reserved k.table n = false := by
            intro n hn
            rcases Nat.lt_succ_iff_lt_or_eq.mp hn with hn | rfl
            · exact hbelow' n hn
            · exact hbad
          by_cases hmax : result = intMax
          · left
            have hbounded := k.bounded
            rw [if_pos hmax]
            exact ⟨.mfile, hnone fun n hn => hbelow'' n (by omega), rfl⟩
          · rw [if_neg hmax]
            exact ih (result + 1) (by omega) (by omega) hbelow''

/-- **A backup gets the lowest spare number**, and fails only where there is none. -/
theorem saveDescriptor_eq (hopen : k.table.get fd = some slot) :
    (∃ err, spares items reserved k.table = [] ∧
      saveDescriptor items reserved fd k = (.error err, k)) ∨
    (∃ n rest, spares items reserved k.table = n :: rest ∧
      saveDescriptor items reserved fd k
        = (.ok n, { k with table := k.table.put n ⟨slot.description, true⟩ })) := by
  refine saveDescriptorLoop_eq hopen (limit + 1) 3 (by omega) (le_refl 3) fun n hn => ?_
  rw [Bool.eq_false_iff, Ne, isSpare_iff]
  intro h
  exact absurd h.1 (by omega)

/-! ### What the file system is asked for -/

/-- The `write` loop of `here_document`, on the description of the new file. -/
def writeDocument (host : Host W D) (description : D) : ℕ → Bytes → W → Except Errno Unit × W
  | _, [], world => (.ok (), world)
  | 0, _ :: _, world => (.error .io, world)
  | fuel + 1, text, world =>
    match host.write world description (text.take 16384) with
    | (.error err, world) => (.error err, world)
    | (.ok 0, world) => (.error .io, world)
    | (.ok written, world) => writeDocument host description fuel (text.drop written) world

/-- The description of a here-document. -/
def acquireDocument (host : Host W D) (text : Bytes) (world : W) : Except Errno D × W :=
  match host.mkstemp world with
  | (.error err, world) => (.error err, world)
  | (.ok (description, path), world) =>
    match host.unlink world path with
    | (.error err, world) => (.error err, (host.unlink world path).2)
    | (.ok (), world) =>
      match writeDocument host description text.length text world with
      | (.error err, world) => (.error err, world)
      | (.ok (), world) =>
        match host.rewind world description with
        | (.error err, world) => (.error err, world)
        | (.ok (), world) => (.ok description, world)

/-- The description of a file that must not be an existing regular one. -/
def acquireNoclobber (host : Host W D) (path : Bytes) (world : W) : Except Errno D × W :=
  match host.openFile world path { access := .write, create := true, exclusive := true } with
  | (.ok description, world) => (.ok description, world)
  | (.error err, world) =>
    if err ≠ .exist then (.error err, world)
    else match host.stat world path with
      | (.error err, world) => (.error err, world)
      | (.ok true, world) => (.error .exist, world)
      | (.ok false, world) =>
        match host.openFile world path { access := .write } with
        | (.error err, world) => (.error err, world)
        | (.ok description, world) =>
          match host.fstat world description with
          | (.ok false, world) => (.ok description, world)
          | (.ok true, world) => (.error .exist, world)
          | (.error err, world) => (.error err, world)

/-- The open file description an item asks the file system for. -/
def acquire (host : Host W D) (item : Item) (world : W) : Except Errno D × W :=
  match item.kind with
  | .noclobber => acquireNoclobber host (item.path.getD []) world
  | .heredoc => acquireDocument host item.document world
  | kind => host.openFile world (item.path.getD []) (openFlags kind)

/-- What the file system answered, as the answer of a call that borrows `fd`. -/
def borrow (k : Kernel W D limit) (fd : ℕ) : Except Errno D × W → Except Errno ℕ × Kernel W D limit
  | (.error err, world) => (.error err, { k with world })
  | (.ok description, world) =>
    (.ok fd, { k with table := k.table.put fd ⟨description, true⟩, world })

theorem openFile_eq (host : Host W D)
    (hfree : k.table.firstFree 0 = some fd) (path : Bytes) (flags : OpenFlags) :
    k.openFile host path flags = borrow k fd (host.openFile k.world path flags) := by
  unfold Kernel.openFile Kernel.openWith
  rw [hfree]
  dsimp only
  cases host.openFile k.world path flags with
  | mk result world =>
    cases result with
    | error err => rfl
    | ok description => rfl

/-- A call on a descriptor just taken is one on its description. -/
theorem onDescription_put {α : Type}
    (h : k.table.get fd = some slot) (call : W → D → Except Errno α × W) :
    k.onDescription fd call
      = ((call k.world slot.description).1, { k with world := (call k.world slot.description).2 }) := by
  unfold Kernel.onDescription
  rw [h]

theorem openNoclobber_eq (host : Host W D)
    (hfree : k.table.firstFree 0 = some fd) (path : Bytes) :
    openNoclobber host path k = borrow k fd (acquireNoclobber host path k.world) := by
  obtain ⟨-, hlt, hget, -⟩ := Slots.firstFree_eq_some hfree
  unfold openNoclobber acquireNoclobber
  rw [openFile_eq host hfree]
  cases host.openFile k.world path { access := .write, create := true, exclusive := true } with
  | mk result world =>
    cases result with
    | ok description => rfl
    | error err =>
      simp only [borrow]
      by_cases hexist : err ≠ .exist
      · rw [if_pos hexist, if_pos hexist]
      · rw [if_neg hexist, if_neg hexist]
        cases host.stat world path with
        | mk result world =>
          cases result with
          | error err => rfl
          | ok regular =>
            cases regular with
            | true => rfl
            | false =>
              dsimp only
              have hopen := openFile_eq host (k := { k with world }) hfree path { access := .write }
              rw [hopen]
              cases host.openFile world path { access := .write } with
              | mk result world =>
                cases result with
                | error err => rfl
                | ok description =>
                  -- the file is looked at through the descriptor, which is closed again
                  -- if the file is not wanted
                  have hslot : (k.table.put fd ⟨description, true⟩).get fd
                      = some ⟨description, true⟩ := Slots.get_put_self hlt _
                  have hclose : ∀ world : W, ({ k with
                      table := k.table.put fd ⟨description, true⟩,
                      world := world } : Kernel W D limit).closeDescriptor fd
                      = { k with world := world } := by
                    intro world
                    simp only [Kernel.closeDescriptor, Slots.clear_put hget]
                  simp only [borrow]
                  rw [onDescription_put hslot]
                  dsimp only
                  cases host.fstat world description with
                  | mk result world =>
                    cases result with
                    | error err => simp only [hclose]
                    | ok regular =>
                      cases regular with
                      | true => simp only [hclose]
                      | false => rfl

theorem writeAll_eq (host : Host W D) (fuel : ℕ) (text : Bytes)
    (h : k.table.get fd = some slot) :
    writeAll host fd fuel text k
      = ((writeDocument host slot.description fuel text k.world).1,
         { k with world := (writeDocument host slot.description fuel text k.world).2 }) := by
  induction fuel generalizing text k with
  | zero =>
    cases text with
    | nil => rfl
    | cons byte text => rfl
  | succ fuel ih =>
    cases text with
    | nil => rfl
    | cons byte text =>
      simp only [writeAll, writeDocument]
      rw [onDescription_put h]
      cases host.write k.world slot.description ((byte :: text).take 16384) with
      | mk result world =>
        cases result with
        | error err => rfl
        | ok written =>
          cases written with
          | zero => rfl
          | succ n =>
            exact ih _ (k := { k with world := world }) h

theorem hereDocument_eq (host : Host W D)
    (hfree : k.table.firstFree 0 = some fd) (text : Bytes) :
    hereDocument host text k = borrow k fd (acquireDocument host text k.world) := by
  obtain ⟨-, hlt, hget, -⟩ := Slots.firstFree_eq_some hfree
  unfold hereDocument acquireDocument Kernel.openWith
  rw [hfree]
  dsimp only
  cases host.mkstemp k.world with
  | mk result world =>
    cases result with
    | error err => rfl
    | ok made =>
      obtain ⟨description, path⟩ := made
      dsimp only
      have hclose : ∀ (cloexec : Bool) (world : W), ({ k with
          table := k.table.put fd ⟨description, cloexec⟩,
          world := world } : Kernel W D limit).closeDescriptor fd = { k with world := world } := by
        intro cloexec world
        simp only [Kernel.closeDescriptor, Slots.clear_put hget]
      have hslot : ∀ cloexec : Bool, (k.table.put fd ⟨description, cloexec⟩).get fd
          = some ⟨description, cloexec⟩ := fun cloexec => Slots.get_put_self hlt _
      cases host.unlink world path with
      | mk result world =>
        cases result with
        | error err =>
          dsimp only
          rw [hclose]
          rfl
        | ok done =>
          simp only [Kernel.setDescriptorFlags, hslot, Slots.put_put]
          rw [writeAll_eq host _ _ (hslot true)]
          cases writeDocument host description text.length text world with
          | mk result world =>
            cases result with
            | error err => simp only [hclose, borrow]
            | ok done =>
              dsimp only
              rw [onDescription_put (hslot true)]
              dsimp only
              cases host.rewind world description with
              | mk result world =>
                cases result with
                | error err => simp only [hclose, borrow]
                | ok done => rfl

/-- **An item that opens something borrows the lowest free descriptor for it.** -/
theorem openItem_eq (host : Host W D) (item : Item)
    (hfree : k.table.firstFree 0 = some fd) :
    openItem host item k = borrow k fd (acquire host item k.world) := by
  unfold openItem acquire
  cases item.kind with
  | noclobber => exact openNoclobber_eq host hfree _
  | heredoc => exact hereDocument_eq host hfree _
  | read => exact openFile_eq host hfree _ _
  | write => exact openFile_eq host hfree _ _
  | append => exact openFile_eq host hfree _ _
  | readWrite => exact openFile_eq host hfree _ _
  | clobber => exact openFile_eq host hfree _ _
  | dupRead => exact openFile_eq host hfree _ _
  | dupWrite => exact openFile_eq host hfree _ _
  | close => exact openFile_eq host hfree _ _

/-- With every descriptor taken nothing is opened. -/
theorem openItem_exhausted (host : Host W D) (item : Item)
    (hfree : k.table.firstFree 0 = none) : openItem host item k = (.error .mfile, k) := by
  have hfile : ∀ path flags, k.openFile host path flags = (.error .mfile, k) := by
    intro path flags
    unfold Kernel.openFile Kernel.openWith
    rw [hfree]
  unfold openItem
  cases item.kind with
  | noclobber =>
    dsimp only
    unfold openNoclobber
    rw [hfile]
    rfl
  | heredoc =>
    dsimp only
    unfold hereDocument Kernel.openWith
    rw [hfree]
  | read => exact hfile _ _
  | write => exact hfile _ _
  | append => exact hfile _ _
  | readWrite => exact hfile _ _
  | clobber => exact hfile _ _
  | dupRead => exact hfile _ _
  | dupWrite => exact hfile _ _
  | close => exact hfile _ _

/-! ### Net effects -/

/-- A redirection without the descriptor it borrows. -/
def netEffect (host : Host W D) (item : Item) (k : Kernel W D limit) :
    Except Errno Unit × Kernel W D limit :=
  match item.kind with
  | .close => (.ok (), { k with table := k.table.clear item.target })
  | .dupRead | .dupWrite =>
    match k.table.get item.source with
    | none => (.error .badf, k)
    | some slot =>
      if forbidden item.kind (host.access slot.description) then (.error .badf, k)
      else if limit ≤ item.target then (.error .badf, k)
      else (.ok (), { k with table := k.table.put item.target ⟨slot.description, false⟩ })
  | _ =>
    match acquire host item k.world with
    | (.error err, world) => (.error err, { k with world })
    | (.ok description, world) =>
      if limit ≤ item.target then (.error .badf, { k with world })
      else (.ok (), { k with table := k.table.put item.target ⟨description, false⟩, world })

/-- `dup2` onto the target and the flag, from an open source. -/
theorem duplicateTo_flag {item : Item}
    (hslot : k.table.get item.source = some slot) :
    (match k.duplicateTo item.source item.target with
      | (.error err, k) => (.error err, k)
      | (.ok (), k) => k.setDescriptorFlags item.target false)
    = if limit ≤ item.target then (.error .badf, k)
      else (.ok (), { k with table := k.table.put item.target ⟨slot.description, false⟩ }) := by
  simp only [Kernel.duplicateTo, hslot]
  by_cases hlimit : limit ≤ item.target
  · rw [if_pos hlimit, if_pos hlimit]
  · rw [if_neg hlimit, if_neg hlimit]
    by_cases hsame : item.source = item.target
    · -- `dup2` onto itself does nothing, the flag is cleared all the same
      rw [if_pos hsame]
      simp only [Kernel.setDescriptorFlags, ← hsame, hslot]
    · rw [if_neg hsame]
      simp only [Kernel.setDescriptorFlags, Slots.get_put_self (not_le.mp hlimit), Slots.put_put]

/-- A duplication onto the target, and its flag. -/
theorem applyOne_dup (host : Host W D) {item : Item} (hkind : item.kind.isDup = true)
    (k : Kernel W D limit) : applyOne host item k = netEffect host item k := by
  have hcase : item.kind = .dupRead ∨ item.kind = .dupWrite := by
    cases hk : item.kind <;> simp_all [Kind.isDup]
  unfold applyOne netEffect
  rcases hcase with hk | hk
  all_goals
    rw [hk]
    dsimp only
    cases hsrc : k.table.get item.source with
    | none => rfl
    | some slot =>
      dsimp only
      split
      · rfl
      · exact duplicateTo_flag hsrc

/-- A borrowed descriptor is moved to the target. -/
theorem borrow_move (host : Host W D) (item : Item) (hlt : fd < limit)
    (hget : k.table.get fd = none) :
    (match borrow k fd (acquire host item k.world) with
      | (.error err, k) => ((.error err, k) : Except Errno Unit × Kernel W D limit)
      | (.ok fd, k) =>
        if fd = item.target then k.setDescriptorFlags fd false
        else ((k.duplicateTo fd item.target).1, (k.duplicateTo fd item.target).2.closeDescriptor fd))
    = match acquire host item k.world with
      | (.error err, world) => (.error err, { k with world })
      | (.ok description, world) =>
        if limit ≤ item.target then (.error .badf, { k with world })
        else (.ok (), { k with table := k.table.put item.target ⟨description, false⟩, world }) := by
  cases acquire host item k.world with
  | mk result world =>
    cases result with
    | error err => rfl
    | ok description =>
      simp only [borrow]
      have hslot : (k.table.put fd ⟨description, true⟩).get fd
          = some ⟨description, true⟩ := Slots.get_put_self hlt _
      by_cases htarget : fd = item.target
      · have hnot : ¬limit ≤ item.target := by omega
        rw [if_pos htarget, if_neg hnot]
        simp only [Kernel.setDescriptorFlags, hslot, Slots.put_put]
        rw [htarget]
      · rw [if_neg htarget]
        simp only [Kernel.duplicateTo, hslot]
        by_cases hlimit : limit ≤ item.target
        · rw [if_pos hlimit, if_pos hlimit]
          simp only [Kernel.closeDescriptor, Slots.clear_put hget]
        · rw [if_neg hlimit, if_neg hlimit, if_neg htarget]
          simp only [Kernel.closeDescriptor, Slots.clear_put_comm _ htarget, Slots.clear_put hget]

/-- An opened description ends up at the target, and the borrowed descriptor is free
again. -/
theorem applyOne_open (host : Host W D) {item : Item} (hdup : item.kind.isDup = false)
    (hclose : item.kind ≠ .close)
    (hfree : k.table.firstFree 0 = some fd) :
    applyOne host item k = netEffect host item k := by
  obtain ⟨-, hlt, hget, -⟩ := Slots.firstFree_eq_some hfree
  unfold applyOne netEffect
  cases hk : item.kind with
  | dupRead => rw [hk] at hdup; cases hdup
  | dupWrite => rw [hk] at hdup; cases hdup
  | close => exact absurd hk hclose
  | read | write | append | readWrite | clobber | noclobber | heredoc =>
    dsimp only
    rw [openItem_eq host item hfree]
    exact borrow_move host item hlt hget

/-- **A redirection does what its net effect says**, or it needs a descriptor and none is
free. -/
theorem applyOne_eq (host : Host W D) (item : Item) (k : Kernel W D limit) :
    applyOne host item k = netEffect host item k ∨
      (k.table.firstFree 0 = none ∧ applyOne host item k = (.error .mfile, k)) := by
  by_cases hdup : item.kind.isDup = true
  · exact Or.inl (applyOne_dup host hdup k)
  · have hdup : item.kind.isDup = false := by simpa using hdup
    by_cases hclose : item.kind = .close
    · left
      unfold applyOne netEffect
      rw [hclose]
      rfl
    · cases hfree : k.table.firstFree 0 with
      | some fd => exact Or.inl (applyOne_open host hdup hclose hfree)
      | none =>
        refine Or.inr ⟨rfl, ?_⟩
        unfold applyOne
        cases hk : item.kind with
        | dupRead => rw [hk] at hdup; cases hdup
        | dupWrite => rw [hk] at hdup; cases hdup
        | close => exact absurd hk hclose
        | read | write | append | readWrite | clobber | noclobber | heredoc =>
          dsimp only
          rw [openItem_exhausted host item hfree]

/-! ### Frames and hidden descriptors -/

/-- The only slot a net effect touches is the target. -/
theorem netEffect_frame (host : Host W D) (item : Item) (k : Kernel W D limit)
    (hn : n ≠ item.target) : (netEffect host item k).2.table.get n = k.table.get n := by
  have hput : ∀ slot : Slot D, (k.table.put item.target slot).get n = k.table.get n :=
    fun slot => Slots.get_put_of_ne _ hn slot
  unfold netEffect
  split
  · simp [hn]
  · split
    · rfl
    · split
      · rfl
      · split
        · rfl
        · exact hput _
  · split
    · rfl
    · split
      · rfl
      · split
        · rfl
        · exact hput _
  · split
    · rfl
    · split
      · rfl
      · exact hput _

theorem applyOne_frame (host : Host W D) (item : Item) (k : Kernel W D limit)
    (hn : n ≠ item.target) : (applyOne host item k).2.table.get n = k.table.get n := by
  rcases applyOne_eq host item k with h | ⟨-, h⟩
  · rw [h]
    exact netEffect_frame host item k hn
  · rw [h]

/-- **Redirections change nothing but their targets.** -/
theorem applyAll_frame (host : Host W D) (items : List (Item × ℕ)) (k : Kernel W D limit)
    (hn : ∀ item ∈ items, n ≠ item.1.target) :
    (applyAll host items k).2.table.get n = k.table.get n := by
  induction items generalizing k with
  | nil => rfl
  | cons head rest ih =>
    obtain ⟨item, index⟩ := head
    have hhead := applyOne_frame host item k (hn (item, index) mem_cons_self)
    simp only [applyAll]
    cases hone : applyOne host item k with
    | mk result k' =>
      rw [hone] at hhead
      cases result with
      | error err => exact hhead
      | ok done =>
        dsimp only
        rw [ih k' fun i hi => hn i (mem_cons_of_mem _ hi)]
        exact hhead

/-- The kernel with some descriptors left out. -/
def Kernel.hide (hidden : List ℕ) (k : Kernel W D limit) : Kernel W D limit :=
  { k with table := k.table.hide hidden }

/-- No operand of the item is among the hidden descriptors. -/
def Item.Avoids (item : Item) (hidden : List ℕ) : Prop :=
  item.target ∉ hidden ∧ (item.kind.isDup = true → item.source ∉ hidden)

/-- A net effect does not depend on hidden descriptors. -/
theorem netEffect_hide (host : Host W D) {item : Item} {hidden : List ℕ} (h : item.Avoids hidden)
    (k : Kernel W D limit) :
    netEffect host item (k.hide hidden)
      = ((netEffect host item k).1, (netEffect host item k).2.hide hidden) := by
  have hput : ∀ (slot : Slot D), (k.table.hide hidden).put item.target slot
      = (k.table.put item.target slot).hide hidden := fun slot => (Slots.hide_put h.1 _ slot).symm
  have hdup : item.kind.isDup = true →
      (k.table.hide hidden).get item.source = k.table.get item.source :=
    fun hk => Slots.get_hide_of_notMem (h.2 hk) _
  unfold netEffect Kernel.hide
  cases hk : item.kind with
  | close => simp only [Slots.hide_clear]
  | dupRead | dupWrite =>
    have hsrc := hdup (by rw [hk]; rfl)
    dsimp only
    rw [hsrc]
    cases k.table.get item.source with
    | none => rfl
    | some slot =>
      dsimp only
      split
      · rfl
      · split
        · rfl
        · simp only [hput]
  | read | write | append | readWrite | clobber | noclobber | heredoc =>
    dsimp only
    cases acquire host item k.world with
    | mk result world =>
      cases result with
      | error err => rfl
      | ok description =>
        dsimp only
        split
        · rfl
        · simp only [hput]

/-- A free descriptor stays free when others are hidden. -/
theorem firstFree_hide {hidden : List ℕ}
    (h : (t.hide hidden).firstFree 0 = none) : t.firstFree 0 = none := by
  cases ht : t.firstFree 0 with
  | none => rfl
  | some fd =>
    obtain ⟨hle, hlt, hget, -⟩ := Slots.firstFree_eq_some ht
    have hheld := Slots.firstFree_eq_none h hle hlt
    rw [Slots.get_hide, hget, ite_self] at hheld
    exact absurd rfl hheld

/-- The number that is free throughout, so that every item has a descriptor to borrow. -/
def Roomy (items : List Item) (t : Slots limit (Slot D)) : Prop :=
  ∃ n, n < limit ∧ t.get n = none ∧ ∀ item ∈ items, n ≠ item.target

theorem Roomy.firstFree (h : Roomy items t) :
    t.firstFree 0 ≠ none := by
  obtain ⟨n, hlt, hget, -⟩ := h
  obtain ⟨m, hm, -⟩ := Slots.exists_firstFree (Nat.zero_le n) hlt hget
  rw [hm]
  exact Option.some_ne_none m

/-- **Descriptors that are no operands do not show**: with them and without them the same
items succeed, with the same effect on the rest. -/
theorem applyAll_hide (host : Host W D) {hidden : List ℕ} {all : List Item} (items : List (Item × ℕ))
    (hall : ∀ item ∈ items, item.1 ∈ all) (havoid : ∀ item ∈ all, item.Avoids hidden)
    (k : Kernel W D limit) (hroom : Roomy all k.table) :
    applyAll host items (k.hide hidden)
      = ((applyAll host items k).1, (applyAll host items k).2.hide hidden) := by
  induction items generalizing k with
  | nil => rfl
  | cons head rest ih =>
    obtain ⟨item, index⟩ := head
    have hmem : item ∈ all := hall (item, index) mem_cons_self
    -- neither run is short of descriptors
    have hone : applyOne host item k = netEffect host item k :=
      (applyOne_eq host item k).resolve_right fun h => hroom.firstFree h.1
    have hone' : applyOne host item (k.hide hidden) = netEffect host item (k.hide hidden) :=
      (applyOne_eq host item (k.hide hidden)).resolve_right fun h =>
        hroom.firstFree (firstFree_hide h.1)
    have hroom' : Roomy all (netEffect host item k).2.table := by
      obtain ⟨n, hlt, hget, hne⟩ := hroom
      refine ⟨n, hlt, ?_, hne⟩
      rw [netEffect_frame host item k (hne item hmem)]
      exact hget
    simp only [applyAll]
    rw [hone, hone', netEffect_hide host (havoid item hmem)]
    cases hnet : netEffect host item k with
    | mk result k' =>
      rw [hnet] at hroom'
      cases result with
      | error err => rfl
      | ok done => exact ih (fun i hi => hall i (mem_cons_of_mem _ hi)) k' hroom'

end Redirect

end CShell
