import CShell.Lib.Components
import CShell.Text

/-!
# Logical path normalisation

`normalize` rewrites an absolute path in its own buffer.  What it has written ends at
`used`, what it has not read begins at `read`, and the path written so far is cut off by a
temporary terminator whenever a `..` asks whether it is a directory.

The reference folds the components of the path on a stack.  The two agree, but for one
thing: the buffer form backs up as far as index 1, which is inside a root of two slashes.

## Main definitions

* `Cursor`, `turn`, `normalize` — the loop of the source.
* `canonical` — the fold of the components on a stack.
* `Slips` — a `..` comes at the root `//`, or one component behind it.
* `Represents` — the path written so far is a root and a stack of names.

## Main results

* `Represents.turn` — one turn reads one component.
* `normalizeLoop_eq` — the loop is a fold over the components.
* `Reaches.represents` — at any turn, nothing unread is overwritten.
* `normalizes_iff` — **a path is normalised unless it slips.**

## References

`src/builtin.c` (`normalize`).
-/

namespace CShell
namespace Directory

open Components List

/-- The byte between components. -/
def sep : UInt8 := byteOf '/'

def dot : Bytes := [byteOf '.']

def dotDot : Bytes := [byteOf '.', byteOf '.']

/-! ### The source -/

/-- `s[i]`. -/
def byteAt (s : Bytes) (i : ℕ) : UInt8 := s.getD i 0

/-- The text in a buffer, which ends at the first NUL. -/
def textOf (s : Bytes) : Bytes := s.takeWhile (· != 0)

/-- `memmove(s + target, s + source, n)`. -/
def memmove (s : Bytes) (target source n : ℕ) : Bytes :=
  s.take target ++ (s.drop source).take n ++ s.drop (target + n)

/-- `while (s[i] == '/') ++i`. -/
def skipSlashes (s : Bytes) (i : ℕ) : ℕ := i + ((s.drop i).takeWhile (· == sep)).length

/-- `strcspn(s + i, "/")`. -/
def componentLength (s : Bytes) (i : ℕ) : ℕ :=
  ((s.drop i).takeWhile fun byte => byte != sep && byte != 0).length

/-- `while (used > 1 && s[used-1] != '/') --used`. -/
def backUp (s : Bytes) : ℕ → ℕ
  | 0 => 0
  | used + 1 => if 1 < used + 1 ∧ byteAt s used ≠ sep then backUp s used else used + 1

/-- What `..` leaves of the first `used` bytes. -/
def popped (s : Bytes) (used : ℕ) : ℕ :=
  let backed := backUp s used
  if 1 < backed then backed - 1 else backed

/-- The buffer and the two indices of the loop. -/
structure Cursor where
  s : Bytes
  read : ℕ
  used : ℕ
  deriving DecidableEq, Repr

/-- `normalize` at its loop. -/
def start (s : Bytes) : Cursor where
  s := s
  read := skipSlashes s 0
  used := if byteAt s 0 == sep && byteAt s 1 == sep && byteAt s 2 != sep then 2 else 1

/-- One turn of the loop; `isDirectory` is `directory_stat` and `S_ISDIR`. -/
def turn (isDirectory : Bytes → Bool) (c : Cursor) : Option Cursor :=
  let n := componentLength c.s c.read
  let next := skipSlashes c.s (c.read + n)
  if n = 1 ∧ byteAt c.s c.read = byteOf '.' then some { c with read := next }
  else if n = 2 ∧ byteAt c.s c.read = byteOf '.' ∧ byteAt c.s (c.read + 1) = byteOf '.' then
    -- the terminator stands for the length of the call only
    if isDirectory (textOf (c.s.set c.used 0)) then
      some { c with read := next, used := popped c.s c.used }
    else none
  else
    let (s, used) :=
      if byteAt c.s (c.used - 1) ≠ sep then (c.s.set c.used sep, c.used + 1) else (c.s, c.used)
    some ⟨memmove s used c.read n, next, used + n⟩

/-- The loop.  The outer `none` is for turns that run out. -/
def normalizeLoop (isDirectory : Bytes → Bool) : ℕ → Cursor → Option (Option Bytes)
  | 0, _ => none
  | turns + 1, c =>
    if byteAt c.s c.read = 0 then some (some (textOf (c.s.set c.used 0)))
    else
      match turn isDirectory c with
      | none => some none
      | some c => normalizeLoop isDirectory turns c

/-- `normalize` on a buffer; a turn reads at least one byte. -/
def normalize (isDirectory : Bytes → Bool) (s : Bytes) : Option (Option Bytes) :=
  normalizeLoop isDirectory s.length (start s)

/-- A cursor the loop gets to from another one. -/
inductive Reaches (isDirectory : Bytes → Bool) (c : Cursor) : Cursor → Prop
  | refl : Reaches isDirectory c c
  | step {d e : Cursor} (h : Reaches isDirectory c d) (hmore : byteAt d.s d.read ≠ 0)
      (hturn : turn isDirectory d = some e) : Reaches isDirectory c e

/-! ### The reference -/

/-- The path of a root and names below it. -/
def rendered (root : Bytes) (names : List Bytes) : Bytes := root ++ joined sep names

/-- The root of an absolute path: exactly two slashes are kept. -/
def rootOf (path : Bytes) : Bytes :=
  if (path.takeWhile (· == sep)).length = 2 then [sep, sep] else [sep]

/-- A component on the stack of names. -/
def place (isDirectory : Bytes → Bool) (root : Bytes) (names : List Bytes) (name : Bytes) :
    Option (List Bytes) :=
  if name = dot then some names
  else if name = dotDot then
    if isDirectory (rendered root names) then some names.dropLast else none
  else some (names ++ [name])

/-- The canonical form of an absolute path. -/
def canonical (isDirectory : Bytes → Bool) (path : Bytes) : Option Bytes :=
  ((components sep path).foldlM (place isDirectory (rootOf path)) []).map (rendered (rootOf path))

/-- The stack without a look at the file system. -/
def stacked (names : List Bytes) (name : Bytes) : List Bytes :=
  if name = dot then names else if name = dotDot then names.dropLast else names ++ [name]

/-- The path has a root of two slashes, and a `..` comes when at most one name is left. -/
def Slips (path : Bytes) : Prop :=
  rootOf path = [sep, sep] ∧
    ∃ before after, components sep path = before ++ dotDot :: after ∧
      (before.foldl stacked []).length ≤ 1

/-- The path is normalised, and what is written never gets ahead of what is read. -/
structure Normalizes (isDirectory : Bytes → Bool) (path : Bytes) : Prop where
  result : normalize isDirectory (path ++ [0]) = some (canonical isDirectory path)
  behind : ∀ c, Reaches isDirectory (start (path ++ [0])) c →
    c.used ≤ c.read ∧ c.s.drop c.read = (path ++ [0]).drop c.read

/-! ### The buffer -/

variable {s : Bytes}

theorem length_set_memmove {target source n : ℕ} (ht : target + n ≤ s.length)
    (hs : source + n ≤ s.length) : (memmove s target source n).length = s.length := by
  simp only [memmove, length_append, length_take, length_drop]
  omega

theorem take_memmove {target source n : ℕ} (ht : target + n ≤ s.length)
    (hs : source + n ≤ s.length) :
    (memmove s target source n).take (target + n) = s.take target ++ (s.drop source).take n := by
  have hlength : (s.take target ++ (s.drop source).take n).length = target + n := by
    simp only [length_append, length_take, length_drop]
    omega
  rw [memmove, ← hlength, take_left]

theorem drop_memmove {target source n i : ℕ} (ht : target + n ≤ s.length)
    (hs : source + n ≤ s.length) (hi : target + n ≤ i) :
    (memmove s target source n).drop i = s.drop i := by
  have hlength : (s.take target ++ (s.drop source).take n).length = target + n := by
    simp only [length_append, length_take, length_drop]
    omega
  rw [memmove, drop_append, hlength, drop_eq_nil_of_le (by omega), nil_append,
    drop_drop, Nat.add_sub_cancel' hi]

/-- A byte in front of an index. -/
theorem byteAt_take {s text : Bytes} {used i : ℕ} (h : s.take used = text) (hi : i < text.length) :
    byteAt s i = text.getD i 0 := by
  subst h
  have hused : i < used := by
    rw [length_take] at hi
    omega
  simp [byteAt, getD_eq_getElem?_getD, hused]

/-- A byte from an index on. -/
theorem byteAt_drop {s text : Bytes} {read : ℕ} (h : s.drop read = text) (i : ℕ) :
    byteAt s (read + i) = text.getD i 0 := by
  subst h
  simp [byteAt, getD_eq_getElem?_getD]

/-- A terminator cuts off the text in front of it. -/
theorem textOf_set {used : ℕ} (hused : used < s.length) (h : NulFree (s.take used)) :
    textOf (s.set used 0) = s.take used := by
  rw [set_eq_take_append_cons_drop, if_pos hused, textOf, takeWhile_append_of_pos]
  · simp
  · intro byte hbyte
    have hne : byte ≠ 0 := fun he => h (he ▸ hbyte)
    simpa using hne

/-- The search for a slash backwards ends behind the last one. -/
theorem backUp_append (text name : Bytes) (hname : sep ∉ name) (htext : text.getLast? = some sep)
    {used : ℕ} (hused : used = (text ++ name).length) (h : s.take used = text ++ name) :
    backUp s used = text.length := by
  induction name using reverseRecOn generalizing used with
  | nil =>
    rw [append_nil] at h hused
    cases used with
    | zero => exact hused
    | succ used =>
      have hlast : byteAt s used = sep := by
        rw [byteAt_take h (by omega), getD_eq_getElem?_getD,
          show used = text.length - 1 by omega, ← getLast?_eq_getElem?, htext]
        rfl
      rw [backUp, if_neg (fun hc => hc.2 hlast), hused]
  | append_singleton name last ih =>
    rw [← append_assoc] at h hused
    rw [length_append, length_singleton] at hused
    subst hused
    have hlast : byteAt s (text ++ name).length = last := by
      rw [byteAt_take h (by simp)]
      simp
    have hne : last ≠ sep := fun he => hname (by simp [he])
    have hlong : 1 < (text ++ name).length + 1 := by
      cases text with
      | nil => cases htext
      | cons => simp
    rw [backUp, if_pos ⟨hlong, by rwa [hlast]⟩]
    refine ih (fun hmem => hname (mem_append_left _ hmem)) rfl ?_
    have htake := congrArg (take (text ++ name).length) h
    rwa [take_take, Nat.min_eq_left (by omega), take_left] at htake

/-! ### A root and a stack of names -/

/-- A root as `normalize` leaves it. -/
def IsRoot (root : Bytes) : Prop := root = [sep] ∨ root = [sep, sep]

/-- Names without a slash and a NUL. -/
def AreNames (names : List Bytes) : Prop := ∀ name ∈ names, IsName sep name ∧ NulFree name

variable {root : Bytes} {names : List Bytes}

theorem AreNames.isName (h : AreNames names) : ∀ name ∈ names, IsName sep name :=
  fun name hname => (h name hname).1

theorem AreNames.dropLast (h : AreNames names) : AreNames names.dropLast :=
  fun name hname => h name (dropLast_subset names hname)

theorem AreNames.concat {name : Bytes} (h : AreNames names) (hname : IsName sep name)
    (hnul : NulFree name) : AreNames (names ++ [name]) := by
  intro other hother
  rcases mem_append.mp hother with hother | hother
  · exact h other hother
  · rw [mem_singleton.mp hother]
    exact ⟨hname, hnul⟩

theorem IsRoot.getLast? (h : IsRoot root) : root.getLast? = some sep := by
  rcases h with rfl | rfl <;> rfl

theorem isRoot_rootOf (path : Bytes) : IsRoot (rootOf path) := by
  unfold rootOf
  split
  · exact .inr rfl
  · exact .inl rfl

@[simp] theorem rendered_nil (root : Bytes) : rendered root [] = root := by simp [rendered]

theorem rendered_concat (hnames : names ≠ []) (root name : Bytes) :
    rendered root (names ++ [name]) = rendered root names ++ sep :: name := by
  rw [rendered, rendered, joined_concat hnames, append_assoc]

/-- The path without its last name is a beginning of the path. -/
theorem rendered_dropLast (h : 1 < names.length) (root : Bytes) :
    ∃ tail, rendered root names = rendered root names.dropLast ++ tail := by
  rcases eq_nil_or_concat names with rfl | ⟨init, last, rfl⟩
  · cases h
  · rw [concat_eq_append] at h ⊢
    have hinit : init ≠ [] := by
      rintro rfl
      exact Nat.lt_irrefl 1 h
    rw [dropLast_concat, rendered_concat hinit]
    exact ⟨_, rfl⟩

theorem nulFree_rendered (hroot : IsRoot root) (h : AreNames names) :
    NulFree (rendered root names) := by
  intro hmem
  rcases mem_append.mp hmem with hmem | hmem
  · have hsep : (0 : UInt8) = sep := by rcases hroot with rfl | rfl <;> simpa using hmem
    exact absurd hsep (by decide)
  · rcases mem_joined hmem with hsep | ⟨name, hname, hmem⟩
    · exact absurd hsep (by decide)
    · exact (h name hname).2 hmem

/-- The path ends with a slash only at its root. -/
theorem getLast?_rendered (hroot : IsRoot root) (h : AreNames names) :
    (rendered root names).getLast? = some sep ↔ names = [] := by
  constructor
  · intro hlast
    by_contra hne
    have hjoined : joined sep names ≠ [] := fun he => hne ((joined_eq_nil h.isName).mp he)
    rw [rendered, getLast?_append_of_ne_nil _ hjoined] at hlast
    exact getLast?_joined_ne h.isName hlast
  · rintro rfl
    rw [rendered_nil, hroot.getLast?]

theorem length_rendered_pos (hroot : IsRoot root) : 0 < (rendered root names).length := by
  rcases hroot with rfl | rfl <;> simp [rendered]

/-- What `..` leaves: nothing but one slash when at most one name is there. -/
theorem popped_rendered (hroot : IsRoot root) (h : AreNames names) {used : ℕ}
    (hused : used = (rendered root names).length) (hs : s.take used = rendered root names) :
    popped s used =
      if names.length ≤ 1 then 1 else (rendered root names.dropLast).length := by
  rcases eq_nil_or_concat names with rfl | ⟨init, last, rfl⟩
  · rw [rendered_nil] at hused hs
    have hback := backUp_append root [] (by simp) hroot.getLast? (by simpa using hused)
      (by simpa using hs)
    rw [popped, hback]
    rcases hroot with rfl | rfl <;> rfl
  · rw [concat_eq_append] at h hused hs ⊢
    have hlast : sep ∉ last := (h last (by simp)).1.free
    by_cases hinit : init = []
    · subst hinit
      have hback := backUp_append root last hlast hroot.getLast? hused hs
      rw [popped, hback]
      rcases hroot with rfl | rfl <;> rfl
    · have hsplit : rendered root (init ++ [last]) = (rendered root init ++ [sep]) ++ last := by
        rw [rendered_concat hinit, append_assoc, singleton_append]
      rw [hsplit] at hused hs
      have hback := backUp_append (rendered root init ++ [sep]) last hlast (by simp) hused hs
      have hpos := @length_rendered_pos root init hroot
      have hlong : ¬(init ++ [last]).length ≤ 1 := by
        have := length_pos_iff.mpr hinit
        rw [length_append, length_singleton]
        omega
      rw [popped, hback, if_neg hlong, dropLast_concat, length_append,
        length_singleton, if_pos (by omega), Nat.add_sub_cancel]

/-! ### The loop -/

/-- A component as the buffer form places it: the last name goes with the root of two
slashes. -/
def placed (isDirectory : Bytes → Bool) (stack : Bytes × List Bytes) (name : Bytes) :
    Option (Bytes × List Bytes) :=
  if name = dot then some stack
  else if name = dotDot then
    if isDirectory (rendered stack.1 stack.2) then
      some (if stack.2.length ≤ 1 then ([sep], []) else (stack.1, stack.2.dropLast))
    else none
  else some (stack.1, stack.2 ++ [name])

/-- What is written is a root with names, and what is not read is what it was. -/
structure Represents (path root : Bytes) (names : List Bytes) (c : Cursor) : Prop where
  isRoot : IsRoot root
  areNames : AreNames names
  length_eq : c.s.length = path.length + 1
  written : c.s.take c.used = rendered root names
  used_eq : c.used = (rendered root names).length
  inside : c.read ≤ path.length
  behind : c.used ≤ c.read
  unread : c.s.drop c.read = path.drop c.read ++ [0]
  -- a slash was read behind the last name, unless the path is at its end
  gap : names ≠ [] → path.drop c.read ≠ [] → c.used < c.read
  fresh : (path.drop c.read).head? ≠ some sep

variable {path : Bytes} {c : Cursor}

theorem Represents.byteAt_read (h : Represents path root names c) (i : ℕ) :
    byteAt c.s (c.read + i) = (path.drop c.read ++ [0]).getD i 0 := byteAt_drop h.unread i

/-- The loop ends with the path. -/
theorem Represents.byteAt_eq_zero (h : Represents path root names c) (hpath : NulFree path) :
    byteAt c.s c.read = 0 ↔ path.drop c.read = [] := by
  have hbyte := h.byteAt_read 0
  rw [Nat.add_zero] at hbyte
  rw [hbyte]
  cases hrest : path.drop c.read with
  | nil => simp
  | cons byte rest =>
    have hmem : byte ∈ path := mem_of_mem_drop (hrest ▸ mem_cons_self)
    have hne : byte ≠ 0 := fun he => hpath (he ▸ hmem)
    simpa using hne

/-- The text of the path written so far. -/
theorem Represents.textOf_written (h : Represents path root names c) :
    textOf (c.s.set c.used 0) = rendered root names := by
  have hused : c.used < c.s.length := by
    have := h.behind
    have := h.inside
    rw [h.length_eq]
    omega
  rw [textOf_set hused (h.written ▸ nulFree_rendered h.isRoot h.areNames), h.written]

/-- The component at the read index. -/
def component (path : Bytes) (c : Cursor) : Bytes := (path.drop c.read).takeWhile (· != sep)

/-- What the component is found by. -/
theorem Represents.componentLength_eq (h : Represents path root names c) (hpath : NulFree path) :
    componentLength c.s c.read = (component path c).length := by
  rw [componentLength, h.unread, component]
  have hnul : NulFree (path.drop c.read) := fun hmem => hpath (mem_of_mem_drop hmem)
  generalize path.drop c.read = rest at hnul
  congr 1
  induction rest with
  | nil => rfl
  | cons byte rest ih =>
    have hbyte : byte ≠ 0 := fun he => hnul (he ▸ mem_cons_self)
    have hrest : NulFree rest := fun hmem => hnul (mem_cons_of_mem _ hmem)
    by_cases hsep : byte = sep
    · simp [hsep]
    · simp [hsep, hbyte, ih hrest]

theorem drop_length_takeWhile (p : UInt8 → Bool) (text : Bytes) :
    text.drop (text.takeWhile p).length = text.dropWhile p := by
  have hsplit := takeWhile_append_dropWhile (p := p) (l := text)
  nth_rewrite 2 [← hsplit]
  rw [drop_left]

theorem skipSlashes_eq {i : ℕ} {rest : Bytes} (h : s.drop i = rest ++ [0]) :
    skipSlashes s i = i + (rest.takeWhile (· == sep)).length := by
  rw [skipSlashes, h]
  congr 2
  clear h
  induction rest with
  | nil => rfl
  | cons byte rest ih =>
    by_cases hsep : byte = sep
    · simpa [hsep] using ih
    · simp [hsep]

/-- The index of the next component. -/
def nextRead (path : Bytes) (c : Cursor) : ℕ :=
  skipSlashes (path ++ [0]) (c.read + (component path c).length)

/-- The component at the read index and those behind it. -/
structure Component (path : Bytes) (c : Cursor) : Prop where
  components_eq : components sep (path.drop c.read) =
    component path c :: components sep (path.drop (nextRead path c))
  isName : IsName sep (component path c)
  nulFree : NulFree (component path c)
  beyond : c.read + (component path c).length ≤ nextRead path c
  inside : nextRead path c ≤ path.length
  gap : path.drop (nextRead path c) ≠ [] → c.read + (component path c).length < nextRead path c
  fresh : (path.drop (nextRead path c)).head? ≠ some sep

theorem Represents.next (h : Represents path root names c) (hpath : NulFree path)
    (hmore : path.drop c.read ≠ []) : Component path c := by
  obtain ⟨hcomponents, hname⟩ := components_span hmore h.fresh
  have hend : c.read + (component path c).length ≤ path.length := by
    have hlength := (List.takeWhile_prefix (· != sep) (l := path.drop c.read)).length_le
    have := h.inside
    rw [length_drop] at hlength
    unfold component
    omega
  have hrest := drop_length_takeWhile (· != sep) (path.drop c.read)
  rw [drop_drop] at hrest
  have hnext : nextRead path c = c.read + (component path c).length +
      ((path.drop (c.read + (component path c).length)).takeWhile (· == sep)).length :=
    skipSlashes_eq (drop_append_of_le_length hend)
  have hdrop : path.drop (nextRead path c)
      = ((path.drop c.read).dropWhile (· != sep)).dropWhile (· == sep) := by
    rw [hnext, ← drop_drop, drop_length_takeWhile]
    exact congrArg _ hrest
  refine ⟨?_, hname, ?_, ?_, ?_, ?_, ?_⟩
  · rw [hcomponents, hdrop, components_dropWhile]
    rfl
  · exact fun hmem => hpath (mem_of_mem_drop ((List.takeWhile_prefix _).mem hmem))
  · omega
  · have hlength := (List.takeWhile_prefix (· == sep)
      (l := path.drop (c.read + (component path c).length))).length_le
    rw [length_drop] at hlength
    omega
  · intro hne
    by_contra hle
    -- the byte behind the component is a slash, so one was skipped
    have hnone : nextRead path c = c.read + (component path c).length := by omega
    rw [hnone] at hne
    have hhead := head_dropWhile_not (· != sep) (l := path.drop c.read) (by rwa [← hrest])
    have htake : (path.drop (c.read + (component path c).length)).takeWhile (· == sep)
        = [] := length_eq_zero_iff.mp (by omega)
    change path.drop (c.read + (component path c).length) = _ at hrest
    rw [hrest] at htake
    cases hd : (path.drop c.read).dropWhile (· != sep) with
    | nil => exact hne (hrest.trans hd)
    | cons byte rest =>
      simp only [hd, head_cons, bne_eq_false_iff_eq] at hhead
      rw [hd, hhead] at htake
      simp at htake
  · rw [hdrop]
    intro hhead
    obtain ⟨rest, hcons⟩ := head?_eq_some_iff.mp hhead
    have hnot := head_dropWhile_not (· == sep)
      (l := (path.drop c.read).dropWhile (· != sep)) (by rw [hcons]; simp)
    simp [hcons] at hnot

section Turn

variable (h : Represents path root names c) (hpath : NulFree path)

include h hpath in
/-- The two tests of a turn compare the component with the special ones. -/
theorem Represents.special_iff (hmore : path.drop c.read ≠ []) :
    (componentLength c.s c.read = 1 ∧ byteAt c.s c.read = byteOf '.' ↔ component path c = dot) ∧
    (componentLength c.s c.read = 2 ∧ byteAt c.s c.read = byteOf '.' ∧
        byteAt c.s (c.read + 1) = byteOf '.' ↔ component path c = dotDot) := by
  have hbyte : ∀ i, i < (component path c).length →
      byteAt c.s (c.read + i) = (component path c).getD i 0 := by
    intro i hi
    have hsplit : path.drop c.read = component path c ++ (path.drop c.read).dropWhile (· != sep) :=
      takeWhile_append_dropWhile.symm
    rw [h.byteAt_read, hsplit, getD_eq_getElem?_getD, getD_eq_getElem?_getD,
      append_assoc, getElem?_append_left hi]
  rw [h.componentLength_eq hpath]
  have hname := (h.next hpath hmore).isName.nonempty
  rw [← Nat.add_zero c.read]
  generalize component path c = name at hbyte hname
  constructor
  · constructor
    · rintro ⟨hlength, hdot⟩
      obtain ⟨a, rfl⟩ := length_eq_one_iff.mp hlength
      rw [hbyte 0 (by simp)] at hdot
      exact congrArg (fun b => [b]) hdot
    · rintro rfl
      exact ⟨rfl, hbyte 0 (by decide)⟩
  · constructor
    · rintro ⟨hlength, hfirst, hsecond⟩
      obtain ⟨a, b, rfl⟩ := length_eq_two.mp hlength
      rw [hbyte 0 (by simp)] at hfirst
      rw [hbyte 1 (by simp)] at hsecond
      exact congrArg₂ (fun a b => [a, b]) hfirst hsecond
    · rintro rfl
      exact ⟨rfl, hbyte 0 (by decide), hbyte 1 (by decide)⟩

include h hpath in
theorem Represents.skipSlashes_eq (hmore : path.drop c.read ≠ []) :
    skipSlashes c.s (c.read + componentLength c.s c.read) = nextRead path c := by
  have hend : c.read + (component path c).length ≤ path.length :=
    (h.next hpath hmore).beyond.trans (h.next hpath hmore).inside
  rw [h.componentLength_eq hpath, nextRead, skipSlashes, skipSlashes, ← drop_drop, h.unread,
    ← drop_append_of_le_length h.inside, drop_drop]

include h hpath in
/-- What is not read stays, when the write index is behind. -/
theorem Represents.unread_next (hmore : path.drop c.read ≠ []) :
    c.s.drop (nextRead path c) = path.drop (nextRead path c) ++ [0] := by
  have hnext := h.next hpath hmore
  have hle : c.read ≤ nextRead path c := by
    have := hnext.beyond
    omega
  have hdrop := congrArg (drop (nextRead path c - c.read)) h.unread
  rw [← drop_append_of_le_length h.inside, drop_drop, drop_drop,
    Nat.add_sub_cancel' hle, drop_append_of_le_length hnext.inside] at hdrop
  exact hdrop

include h hpath in
/-- A component that leaves what is written, or a part of it. -/
theorem Represents.cut {root' : Bytes} {names' : List Bytes} {used : ℕ}
    (hmore : path.drop c.read ≠ []) (hroot : IsRoot root') (hnames : AreNames names')
    (hused : used = (rendered root' names').length) (hle : used ≤ c.used)
    (hwritten : c.s.take used = rendered root' names') :
    Represents path root' names' { c with read := nextRead path c, used } := by
  have hnext := h.next hpath hmore
  have hbeyond := hnext.beyond
  have hname := length_pos_iff.mpr hnext.isName.nonempty
  have hbehind := h.behind
  exact ⟨hroot, hnames, h.length_eq, hwritten, hused, hnext.inside, by simp only; omega,
    h.unread_next hpath hmore, fun _ _ => by simp only; omega, hnext.fresh⟩

include h hpath in
/-- A name behind what is written, with a slash between two names. -/
theorem Represents.push (hmore : path.drop c.read ≠ []) {s : Bytes} {used : ℕ}
    (hslash : (s, used) = if byteAt c.s (c.used - 1) ≠ sep then (c.s.set c.used sep, c.used + 1)
      else (c.s, c.used)) :
    Represents path root (names ++ [component path c])
      ⟨memmove s used c.read (component path c).length, nextRead path c,
        used + (component path c).length⟩ := by
  have hnext := h.next hpath hmore
  have hbeyond := hnext.beyond
  have hinside := hnext.inside
  have hbehind := h.behind
  have hpos := @length_rendered_pos root names h.isRoot
  -- the byte in front of the write index tells whether a name is there
  have hlast : byteAt c.s (c.used - 1) = sep ↔ names = [] := by
    rw [byteAt_take h.written (by have := h.used_eq; omega), h.used_eq,
      getD_eq_getElem?_getD, ← getLast?_eq_getElem?,
      ← getLast?_rendered h.isRoot h.areNames]
    cases hget : (rendered root names).getLast? with
    | none => exact absurd hget (by simpa using length_pos_iff.mp hpos)
    | some byte => simp
  have hfit : s.length = path.length + 1 ∧ used ≤ c.read ∧ s.drop c.read = c.s.drop c.read ∧
      s.take used ++ component path c = rendered root (names ++ [component path c]) := by
    by_cases hnames : names = []
    · rw [if_neg (by simpa using hlast.mpr hnames)] at hslash
      obtain ⟨rfl, rfl⟩ := Prod.mk.inj hslash
      refine ⟨h.length_eq, hbehind, rfl, ?_⟩
      rw [h.written, hnames]
      simp [rendered]
    · have hgap := h.gap hnames hmore
      have hlt : c.used < c.s.length := by
        have := h.length_eq
        have := h.inside
        omega
      rw [if_pos (fun he => hnames (hlast.mp he))] at hslash
      obtain ⟨rfl, rfl⟩ := Prod.mk.inj hslash
      refine ⟨by rw [length_set, h.length_eq], hgap, drop_set_of_lt hgap, ?_⟩
      have htake : (c.s.set c.used sep).take (c.used + 1) = c.s.take c.used ++ [sep] := by
        rw [set_eq_take_append_cons_drop, if_pos hlt]
        simp [take_append, hlt.le]
      rw [rendered_concat hnames, htake, h.written, append_assoc, singleton_append]
  obtain ⟨hlength, hused, hdrop, hwritten⟩ := hfit
  have htarget : used + (component path c).length ≤ s.length := by omega
  have hsource : c.read + (component path c).length ≤ s.length := by omega
  have hread : (s.drop c.read).take (component path c).length = component path c := by
    have hsplit : path.drop c.read = component path c ++ (path.drop c.read).dropWhile (· != sep) :=
      takeWhile_append_dropWhile.symm
    rw [hdrop, h.unread, hsplit, append_assoc, take_left]
  have htake := take_memmove htarget hsource
  rw [hread, hwritten] at htake
  refine ⟨h.isRoot, h.areNames.concat hnext.isName hnext.nulFree, ?_, htake, ?_, hinside, ?_, ?_, ?_,
    hnext.fresh⟩
  · rw [length_set_memmove htarget hsource, hlength]
  · have hused' : used ≤ s.length := by omega
    rw [← hwritten, length_append, length_take, Nat.min_eq_left hused']
  · show used + (component path c).length ≤ nextRead path c
    omega
  · have hbelow : used + (component path c).length ≤ nextRead path c := by omega
    rw [drop_memmove htarget hsource hbelow]
    have hmove := congrArg (drop (nextRead path c - c.read)) hdrop
    rw [drop_drop, drop_drop, Nat.add_sub_cancel' (by omega)] at hmove
    exact hmove.trans (h.unread_next hpath hmore)
  · intro _ hrest
    have hgap := hnext.gap hrest
    show used + (component path c).length < nextRead path c
    omega

include h hpath in
/-- **One turn reads one component.** -/
theorem Represents.turn (isDirectory : Bytes → Bool) (hmore : path.drop c.read ≠ []) :
    (turn isDirectory c = none ∧ placed isDirectory (root, names) (component path c) = none) ∨
    ∃ root' names' c', turn isDirectory c = some c' ∧
      placed isDirectory (root, names) (component path c) = some (root', names') ∧
      c'.read = nextRead path c ∧ Represents path root' names' c' := by
  obtain ⟨hdot, hdotDot⟩ := h.special_iff hpath hmore
  simp only [Directory.turn, placed, hdot, hdotDot, h.skipSlashes_eq hpath hmore, h.textOf_written]
  by_cases hone : component path c = dot
  · rw [if_pos hone, if_pos hone]
    exact .inr ⟨root, names, _, rfl, rfl, rfl,
      h.cut hpath hmore h.isRoot h.areNames h.used_eq le_rfl h.written⟩
  rw [if_neg hone, if_neg hone]
  by_cases htwo : component path c = dotDot
  · rw [if_pos htwo, if_pos htwo]
    by_cases hdirectory : isDirectory (rendered root names) = true
    · rw [if_pos hdirectory, if_pos hdirectory]
      have hpopped := popped_rendered h.isRoot h.areNames h.used_eq h.written
      have hroot : ∃ rest, rendered root names = sep :: rest := by
        rcases h.isRoot with rfl | rfl <;> exact ⟨_, rfl⟩
      by_cases hshort : names.length ≤ 1
      · rw [if_pos hshort] at hpopped ⊢
        refine .inr ⟨[sep], [], _, rfl, rfl, rfl, ?_⟩
        obtain ⟨rest, hrest⟩ := hroot
        have hused := h.used_eq
        have hone := congrArg (take 1) h.written
        rw [hrest, length_cons] at hused
        rw [hrest, take_take, Nat.min_eq_left (by omega)] at hone
        rw [hpopped]
        refine h.cut hpath hmore (.inl rfl) ?_ rfl (by omega) hone
        intro name hname
        cases hname
      · rw [if_neg hshort] at hpopped ⊢
        refine .inr ⟨root, names.dropLast, _, rfl, rfl, rfl, ?_⟩
        obtain ⟨tail, htail⟩ := rendered_dropLast (Nat.lt_of_not_le hshort) root
        have hused := h.used_eq
        have hcut := congrArg (take (rendered root names.dropLast).length) h.written
        rw [htail, length_append] at hused
        rw [htail, take_take, Nat.min_eq_left (by omega), take_left] at hcut
        rw [hpopped]
        exact h.cut hpath hmore h.isRoot h.areNames.dropLast rfl (by omega) hcut
    · rw [if_neg hdirectory, if_neg hdirectory]
      exact .inl ⟨rfl, rfl⟩
  · rw [if_neg htwo, if_neg htwo]
    refine .inr ⟨_, _, _, rfl, rfl, rfl, ?_⟩
    rw [h.componentLength_eq hpath]
    exact h.push hpath hmore rfl

end Turn

/-- What the loop leaves in the buffer. -/
theorem normalizeLoop_eq {isDirectory : Bytes → Bool} (hpath : NulFree path) {turns : ℕ}
    (h : Represents path root names c) (hturns : path.length - c.read < turns) :
    normalizeLoop isDirectory turns c =
      some (((components sep (path.drop c.read)).foldlM (placed isDirectory) (root, names)).map
        fun stack => rendered stack.1 stack.2) := by
  induction turns generalizing c root names with
  | zero => omega
  | succ turns ih =>
    rw [normalizeLoop]
    by_cases hend : path.drop c.read = []
    · rw [if_pos ((h.byteAt_eq_zero hpath).mpr hend), h.textOf_written, hend]
      rfl
    · rw [if_neg (fun he => hend ((h.byteAt_eq_zero hpath).mp he))]
      have hnext := h.next hpath hend
      rw [hnext.components_eq, foldlM_cons]
      rcases h.turn hpath isDirectory hend with
        ⟨hturn, hplaced⟩ | ⟨root', names', c', hturn, hplaced, hread, h'⟩
      · rw [hturn, hplaced]
        rfl
      · rw [hturn, hplaced, ← hread]
        have hname := length_pos_iff.mpr hnext.isName.nonempty
        have hbeyond := hnext.beyond
        have hinside := hnext.inside
        exact ih h' (by omega)

/-- The root is what the loop begins behind. -/
theorem start_used (habsolute : path.head? = some sep) :
    (start (path ++ [0])).used = (rootOf path).length ∧
      (path ++ [0]).take (rootOf path).length = rootOf path ∧
      (rootOf path).length ≤ (path.takeWhile (· == sep)).length := by
  have hzero : (0 : UInt8) ≠ sep := by decide
  obtain ⟨rest, rfl⟩ := head?_eq_some_iff.mp habsolute
  match rest with
  | [] => decide
  | second :: rest =>
    by_cases hsecond : second = sep
    · subst hsecond
      match rest with
      | [] => decide
      | third :: rest =>
        by_cases hthird : third = sep
        · subst hthird
          simp [start, rootOf, byteAt]
        · simp [start, rootOf, byteAt, hthird]
    · simp [start, rootOf, byteAt, hsecond]

/-- The loop begins with the root and all the components. -/
theorem represents_start (habsolute : path.head? = some sep) :
    Represents path (rootOf path) [] (start (path ++ [0])) ∧
      components sep (path.drop (start (path ++ [0])).read) = components sep path := by
  obtain ⟨hused, hwritten, hle⟩ := start_used habsolute
  have hread : (start (path ++ [0])).read = (path.takeWhile (· == sep)).length :=
    (skipSlashes_eq (i := 0) rfl).trans (Nat.zero_add _)
  have hinside := (List.takeWhile_prefix (· == sep) (l := path)).length_le
  have hdrop := drop_length_takeWhile (· == sep) path
  constructor
  · refine ⟨isRoot_rootOf path, fun name hname => (by cases hname), by simp [start], ?_, ?_, ?_, ?_,
      ?_, fun hne => absurd rfl hne, ?_⟩
    · rw [hused, rendered_nil]
      exact hwritten
    · rw [hused, rendered_nil]
    · rw [hread]
      exact hinside
    · rw [hused, hread]
      exact hle
    · rw [hread]
      exact drop_append_of_le_length hinside
    · rw [hread, hdrop]
      intro hhead
      obtain ⟨rest, hcons⟩ := head?_eq_some_iff.mp hhead
      have hnot := head_dropWhile_not (· == sep) (l := path) (by rw [hcons]; simp)
      simp [hcons] at hnot
  · rw [hread, hdrop, components_dropWhile]

/-- A cursor the loop gets to represents a path. -/
theorem Reaches.represents {isDirectory : Bytes → Bool} (hpath : NulFree path)
    (habsolute : path.head? = some sep) (h : Reaches isDirectory (start (path ++ [0])) c) :
    ∃ root names, Represents path root names c := by
  induction h with
  | refl => exact ⟨_, _, (represents_start habsolute).1⟩
  | step _ hmore hturn ih =>
    obtain ⟨root, names, hd⟩ := ih
    have hrest := fun he => hmore ((hd.byteAt_eq_zero hpath).mpr he)
    rcases hd.turn hpath isDirectory hrest with ⟨hnone, -⟩ | ⟨root', names', c', hsome, -, -, h'⟩
    · rw [hnone] at hturn
      cases hturn
    · rw [hsome] at hturn
      cases hturn
      exact ⟨root', names', h'⟩

/-- What `normalize` computes. -/
theorem normalize_eq {isDirectory : Bytes → Bool} (hpath : NulFree path)
    (habsolute : path.head? = some sep) :
    normalize isDirectory (path ++ [0]) =
      some (((components sep path).foldlM (placed isDirectory) (rootOf path, [])).map
        fun stack => rendered stack.1 stack.2) := by
  obtain ⟨hstart, hcomponents⟩ := represents_start habsolute
  have hturns : path.length - (start (path ++ [0])).read < (path ++ [0]).length := by
    rw [length_append, length_singleton]
    omega
  rw [normalize, normalizeLoop_eq hpath hstart hturns, hcomponents]

/-! ### The two folds -/

section Folds

variable {isDirectory : Bytes → Bool} {parts : List Bytes}

/-- The folds agree at the root `/`, and wherever two names are there for each `..`. -/
theorem foldlM_placed
    (h : root = [sep] ∨ ∀ before after, parts = before ++ dotDot :: after →
      1 < (before.foldl stacked names).length) :
    parts.foldlM (placed isDirectory) (root, names) =
      (parts.foldlM (place isDirectory root) names).map fun names => (root, names) := by
  induction parts generalizing names with
  | nil => rfl
  | cons part parts ih =>
    have hrest : root = [sep] ∨ ∀ before after, parts = before ++ dotDot :: after →
        1 < (before.foldl stacked (stacked names part)).length := by
      rcases h with h | h
      · exact .inl h
      · exact .inr fun before after heq => h (part :: before) after (by rw [heq]; rfl)
    rw [foldlM_cons, foldlM_cons]
    by_cases hone : part = dot
    · simpa [placed, place, stacked, hone] using ih hrest
    by_cases htwo : part = dotDot
    · have hne : dotDot ≠ dot := by decide
      by_cases hdirectory : isDirectory (rendered root names) = true
      · have hpop : (if names.length ≤ 1 then ([sep], []) else (root, names.dropLast)) =
            (root, names.dropLast) := by
          split
          · next hshort =>
            rcases h with rfl | h
            · rw [dropLast_eq_take, take_eq_nil_iff.mpr (.inl (by omega))]
            · have hlong : 1 < names.length := h [] parts (by rw [htwo]; rfl)
              omega
          · rfl
        simpa [placed, place, stacked, htwo, hne, hdirectory, hpop] using ih hrest
      · simp [placed, place, htwo, hne, hdirectory]
    · simpa [placed, place, stacked, hone, htwo] using ih hrest

/-- The buffer form stays at the root `/`. -/
theorem fst_of_root {stack : Bytes × List Bytes}
    (h : parts.foldlM (placed isDirectory) ([sep], names) = some stack) : stack.1 = [sep] := by
  rw [foldlM_placed (.inl rfl), Option.map_eq_some_iff] at h
  obtain ⟨_, -, rfl⟩ := h
  rfl

/-- The buffer form is at the root `/` once a `..` came too early. -/
theorem fst_of_slip {before after : List Bytes} {stack : Bytes × List Bytes}
    (hshort : (before.foldl stacked names).length ≤ 1)
    (h : (before ++ dotDot :: after).foldlM (placed isDirectory) (root, names) = some stack) :
    stack.1 = [sep] := by
  induction before generalizing root names with
  | nil =>
    have hne : dotDot ≠ dot := by decide
    rw [foldl_nil] at hshort
    rw [nil_append, foldlM_cons, placed, if_neg hne, if_pos rfl] at h
    split at h
    · exact fst_of_root h
    · cases h
  | cons part before ih =>
    rw [cons_append, foldlM_cons] at h
    rw [foldl_cons, stacked] at hshort
    unfold placed at h
    by_cases hone : part = dot
    · rw [if_pos hone] at h hshort
      exact ih hshort h
    by_cases htwo : part = dotDot
    · rw [if_neg hone, if_pos htwo] at h hshort
      split at h
      · split at h
        · exact fst_of_root h
        · exact ih hshort h
      · cases h
    · rw [if_neg hone, if_neg htwo] at h hshort
      exact ih hshort h

/-- The names on the stack are components. -/
theorem isName_of_foldlM {stack : Bytes × List Bytes} (hnames : ∀ n ∈ names, IsName sep n)
    (hparts : ∀ n ∈ parts, IsName sep n)
    (h : parts.foldlM (placed isDirectory) (root, names) = some stack) :
    ∀ n ∈ stack.2, IsName sep n := by
  induction parts generalizing root names with
  | nil =>
    cases h
    exact hnames
  | cons part parts ih =>
    have hrest : ∀ n ∈ parts, IsName sep n := fun n hn => hparts n (mem_cons_of_mem _ hn)
    rw [foldlM_cons] at h
    unfold placed at h
    by_cases hone : part = dot
    · rw [if_pos hone] at h
      exact ih hnames hrest h
    by_cases htwo : part = dotDot
    · rw [if_neg hone, if_pos htwo] at h
      split at h
      · split at h
        · exact ih (fun n hn => (by cases hn)) hrest h
        · exact ih (fun n hn => hnames n (dropLast_subset _ hn)) hrest h
      · cases h
    · rw [if_neg hone, if_neg htwo] at h
      refine ih (fun n hn => ?_) hrest h
      rcases mem_append.mp hn with hn | hn
      · exact hnames n hn
      · rw [mem_singleton.mp hn]
        exact hparts part mem_cons_self

/-- The two roots give different paths. -/
theorem rendered_ne {names' : List Bytes} (hnames : ∀ n ∈ names, IsName sep n) :
    rendered [sep] names ≠ rendered [sep, sep] names' := by
  intro heq
  have hjoined : joined sep names = sep :: joined sep names' := by simpa [rendered] using heq
  apply head?_joined_ne hnames
  rw [hjoined]
  rfl

end Folds

/-- What is written is behind what is read, whatever the file system answers. -/
theorem Reaches.behind {isDirectory : Bytes → Bool} (hpath : NulFree path)
    (habsolute : path.head? = some sep) (h : Reaches isDirectory (start (path ++ [0])) c) :
    c.used ≤ c.read ∧ c.s.drop c.read = (path ++ [0]).drop c.read := by
  obtain ⟨root, names, hc⟩ := h.represents hpath habsolute
  exact ⟨hc.behind, hc.unread.trans (drop_append_of_le_length hc.inside).symm⟩

/-- A path that does not slip is normalised. -/
theorem normalizes_of_not_slips (isDirectory : Bytes → Bool) (hpath : NulFree path)
    (habsolute : path.head? = some sep) (h : ¬Slips path) : Normalizes isDirectory path := by
  refine ⟨?_, fun c hc => hc.behind hpath habsolute⟩
  have hfolds : rootOf path = [sep] ∨ ∀ before after,
      components sep path = before ++ dotDot :: after → 1 < (before.foldl stacked []).length := by
    rcases isRoot_rootOf path with hroot | hroot
    · exact .inl hroot
    · refine .inr fun before after heq => ?_
      by_contra hshort
      exact h ⟨hroot, before, after, heq, Nat.le_of_not_lt hshort⟩
  rw [normalize_eq hpath habsolute, foldlM_placed hfolds, Option.map_map]
  rfl

/-- A path that slips and has a canonical form loses a slash of its root. -/
theorem not_normalizes_of_slips {isDirectory : Bytes → Bool} (hpath : NulFree path)
    (habsolute : path.head? = some sep) (h : Slips path)
    (hcanonical : canonical isDirectory path ≠ none) : ¬Normalizes isDirectory path := by
  intro hnormal
  obtain ⟨hroot, before, after, heq, hshort⟩ := h
  have hresult := hnormal.result
  rw [normalize_eq hpath habsolute, Option.some.injEq] at hresult
  obtain ⟨text, htext⟩ := Option.ne_none_iff_exists'.mp hcanonical
  rw [htext, Option.map_eq_some_iff] at hresult
  obtain ⟨⟨root, names⟩, hfold, hrendered⟩ := hresult
  have hnames := isName_of_foldlM (fun n hn => (by cases hn)) (fun n hn => isName_of_mem hn) hfold
  have hsingle : root = [sep] := by
    rw [heq] at hfold
    exact fst_of_slip hshort hfold
  rw [canonical, Option.map_eq_some_iff, hroot] at htext
  obtain ⟨names', -, rfl⟩ := htext
  subst hsingle
  exact rendered_ne hnames hrendered

/-- Where everything is a directory, every path has a canonical form. -/
theorem canonical_true (path : Bytes) : canonical (fun _ => true) path ≠ none := by
  have hfold : ∀ (parts names : List Bytes),
      parts.foldlM (place (fun _ => true) (rootOf path)) names = some (parts.foldl stacked names) := by
    intro parts
    induction parts with
    | nil => exact fun _ => rfl
    | cons part parts ih =>
      intro names
      have hplace : place (fun _ => true) (rootOf path) names part = some (stacked names part) := by
        unfold place stacked
        split
        · rfl
        · split <;> rfl
      rw [foldlM_cons, hplace]
      exact ih (stacked names part)
  rw [canonical, hfold]
  exact Option.some_ne_none _

/-- **Logical path normalisation.** For every stat oracle the canonical path is left in
place, or none where a `..` comes behind no directory, if and only if the path does not
slip; of a path that slips, no canonical form is left. -/
theorem normalizes_iff (hpath : NulFree path) (habsolute : path.head? = some sep) :
    ((∀ isDirectory, Normalizes isDirectory path) ↔ ¬Slips path) ∧
      ∀ isDirectory, canonical isDirectory path ≠ none →
        (Normalizes isDirectory path ↔ ¬Slips path) := by
  have hevery : ∀ isDirectory, canonical isDirectory path ≠ none →
      (Normalizes isDirectory path ↔ ¬Slips path) := fun isDirectory hcanonical =>
    ⟨fun hnormal hslips => not_normalizes_of_slips hpath habsolute hslips hcanonical hnormal,
      normalizes_of_not_slips isDirectory hpath habsolute⟩
  refine ⟨⟨fun hall => ?_, fun h isDirectory => ?_⟩, hevery⟩
  · exact (hevery _ (canonical_true path)).mp (hall fun _ => true)
  · exact normalizes_of_not_slips isDirectory hpath habsolute h

/-- A path with symbolic components below the root `/`. -/
theorem normalizes_iff_single :
    ((∀ isDirectory, Normalizes isDirectory (ascii "/a/../b")) ↔ ¬Slips (ascii "/a/../b")) ∧
      ∀ isDirectory, canonical isDirectory (ascii "/a/../b") ≠ none →
        (Normalizes isDirectory (ascii "/a/../b") ↔ ¬Slips (ascii "/a/../b")) :=
  normalizes_iff (by decide) (by decide)

/-- Of `//a/..`, whose directories all exist, the root `/` is left. -/
theorem not_normalizes_double : ¬Normalizes (fun _ => true) (ascii "//a/..") := by
  intro hnormal
  have hresult := hnormal.result
  revert hresult
  decide +kernel

end Directory
end CShell
