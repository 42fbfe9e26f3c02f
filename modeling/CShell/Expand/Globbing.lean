import CShell.Expand.Wildcards

/-!
# What pathname expansion finds

The traversal keeps a list of paths and puts one component of the normalized pattern
behind each of them.  What it ends with is the set of paths whose components match
those of the pattern one by one: a component with a wildcard stands for the names its
directory lists and the matcher accepts, any other one for its own unescaped text, and
the last one has to be there.

The errors that only say that a path cannot be followed are part of a file system; a
directory that cannot be read to its end lists nothing.

## Main definitions

* `Names` — the names that stand for one component behind a path.
* `Matches` — the paths that match the components of a pattern.
* `FileSystem.Orderly` — a file system without other errors.

## Main results

* `pathnameExpand_matches` — **a pattern with a wildcard expands to the paths that match
  it, each once and in order, or to the raw field.**

## References

`src/pathname.c`.
-/

namespace CShell

/-- The errors of a file system that only make a path not match, names without slashes
and listed once, and an ordering that `qsort` can use. -/
structure FileSystem.Orderly (fs : FileSystem) : Prop where
  opendir : ∀ {path : Bytes} {e : Errno}, fs.opendir path = .error e → filesystemError e = .ok
  read : ∀ {path : Bytes} {listing : Listing}, fs.opendir path = .ok listing →
    ∀ e, listing.readError = some e → filesystemError e = .ok
  close : ∀ {path : Bytes} {listing : Listing}, fs.opendir path = .ok listing →
    ∀ e, listing.closeError = some e → filesystemError e = .ok
  lstat : ∀ {path : Bytes} {e : Errno}, fs.lstat path = .error e → filesystemError e = .ok
  stat : ∀ {path : Bytes} {e : Errno}, fs.stat path = .error e → filesystemError e = .ok
  nodup : ∀ {path : Bytes} {listing : Listing}, fs.opendir path = .ok listing →
    listing.entries.Nodup
  slash : ∀ {path : Bytes} {listing : Listing}, fs.opendir path = .ok listing →
    ∀ name ∈ listing.entries, byteOf '/' ∉ name
  collation : Std.TransCmp fs.strcoll

/-- The names a directory supplies; a failure of reading or closing it takes them all. -/
def FileSystem.listed (fs : FileSystem) (path : Bytes) : List Bytes :=
  match fs.opendir path with
  | .error _ => []
  | .ok listing =>
    if listing.readError.isSome || listing.closeError.isSome then [] else listing.entries

namespace Globbing

open List

/-! ### The paths that match -/

section Matching

variable (fs : FileSystem) (d : Decoder)

/-- The directory that a path prefix with its trailing slashes names. -/
def directoryOf (path : Bytes) : Bytes := if path = [] then ascii "." else path

/-- What the last component has to find: a directory behind a trailing slash, and
anything at all otherwise. -/
def Present (path component : Bytes) : Prop :=
  if component = [] then fs.stat path = .ok true else fs.lstat path = .ok ()

/-- A name that stands for a component behind `path`, which ends in the slashes before
the component. -/
inductive Names (path component : Bytes) (final : Bool) : Bytes → Prop
  | wildcard {name : Bytes} (pattern : hasPattern d component = true)
      (listed : name ∈ fs.listed (directoryOf path)) (dot : name ≠ ascii ".")
      (dots : name ≠ ascii "..") (selected : fs.fnmatch component name true = true) :
      Names path component final name
  | literal (pattern : hasPattern d component = false)
      (present : final = true → Present fs (path ++ unescape d component) component) :
      Names path component final (unescape d component)

/-- The paths that match the components behind a prefix. -/
inductive Matches : List (Bytes × Bytes) → Bytes → Bytes → Prop
  | done (path : Bytes) : Matches [] path path
  | next {separators component before name path : Bytes} {pieces : List (Bytes × Bytes)}
      (names : Names fs d (before ++ separators) component pieces.isEmpty name)
      (rest : Matches pieces (before ++ separators ++ name) path) :
      Matches ((separators, component) :: pieces) before path

/-- What one path is extended to by one component. -/
def extensions (separators component : Bytes) (final : Bool) (path : Bytes) : List Bytes :=
  if hasPattern d component then
    ((fs.listed (directoryOf (path ++ separators))).filter (selects fs component)).map
      (path ++ separators ++ ·)
  else
    let found := path ++ separators ++ unescape d component
    if final then
      if component.isEmpty && !separators.isEmpty then
        if fs.stat found = .ok true then [found] else []
      else if fs.lstat found = .ok () then [found] else []
    else [found]

end Matching

/-! ### One component -/

section Component

variable {fs : FileSystem} {d : Decoder}

theorem failureOf_ordinary {error : Option Errno} {before : ExpandResult × Bool}
    (h : ∀ e, error = some e → filesystemError e = .ok) (hbefore : before.1 = .ok) :
    failureOf error before = (.ok, error.isSome || before.2) := by
  cases error with
  | none => exact Prod.ext hbefore rfl
  | some e => simp [failureOf, h e rfl]

theorem patternPaths_fields (hfs : fs.Orderly) (directory component : Bytes) (next : Output) :
    ∃ log, patternPaths fs directory component next =
      (.ok, { fields := next.fields ++
                ((fs.listed (directoryOf directory)).filter (selects fs component)).map (directory ++ ·),
              log := log }) := by
  have hpath : (if directory.isEmpty then ascii "." else directory) = directoryOf directory := by
    rw [directoryOf]
    cases directory <;> rfl
  rw [patternPaths, hpath, FileSystem.listed]
  cases hopen : fs.opendir (directoryOf directory) with
  | error e =>
    refine ⟨next.log ++ [.opendir (directoryOf directory)], ?_⟩
    simp [hfs.opendir hopen]
  | ok listing =>
    have hread := failureOf_ordinary (hfs.read hopen) (show (ExpandResult.ok, false).1 = .ok from rfl)
    have hclose := failureOf_ordinary (hfs.close hopen)
      (show (ExpandResult.ok, listing.readError.isSome || false).1 = .ok from rfl)
    refine ⟨next.log ++ [.opendir (directoryOf directory)], ?_⟩
    dsimp only
    rw [hread]
    dsimp only
    rw [if_pos rfl, hclose]
    -- a failure takes back what was read before it
    by_cases hfailed : listing.readError.isSome || listing.closeError.isSome
    · have hfailed' : (listing.closeError.isSome || (listing.readError.isSome || false)) = true := by
        rwa [Bool.or_false, Bool.or_comm]
      rw [if_pos hfailed, filter_nil, map_nil, append_nil]
      dsimp only
      rw [if_pos hfailed']
    · have hfailed' : ¬(listing.closeError.isSome || (listing.readError.isSome || false)) = true := by
        rwa [Bool.or_false, Bool.or_comm]
      rw [if_neg hfailed]
      dsimp only
      rw [if_neg hfailed']

theorem literalPath_fields (hfs : fs.Orderly) (path : Bytes) (final directory : Bool)
    (next : Output) : ∃ log, literalPath fs path final directory next =
      (.ok, { fields := next.fields ++
                (if final then
                  if directory then if fs.stat path = .ok true then [path] else []
                  else if fs.lstat path = .ok () then [path] else []
                else [path]),
              log := log }) := by
  cases final with
  | false => exact ⟨next.log, rfl⟩
  | true =>
    cases directory with
    | true =>
      refine ⟨next.log ++ [.stat path], ?_⟩
      cases hstat : fs.stat path with
      | error e => simp [literalPath, hstat, hfs.stat hstat]
      | ok isDirectory => cases isDirectory <;> simp [literalPath, hstat, Output.append]
    | false =>
      refine ⟨next.log ++ [.lstat path], ?_⟩
      cases hlstat : fs.lstat path with
      | error e => simp [literalPath, hlstat, hfs.lstat hlstat]
      | ok u => simp [literalPath, hlstat, Output.append]

/-- **One step of the traversal appends the extensions of its path.** -/
theorem componentStep_fields (hfs : fs.Orderly) (separators component : Bytes) (final : Bool)
    (path : Bytes) (next : Output) : ∃ log,
      componentStep fs d separators component final path next =
        (.ok, { fields := next.fields ++ extensions fs d separators component final path,
                log := log }) := by
  rw [componentStep, extensions]
  split
  · exact patternPaths_fields hfs (path ++ separators) component next
  · exact literalPath_fields hfs _ final _ next

theorem extendPaths_fields (hfs : fs.Orderly) (separators component : Bytes) (final : Bool)
    (paths : List Bytes) (next : Output) : ∃ log,
      extendPaths (componentStep fs d separators component final) paths next =
        (.ok, { fields := next.fields ++ paths.flatMap (extensions fs d separators component final),
                log := log }) := by
  induction paths generalizing next with
  | nil => exact ⟨next.log, by simp [extendPaths]⟩
  | cons path paths ih =>
    obtain ⟨log, hstep⟩ := componentStep_fields (d := d) hfs separators component final path next
    obtain ⟨log', hrest⟩ := ih { fields := next.fields ++ extensions fs d separators component final path,
                                 log := log }
    refine ⟨log', ?_⟩
    rw [extendPaths, hstep]
    dsimp only
    rw [hrest, flatMap_cons, append_assoc]

/-- The extensions of a path are the names that stand for the component behind it. -/
theorem mem_extensions {separators component : Bytes} (hempty : component = [] → separators ≠ [])
    {final : Bool} {path found : Bytes} :
    found ∈ extensions fs d separators component final path ↔
      ∃ name, Names fs d (path ++ separators) component final name ∧
        found = path ++ separators ++ name := by
  have hdirectory : (component.isEmpty && !separators.isEmpty) = decide (component = []) := by
    cases component with
    | nil => simpa using hempty rfl
    | cons => rfl
  rw [extensions]
  by_cases hpattern : hasPattern d component = true
  · rw [if_pos hpattern, mem_map]
    constructor
    · rintro ⟨name, hname, rfl⟩
      obtain ⟨hlisted, hselects⟩ := mem_filter.mp hname
      simp only [selects, Bool.and_eq_true, bne_iff_ne] at hselects
      exact ⟨name, .wildcard hpattern hlisted hselects.1.1 hselects.1.2 hselects.2, rfl⟩
    · rintro ⟨name, hnames, rfl⟩
      cases hnames with
      | wildcard _ hlisted hdot hdots hselected =>
        refine ⟨name, mem_filter.mpr ⟨hlisted, ?_⟩, rfl⟩
        simp [selects, hdot, hdots, hselected]
      | literal hfalse => exact absurd hpattern (by simp [hfalse])
  · have hfalse : hasPattern d component = false := Bool.eq_false_iff.mpr hpattern
    have hpresent : found ∈ extensions fs d separators component final path ↔
        found = path ++ separators ++ unescape d component ∧
          (final = true → Present fs (path ++ separators ++ unescape d component) component) := by
      rw [extensions, if_neg hpattern, hdirectory, Present]
      cases final with
      | false => simp
      | true =>
        by_cases hnil : component = []
        · simp only [hnil, decide_true, if_true, forall_const]
          split <;> simp_all
        · simp only [hnil, decide_false, if_true, if_false, forall_const, Bool.false_eq_true]
          split <;> simp_all
    rw [extensions, if_neg hpattern] at hpresent
    rw [if_neg hpattern, hpresent]
    constructor
    · rintro ⟨rfl, h⟩
      exact ⟨_, .literal hfalse h, rfl⟩
    · rintro ⟨name, hnames, rfl⟩
      cases hnames with
      | wildcard htrue => exact absurd htrue hpattern
      | literal _ h => exact ⟨rfl, h⟩

/-! ### Each path once -/

theorem listed_nodup (hfs : fs.Orderly) (path : Bytes) : (fs.listed path).Nodup := by
  rw [FileSystem.listed]
  cases hopen : fs.opendir path with
  | error e => exact nodup_nil
  | ok listing =>
    dsimp only
    split
    · exact nodup_nil
    · exact hfs.nodup hopen

theorem listed_slash (hfs : fs.Orderly) {path name : Bytes} (h : name ∈ fs.listed path) :
    byteOf '/' ∉ name := by
  rw [FileSystem.listed] at h
  cases hopen : fs.opendir path with
  | error e =>
    rw [hopen] at h
    cases h
  | ok listing =>
    rw [hopen] at h
    dsimp only at h
    split at h
    · cases h
    · exact hfs.slash hopen name h

theorem extensions_nodup (hfs : fs.Orderly) (separators component : Bytes) (final : Bool)
    (path : Bytes) : (extensions fs d separators component final path).Nodup := by
  unfold extensions
  dsimp only
  split
  · apply List.Nodup.map
    · exact fun a b h => append_cancel_left h
    · exact (listed_nodup hfs _).filter _
  · split_ifs <;> simp

/-- A text is cut at its last slash in one way. -/
theorem cut_last_slash {a b n m : Bytes} (h : a ++ byteOf '/' :: n = b ++ byteOf '/' :: m)
    (hn : byteOf '/' ∉ n) (hm : byteOf '/' ∉ m) : a = b := by
  rcases append_eq_append_iff.mp h with ⟨c, rfl, hc⟩ | ⟨c, rfl, hc⟩
  · cases c with
    | nil => exact (append_nil a).symm
    | cons x c =>
      refine absurd ?_ hn
      rw [(cons.inj hc).2]
      simp
  · cases c with
    | nil => exact append_nil b
    | cons x c =>
      refine absurd ?_ hm
      rw [(cons.inj hc).2]
      simp

/-- Behind a slash, two paths have no extension in common. -/
theorem extensions_disjoint (hfs : fs.Orderly) {separators component : Bytes}
    (hlast : ∃ front, separators = front ++ [byteOf '/']) {final : Bool} {path path' : Bytes}
    (hne : path ≠ path') :
    List.Disjoint (extensions fs d separators component final path)
      (extensions fs d separators component final path') := by
  obtain ⟨front, rfl⟩ := hlast
  have hempty : component = [] → front ++ [byteOf '/'] ≠ [] := fun _ => by simp
  intro found hmem hmem'
  obtain ⟨name, hname, rfl⟩ := (mem_extensions hempty).mp hmem
  obtain ⟨name', hname', heq⟩ := (mem_extensions hempty).mp hmem'
  refine hne ?_
  cases hname with
  | wildcard hpattern hlisted =>
    cases hname' with
    | wildcard _ hlisted' =>
      have hcut : path ++ front = path' ++ front := by
        apply cut_last_slash (n := name) (m := name')
        · simpa [append_assoc] using heq
        · exact listed_slash hfs hlisted
        · exact listed_slash hfs hlisted'
      exact append_cancel_right hcut
    | literal hfalse => exact absurd hpattern (by simp [hfalse])
  | literal hfalse =>
    cases hname' with
    | wildcard htrue => exact absurd htrue (by simp [hfalse])
    | literal =>
      exact append_cancel_right (append_cancel_right heq)

end Component

/-! ### The traversal -/

section Walk

variable {fs : FileSystem} {d : Decoder}

/-- Where the walk stands: at the front with the empty path, or at a slash or the
end. -/
def Standing (paths : List Bytes) (position : Bytes) : Prop :=
  paths = [[]] ∨ position = [] ∨ position.head? = some (byteOf '/')

theorem separators_last {position : Bytes} (h : position.head? = some (byteOf '/')) :
    ∃ front, position.takeWhile (· == byteOf '/') = front ++ [byteOf '/'] := by
  cases position with
  | nil => cases h
  | cons byte rest =>
    obtain rfl := Option.some.inj h
    have hne : (byteOf '/' :: rest).takeWhile (· == byteOf '/') ≠ [] := by
      rw [takeWhile_cons, if_pos (by simp)]
      exact cons_ne_nil _ _
    have hlast := dropLast_append_getLast hne
    have hslash := mem_takeWhile_imp (getLast_mem hne)
    rw [eq_of_beq hslash] at hlast
    exact ⟨_, hlast.symm⟩

/-- An empty component stands behind slashes. -/
theorem separators_ne_nil {position : Bytes} (h : position ≠ [])
    (hempty : (position.dropWhile (· == byteOf '/')).takeWhile (· != byteOf '/') = []) :
    position.takeWhile (· == byteOf '/') ≠ [] := by
  obtain ⟨byte, rest, rfl⟩ := exists_cons_of_ne_nil h
  by_cases hbyte : byte = byteOf '/'
  · rw [takeWhile_cons, if_pos (by simpa using hbyte)]
    exact cons_ne_nil _ _
  · rw [dropWhile_cons, if_neg (by simpa using hbyte), takeWhile_cons,
      if_pos (by simpa using hbyte)] at hempty
    cases hempty

theorem head?_behind (position : Bytes) :
    (position.dropWhile (· != byteOf '/')) = [] ∨
      (position.dropWhile (· != byteOf '/')).head? = some (byteOf '/') := by
  have hhead := head?_dropWhile_not (· != byteOf '/') position
  cases hdrop : position.dropWhile (· != byteOf '/') with
  | nil => exact .inl rfl
  | cons byte rest =>
    rw [hdrop] at hhead
    exact .inr (congrArg some (by simpa using hhead))

theorem isEmpty_pathComponents (text : Bytes) : (pathComponents text).isEmpty = text.isEmpty := by
  cases text with
  | nil =>
    rw [pathComponents, if_pos rfl]
    rfl
  | cons byte rest =>
    rw [pathComponents, if_neg (cons_ne_nil _ _)]
    rfl

theorem matches_cons {separators component before found : Bytes} {pieces : List (Bytes × Bytes)} :
    Matches fs d ((separators, component) :: pieces) before found ↔
      ∃ name, Names fs d (before ++ separators) component pieces.isEmpty name ∧
        Matches fs d pieces (before ++ separators ++ name) found := by
  constructor
  · intro h
    cases h with
    | next names rest => exact ⟨_, names, rest⟩
  · rintro ⟨name, names, rest⟩
    exact .next names rest

/-- **The traversal keeps the paths that match what it has gone past**: what it ends
with are the paths that match the rest behind one of those it has. -/
theorem walkComponents_fields (hfs : fs.Orderly) (position : Bytes) (components : ℕ)
    (paths : Output) (hnodup : paths.fields.Nodup) (hstanding : Standing paths.fields position)
    (hlimit : components + (pathComponents position).length ≤ pathnameComponentLimit) :
    ∃ fields log, walkComponents fs d position components paths = (.ok, ⟨fields, log⟩) ∧
      fields.Nodup ∧ ∀ found, found ∈ fields ↔
        ∃ path ∈ paths.fields, Matches fs d (pathComponents position) path found := by
  -- by induction on the components left to walk
  induction hpieces : pathComponents position generalizing position components paths with
  | nil =>
    have hnil : position = [] := by
      by_contra hne
      rw [pathComponents, if_neg hne] at hpieces
      cases hpieces
    refine ⟨paths.fields, paths.log, ?_, hnodup, fun found => ?_⟩
    · rw [walkComponents, dif_pos hnil]
    · constructor
      · exact fun h => ⟨found, h, .done found⟩
      · rintro ⟨path, hpath, hmatch⟩
        cases hmatch
        exact hpath
  | cons piece pieces ih =>
    have hne : position ≠ [] := by
      rintro rfl
      rw [pathComponents, if_pos rfl] at hpieces
      cases hpieces
    have hunfold := hpieces
    rw [pathComponents, if_neg hne, cons.injEq] at hunfold
    obtain ⟨rfl, hrest⟩ := hunfold
    rw [walkComponents, dif_neg hne]
    by_cases hempty : paths.fields = []
    · refine ⟨[], paths.log, ?_, nodup_nil, fun found => ?_⟩
      · rw [if_pos hempty, ← hempty]
      · simp [hempty]
    rw [hpieces, length_cons] at hlimit
    rw [if_neg hempty]
    dsimp only at hrest ⊢
    rw [if_neg (by omega)]
    have hfinal : (((position.dropWhile (· == byteOf '/')).dropWhile (· != byteOf '/')).isEmpty) =
        pieces.isEmpty := by
      rw [← hrest, isEmpty_pathComponents]
    obtain ⟨log, hextend⟩ := extendPaths_fields (d := d) hfs (position.takeWhile (· == byteOf '/'))
      ((position.dropWhile (· == byteOf '/')).takeWhile (· != byteOf '/')) pieces.isEmpty
      paths.fields { paths with fields := [] }
    rw [hfinal, hextend]
    dsimp only
    rw [nil_append]
    have hseparators := separators_ne_nil hne
    have hlast : ∀ path ∈ paths.fields, ∀ path' ∈ paths.fields, path ≠ path' →
        ∃ front, position.takeWhile (· == byteOf '/') = front ++ [byteOf '/'] := by
      rcases hstanding with hfront | hnil | hslash
      · -- there is one path at the front
        intro path hpath path' hpath' hdiffer
        rw [hfront, mem_singleton] at hpath hpath'
        exact absurd (hpath.trans hpath'.symm) hdiffer
      · exact absurd hnil hne
      · exact fun _ _ _ _ _ => separators_last hslash
    generalize position.takeWhile (· == byteOf '/') = separators at *
    generalize (position.dropWhile (· == byteOf '/')).takeWhile (· != byteOf '/') = component at *
    have hnodup' : (paths.fields.flatMap
        (extensions fs d separators component pieces.isEmpty)).Nodup := by
      rw [nodup_flatMap]
      refine ⟨fun path _ => extensions_nodup hfs _ _ _ _, ?_⟩
      refine List.Pairwise.imp_of_mem ?_ hnodup
      intro path path' hpath hpath' hdiffer
      exact extensions_disjoint hfs (hlast path hpath path' hpath' hdiffer) hdiffer
    obtain ⟨fields, log', hwalk, hfields, hmem⟩ := ih _ (components + 1)
      { fields := paths.fields.flatMap (extensions fs d separators component pieces.isEmpty),
        log := log } hnodup' (.inr (head?_behind _)) (by rw [hrest]; omega) hrest
    refine ⟨fields, log', hwalk, hfields, fun found => ?_⟩
    rw [hmem]
    simp only [mem_flatMap, mem_extensions hseparators, matches_cons]
    constructor
    · rintro ⟨_, ⟨path, hpath, name, hnames, rfl⟩, hmatch⟩
      exact ⟨path, hpath, name, hnames, hmatch⟩
    · rintro ⟨path, hpath, name, hnames, hmatch⟩
      exact ⟨_, ⟨path, hpath, name, hnames, rfl⟩, hmatch⟩

end Walk

/-! ### The whole expansion -/

section Expansion

variable {fs : FileSystem} {d : Decoder}

theorem comparePaths_total (hfs : fs.Orderly) (a b : Bytes) :
    (comparePaths fs a b || comparePaths fs b a) = true := by
  have := hfs.collation
  cases h : fs.strcoll a b with
  | lt => simp [comparePaths, h]
  | gt => simp [comparePaths, Std.OrientedCmp.gt_iff_lt.mp h]
  | eq =>
    have hback := Std.OrientedCmp.eq_symm h
    simpa [comparePaths, h, hback] using List.le_total a b

theorem comparePaths_trans (hfs : fs.Orderly) (a b c : Bytes) (h : comparePaths fs a b = true)
    (h' : comparePaths fs b c = true) : comparePaths fs a c = true := by
  have := hfs.collation
  unfold comparePaths at h h' ⊢
  cases hab : fs.strcoll a b with
  | gt => simp [hab] at h
  | lt =>
    cases hbc : fs.strcoll b c with
    | gt => simp [hbc] at h'
    | lt => simp [Std.TransCmp.lt_trans hab hbc]
    | eq => simp [Std.TransCmp.lt_of_lt_of_eq hab hbc]
  | eq =>
    cases hbc : fs.strcoll b c with
    | gt => simp [hbc] at h'
    | lt => simp [Std.TransCmp.lt_of_eq_of_lt hab hbc]
    | eq =>
      rw [hab] at h
      rw [hbc] at h'
      rw [Std.TransCmp.eq_trans hab hbc]
      exact decide_eq_true (List.le_trans (of_decide_eq_true h) (of_decide_eq_true h'))

/-- What a field expands to: the paths that match its pattern, each once and sorted, or
the raw field. -/
structure Globbed (fs : FileSystem) (d : Decoder) (raw pattern : Bytes) (fields : List Bytes) :
    Prop where
  /-- Without a wildcard, or without a match, the field stays as it is. -/
  unmatched : ((∀ piece ∈ pathComponents (pathnamePattern d pattern), hasPattern d piece.2 = false) ∨
      ∀ path, ¬Matches fs d (pathComponents (pathnamePattern d pattern)) [] path) → fields = [raw]
  matched : (∃ piece ∈ pathComponents (pathnamePattern d pattern), hasPattern d piece.2 = true) →
    (∃ path, Matches fs d (pathComponents (pathnamePattern d pattern)) [] path) →
    (∀ path, path ∈ fields ↔ Matches fs d (pathComponents (pathnamePattern d pattern)) [] path) ∧
      fields.Nodup ∧ fields.Pairwise fun a b => comparePaths fs a b = true

/-- **Pathname expansion appends what matches.**  In a file system without other errors
than those of paths that cannot be followed, a pattern with a wildcard in one of its
normalized components, and then only, is replaced by the paths that match it, each once
and sorted, if there are any; without a wildcard nothing is looked up. -/
theorem pathnameExpand_matches (hd : d.Stateless) (hslash : d.SlashSafe) (hfs : fs.Orderly)
    (raw pattern : Bytes) (out : Output)
    (hlimit : (pathComponents (pathnamePattern d pattern)).length ≤ pathnameComponentLimit) :
    (hasPattern d pattern = true ↔
      ∃ piece ∈ pathComponents (pathnamePattern d pattern), hasPattern d piece.2 = true) ∧
    ∃ fields log, pathnameExpand fs d raw pattern out = (.ok, ⟨out.fields ++ fields, log⟩) ∧
      (hasPattern d pattern = false → log = out.log) ∧ Globbed fs d raw pattern fields := by
  have hsome := hasPattern_iff_component hd hslash pattern
  refine ⟨hsome, ?_⟩
  by_cases hpattern : hasPattern d pattern = true
  · obtain ⟨fields, log, hwalk, hnodup, hmem⟩ := walkComponents_fields (d := d) hfs
      (pathnamePattern d pattern) 0 { fields := [[]], log := out.log } (nodup_singleton [])
      (.inl rfl) (by omega)
    have hmem : ∀ path, path ∈ fields ↔
        Matches fs d (pathComponents (pathnamePattern d pattern)) [] path := by simpa using hmem
    rw [pathnameExpand, if_neg (by simp [hpattern]), hwalk]
    dsimp only
    by_cases hnone : fields = []
    · have hnomatch : ∀ path, ¬Matches fs d (pathComponents (pathnamePattern d pattern)) [] path := by
        intro path hmatch
        rw [← hmem, hnone] at hmatch
        cases hmatch
      refine ⟨[raw], log, ?_, fun h => absurd hpattern (by simp [h]), fun _ => rfl, fun _ hfound => ?_⟩
      · rw [if_pos hnone]
        rfl
      · obtain ⟨path, hpath⟩ := hfound
        exact absurd hpath (hnomatch path)
    · have hperm := mergeSort_perm fields (comparePaths fs)
      refine ⟨fields.mergeSort (comparePaths fs), log, ?_, fun h => absurd hpattern (by simp [h]),
        fun h => ?_, fun _ _ => ⟨fun path => ?_, ?_, ?_⟩⟩
      · rw [if_neg hnone]
      · exfalso
        rcases h with hplain | hnomatch
        · obtain ⟨piece, hpiece, hwild⟩ := hsome.mp hpattern
          rw [hplain piece hpiece] at hwild
          cases hwild
        · obtain ⟨path, hpath⟩ := exists_mem_of_ne_nil _ hnone
          exact hnomatch path ((hmem path).mp hpath)
      · rw [hperm.mem_iff, hmem]
      · exact hperm.nodup_iff.mpr hnodup
      · exact pairwise_mergeSort (comparePaths_trans hfs) (comparePaths_total hfs) fields
  · refine ⟨[raw], out.log, ?_, fun _ => rfl, fun _ => rfl,
      fun hwild _ => absurd (hsome.mpr hwild) hpattern⟩
    rw [pathnameExpand_of_not_hasPattern (Bool.eq_false_iff.mpr hpattern)]
    rfl

end Expansion

/-! ### A small file system -/

/-- One directory with some files in it, where `*` matches what has no leading
period. -/
def directoryOfFiles (names : List Bytes) : FileSystem where
  fnmatch pattern text period :=
    pattern == text || (pattern == ascii "*" && !(period && text.head? == some (byteOf '.')))
  strcoll a b := compare a b
  opendir path := if path = ascii "." then .ok { entries := names } else .error .noent
  lstat path := if path ∈ names then .ok () else .error .noent
  stat path := if path ∈ names then .ok false else .error .noent

theorem directoryOfFiles_orderly {names : List Bytes} (hnodup : names.Nodup)
    (hslash : ∀ name ∈ names, byteOf '/' ∉ name) : (directoryOfFiles names).Orderly := by
  have hopen : ∀ {path : Bytes} {listing : Listing},
      (directoryOfFiles names).opendir path = .ok listing → listing = { entries := names } := by
    intro path listing h
    simp only [directoryOfFiles] at h
    split at h
    · cases h
      rfl
    · cases h
  constructor
  · intro path e h
    simp only [directoryOfFiles] at h
    split at h <;> cases h
    rfl
  · intro path listing h e herror
    rw [hopen h] at herror
    cases herror
  · intro path listing h e herror
    rw [hopen h] at herror
    cases herror
  · intro path e h
    simp only [directoryOfFiles] at h
    split at h <;> cases h
    rfl
  · intro path e h
    simp only [directoryOfFiles] at h
    split at h <;> cases h
    rfl
  · intro path listing h
    rw [hopen h]
    exact hnodup
  · intro path listing h
    rw [hopen h]
    exact hslash
  · exact inferInstanceAs (Std.TransCmp fun a b : Bytes => compare a b)

theorem posix_slashSafe : Decoder.posix.SlashSafe := by
  intro text n h hlong
  have := Quoting.posix_stateless.short h
  simp only [Decoder.posix] at this
  omega

/-- Three files and the pattern `*`. -/
theorem pathnameExpand_matches_star : ∃ fields log,
    pathnameExpand (directoryOfFiles [ascii "b", ascii "a", ascii ".c"]) .posix (ascii "*")
      (ascii "*") {} = (.ok, ⟨fields, log⟩) ∧
    (hasPattern .posix (ascii "*") = false → log = []) ∧
    Globbed (directoryOfFiles [ascii "b", ascii "a", ascii ".c"]) .posix (ascii "*") (ascii "*")
      fields := by
  have hfs : (directoryOfFiles [ascii "b", ascii "a", ascii ".c"]).Orderly :=
    directoryOfFiles_orderly (by decide +kernel) (by decide +kernel)
  exact (pathnameExpand_matches Quoting.posix_stateless posix_slashSafe hfs (ascii "*") (ascii "*") {}
    (by decide +kernel)).2

/-- An expansion that produced a backslash and a letter. -/
def backslashed : List Cell := [⟨byteOf '\\', false, false⟩, ⟨byteOf 'a', false, false⟩]

/-- **A pattern without a wildcard is never looked up**, even where unescaping it would
name a file: the field keeps its backslash. -/
theorem backslashed_unmatched :
    (directoryOfFiles [ascii "a"]).Orderly ∧
    Matches (directoryOfFiles [ascii "a"]) .posix
      (pathComponents (pathnamePattern .posix
        (makePattern .posix .argument backslashed false .outside))) [] (ascii "a") ∧
    pathnameExpand (directoryOfFiles [ascii "a"]) .posix (rawOf backslashed)
      (makePattern .posix .argument backslashed false .outside) {} =
        (.ok, ⟨[rawOf backslashed], []⟩) ∧
    ascii "a" ∉ [rawOf backslashed] := by
  have hpattern : makePattern .posix .argument backslashed false .outside = ascii "\\a" := by
    decide +kernel
  have hplain : hasPattern .posix (ascii "\\a") = false := by decide +kernel
  have hpieces : pathComponents (pathnamePattern .posix (ascii "\\a")) = [([], ascii "\\a")] := by
    decide +kernel
  have hname : unescape .posix (ascii "\\a") = ascii "a" := by decide +kernel
  refine ⟨directoryOfFiles_orderly (by decide +kernel) (by decide +kernel), ?_, ?_, by decide +kernel⟩
  · rw [hpattern, hpieces]
    refine .next (.literal hplain fun _ => ?_) ?_
    · rw [hname, Present, if_neg (by decide +kernel)]
      rfl
    · rw [hname]
      exact .done _
  · rw [hpattern, pathnameExpand_of_not_hasPattern hplain]
    rfl

end Globbing
end CShell
