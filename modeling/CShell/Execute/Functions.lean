import CShell.Parse.Shared
import CShell.Lib.Table

/-!
# The lives of functions

A function outlives the program it was defined in, and a call outlives the definition: a
body may redefine or unset the very function it belongs to, and the text it came from may
be gone before it runs.  A definition keeps the tree by one more count in the tree's node;
the object that stands for it counts the tables it is in, the copies that checkpoints make
of these, and the calls under way.

## Main definitions

* `Memory` — the nodes, and the functions that refer to them.
* `functionRelease`, `setFunction`, `cloneFunctions` — what counts references.
* `Shell`, `Event` — parsing, running, defining, calling, saving and restoring.

## Main results

* `Alive.release`, `Alive.set` — the counts stay right.
* `May.perform` — one event.
* `bodies_survive` — **in no run is anything used after it is freed, or left behind; and
  what runs is there, unchanged, until it ends**, whatever happens meanwhile.

## References

`src/state.c` (`csh_function_retain`, `csh_function_release`, `csh_state_set_function`,
`csh_state_clone`, `csh_state_restore`, `csh_state_destroy`), `src/execute.c`
(`function_destroy`, `define_function`, `flow_handler`, `evaluate_input`), `src/main.c`.
-/

namespace CShell.Execute

namespace Functions

open Parse.Shared

/-! ### Functions -/

/-- `struct shell_function`. -/
structure Function where
  references : ℕ
  tree : ℕ
  deriving DecidableEq, Repr, Inhabited

/-- What is allocated. -/
structure Memory (limit capacity : ℕ) where
  nodes : Nodes limit
  functions : Slots capacity Function

/-- `struct function_entry`, with the functions by address. -/
abbrev Definitions := List (Bytes × ℕ)

section Functions

variable {limit capacity : ℕ}

/-- The count of a function is written. -/
def Memory.recount (m : Memory limit capacity) (f : ℕ) (function : Function) (references : ℕ) :
    Memory limit capacity :=
  { m with functions := m.functions.put f { function with references } }

/-- `csh_function_retain`; `none` when the function is free. -/
def functionRetain (m : Memory limit capacity) (f : ℕ) : Option (Memory limit capacity) :=
  match m.functions.get f with
  | none => none
  | some function => some (m.recount f function (function.references + 1))

/-- `csh_function_release`, with `function_destroy`. -/
def functionRelease (m : Memory limit capacity) (f : ℕ) : Option (Memory limit capacity) :=
  match m.functions.get f with
  | none => none
  | some function =>
    if function.references - 1 = 0 then
      match astDestroy m.nodes (some function.tree) with
      | none => none
      | some nodes => some { nodes, functions := m.functions.clear f }
    else some (m.recount f function (function.references - 1))

/-- `csh_state_set_function` on the table of one state. -/
def setFunction (name : Bytes) (function : Option ℕ) (t : Definitions) (m : Memory limit capacity) :
    Option (Bool × Definitions × Memory limit capacity) :=
  if validName name = false then some (false, t, m)
  else
    match function with
    | none =>
      match Table.find? name t with
      | none => some (true, t, m)
      | some old => (functionRelease m old).map fun m => (true, Table.erase name t, m)
    | some f =>
      match functionRetain m f with
      | none => none
      | some m =>
        match Table.find? name t with
        | none => some (true, Table.put name f t, m)
        | some old => (functionRelease m old).map fun m => (true, Table.put name f t, m)

/-- The loop of `csh_state_destroy`. -/
def releaseFunctions : Definitions → Memory limit capacity → Option (Memory limit capacity)
  | [], m => some m
  | entry :: t, m =>
    match functionRelease m entry.2 with
    | none => none
    | some m => releaseFunctions t m

/-- The loop of `csh_state_clone`. -/
def cloneFunctions : Definitions → Definitions → Memory limit capacity →
    Option (Bool × Definitions × Memory limit capacity)
  | [], copy, m => some (true, copy, m)
  | entry :: t, copy, m =>
    match setFunction entry.1 (some entry.2) copy m with
    | none => none
    | some (false, copy, m) => some (false, copy, m)
    | some (true, copy, m) => cloneFunctions t copy m

/-! ### The shell -/

/-- What runs: a tree that was just read, or a function. -/
inductive Frame
  | program (tree : ℕ)
  | call (function : ℕ)
  deriving DecidableEq, Repr

/-- The shell: the references its parsers hold, the functions of its state and of the
checkpoints of it, and what runs, the innermost first. -/
structure Shell (limit capacity : ℕ) where
  memory : Memory limit capacity
  parsing : Multiset ℕ := 0
  definitions : Definitions := []
  checkpoints : List Definitions := []
  frames : List Frame := []

/-- What happens: a parser calls `ast.c`; a tree that was read begins to run, and is
destroyed behind its end; a function is defined at an address that `calloc` returns, unset,
called, or returns; the state is saved, restored, or a checkpoint of it dropped. -/
inductive Event
  | parse (request : Request)
  | program (tree : ℕ)
  | finish
  | define (name : Bytes) (tree address : ℕ)
  | unset (name : Bytes)
  | call (name : Bytes)
  | leave
  | save
  | restore
  | discard

variable {events : List Event}

namespace Shell

/-- The end of `define_function`. -/
def define (s : Shell limit capacity) (name : Bytes) (tree address : ℕ) : Option (Shell limit capacity) :=
  match astRetain s.memory.nodes (some tree) with
  | none => none
  | some nodes =>
    let m : Memory limit capacity := ⟨nodes, s.memory.functions.put address ⟨1, tree⟩⟩
    match setFunction name (some address) s.definitions m with
    | none => none
    | some (_, definitions, m) =>
      (functionRelease m address).map fun memory => { s with memory, definitions }

/-- `csh_state_save`. -/
def save (s : Shell limit capacity) : Option (Shell limit capacity) :=
  match cloneFunctions s.definitions [] s.memory with
  | none => none
  | some (true, copy, memory) => some { s with memory, checkpoints := copy :: s.checkpoints }
  | some (false, copy, m) => (releaseFunctions copy m).map fun memory => { s with memory }

/-- What an event does; `none` when something is used that is free. -/
def perform (s : Shell limit capacity) : Event → Option (Shell limit capacity)
  | .parse request =>
    match request.perform s.memory.nodes with
    | none => none
    | some (.error _) => some s
    | some (.ok nodes) =>
      some { s with memory := { s.memory with nodes }
                    parsing := s.parsing - bag request.taken + bag request.given }
  | .program tree => some { s with parsing := s.parsing - {tree}, frames := .program tree :: s.frames }
  | .finish =>
    match s.frames with
    | .program tree :: frames =>
      (astDestroy s.memory.nodes (some tree)).map fun nodes =>
        { s with memory := { s.memory with nodes }, frames }
    | _ => some s
  | .define name tree address => s.define name tree address
  | .unset name =>
    (setFunction name none s.definitions s.memory).map fun r => { s with memory := r.2.2, definitions := r.2.1 }
  | .call name =>
    match Table.find? name s.definitions with
    | none => some s
    | some f => (functionRetain s.memory f).map fun memory => { s with memory, frames := .call f :: s.frames }
  | .leave =>
    match s.frames with
    | .call f :: frames => (functionRelease s.memory f).map fun memory => { s with memory, frames }
    | _ => some s
  | .save => s.save
  | .restore =>
    match s.checkpoints with
    | t :: checkpoints =>
      (releaseFunctions s.definitions s.memory).map fun memory =>
        { s with memory, definitions := t, checkpoints }
    | [] => some s
  | .discard =>
    match s.checkpoints with
    | t :: checkpoints => (releaseFunctions t s.memory).map fun memory => { s with memory, checkpoints }
    | [] => some s

/-- The tree that a frame runs. -/
def root (s : Shell limit capacity) : Frame → Option ℕ
  | .program tree => some tree
  | .call f => (s.memory.functions.get f).map Function.tree

/-- What the shell does for an event to be sound: its parsers hold what they must; a tree
that runs was read and is given up by the parser; a definition is a part of what runs; and
memory that is allocated was free. -/
def May (s : Shell limit capacity) : Event → Prop
  | .parse request => Holding s.memory.nodes s.parsing request
  | .program tree => tree ∈ s.parsing
  | .define _ tree address =>
    (∃ frame frames root, s.frames = frame :: frames ∧ s.root frame = some root ∧
      Sharing.Reach Node.kids s.memory.nodes {root} tree) ∧
    s.memory.functions.get address = none ∧ address < capacity
  | _ => True

/-- A run. -/
def run (s : Shell limit capacity) : List Event → Option (Shell limit capacity)
  | [] => some s
  | event :: events =>
    match s.perform event with
    | none => none
    | some s => run s events

/-- The shell does what it must at every event of a run. -/
def Obeys (s : Shell limit capacity) : List Event → Prop
  | [] => True
  | event :: events => s.May event ∧ ∀ s', s.perform event = some s' → Obeys s' events

/-- A frame is there all along a run. -/
def Stays (frame : Frame) (s : Shell limit capacity) : List Event → Prop
  | [] => frame ∈ s.frames
  | event :: events => frame ∈ s.frames ∧ ∀ s', s.perform event = some s' → Stays frame s' events

end Shell

/-! ### Counting references -/

/-- The trees that functions refer to. -/
def bodies (functions : Slots capacity Function) : Multiset ℕ :=
  functions.sum fun function => {function.tree}

/-- The functions of a table. -/
def values (t : Definitions) : Multiset ℕ := t.map Prod.snd

/-- Every function has the references that it counts, of which there are `fns`, and the
nodes have those of the functions and `trees`. -/
structure Alive (m : Memory limit capacity) (fns trees : Multiset ℕ) : Prop where
  counts : ∀ f function, m.functions.get f = some function →
    function.references = fns.count f ∧ function.references ≠ 0
  live : ∀ f ∈ fns, m.functions.get f ≠ none
  sound : Sound m.nodes (trees + bodies m.functions)

/-- What `fns` and `trees` refer to is there as before. -/
structure Remains (m m' : Memory limit capacity) (fns trees : Multiset ℕ) : Prop where
  nodes : Sharing.Kept Node.kids trees m.nodes m'.nodes
  functions : ∀ f ∈ fns, ∃ function function', m.functions.get f = some function ∧
    m'.functions.get f = some function' ∧ function'.tree = function.tree ∧
    Sharing.Kept Node.kids {function.tree} m.nodes m'.nodes

variable {m m' m'' : Memory limit capacity} {fns trees : Multiset ℕ}

theorem tree_mem_bodies {functions : Slots capacity Function} {f : ℕ} {function : Function}
    (hget : functions.get f = some function) : function.tree ∈ bodies functions := by
  unfold bodies
  rw [← Slots.sum_clear hget]
  exact Multiset.mem_add.mpr (.inl (Multiset.mem_singleton_self _))

theorem Remains.trans (h₁ : Remains m m' fns trees) (h₂ : Remains m' m'' fns trees) :
    Remains m m'' fns trees where
  nodes := h₁.nodes.trans h₂.nodes
  functions := by
    intro f hf
    obtain ⟨a, b, ha, hb, htree, hkept⟩ := h₁.functions f hf
    obtain ⟨b', c, hb', hc, htree', hkept'⟩ := h₂.functions f hf
    rw [hb] at hb'
    cases hb'
    rw [htree] at hkept'
    exact ⟨a, c, ha, hc, htree'.trans htree, hkept.trans hkept'⟩

theorem Remains.mono {fns' trees' : Multiset ℕ} (h : Remains m m' fns' trees') (hfns : fns ≤ fns')
    (htrees : trees ≤ trees') : Remains m m' fns trees where
  nodes := h.nodes.mono htrees
  functions := fun f hf => h.functions f (Multiset.mem_of_le hfns hf)

/-- Where functions keep their trees and all nodes are kept that are held. -/
theorem Alive.remains {fns' trees' kept : Multiset ℕ} (halive : Alive m' fns' trees')
    (hnodes : Sharing.Kept Node.kids (kept + bodies m'.functions) m.nodes m'.nodes)
    (hfunctions : ∀ f function', m'.functions.get f = some function' →
      ∃ function, m.functions.get f = some function ∧ function'.tree = function.tree) :
    Remains m m' fns' kept where
  nodes := hnodes.mono (Multiset.le_add_right _ _)
  functions := by
    intro f hf
    obtain ⟨function', hget'⟩ := Option.ne_none_iff_exists'.mp (halive.live f hf)
    obtain ⟨function, hget, htree⟩ := hfunctions f function' hget'
    refine ⟨function, function', hget, hget', htree, hnodes.mono ?_⟩
    rw [Multiset.singleton_le, ← htree]
    exact Multiset.mem_add.mpr (.inr (tree_mem_bodies hget'))

theorem Alive.refl (halive : Alive m fns trees) : Remains m m fns trees :=
  halive.remains halive.sound.counted.kept_refl fun _ function' hget => ⟨function', hget, rfl⟩

/-- Another count for a function. -/
theorem Alive.recount {f count : ℕ} {function : Function} {fns' : Multiset ℕ} (halive : Alive m fns trees)
    (hget : m.functions.get f = some function) (hcount : count = fns'.count f) (hne : count ≠ 0)
    (hother : ∀ g, g ≠ f → fns'.count g = fns.count g) :
    Alive (m.recount f function count) fns' trees ∧ Remains m (m.recount f function count) fns' trees := by
  have hat : ∀ g, (m.recount f function count).functions.get g =
      if g = f then some { function with references := count } else m.functions.get g :=
    fun g => Slots.get_put (Slots.lt_of_get hget) _ g
  have hbodies : bodies (m.recount f function count).functions = bodies m.functions :=
    add_left_cancel (Slots.sum_put hget _ _)
  have hcell : ∀ g function', (m.recount f function count).functions.get g = some function' →
      ∃ function, m.functions.get g = some function ∧ function'.tree = function.tree := by
    intro g function' hget'
    rw [hat] at hget'
    split at hget'
    · next hg =>
      cases hget'
      exact ⟨function, hg ▸ hget, rfl⟩
    · exact ⟨function', hget', rfl⟩
  have hrecounted : Alive (m.recount f function count) fns' trees := by
    refine ⟨?_, ?_, by rw [hbodies]; exact halive.sound⟩
    · intro g function' hget'
      rw [hat] at hget'
      split at hget'
      · next hg =>
        cases hget'
        exact ⟨hg ▸ hcount, hne⟩
      · next hg =>
        rw [hother g hg]
        exact halive.counts g function' hget'
    · intro g hg
      rw [hat]
      split
      · exact Option.some_ne_none _
      · next hgf =>
        refine halive.live g (Multiset.count_pos.mp ?_)
        rw [← hother g hgf]
        exact Multiset.count_pos.mpr hg
  refine ⟨hrecounted, hrecounted.remains ?_ hcell⟩
  rw [hbodies]
  exact halive.sound.counted.kept_refl

/-- **A function is retained.** -/
theorem Alive.retain {f : ℕ} (halive : Alive m fns trees) (hf : f ∈ fns) :
    ∃ m', functionRetain m f = some m' ∧ Alive m' (f ::ₘ fns) trees ∧ Remains m m' (f ::ₘ fns) trees := by
  obtain ⟨function, hget⟩ := Option.ne_none_iff_exists'.mp (halive.live f hf)
  refine ⟨_, by rw [functionRetain, hget], halive.recount hget ?_ (Nat.succ_ne_zero _) ?_⟩
  · rw [Multiset.count_cons_self, (halive.counts f function hget).1]
  · exact fun g hg => Multiset.count_cons_of_ne hg fns

/-- **A function is released**, and destroyed with the last reference. -/
theorem Alive.release {f : ℕ} (halive : Alive m (f ::ₘ fns) trees) :
    ∃ m', functionRelease m f = some m' ∧ Alive m' fns trees ∧ Remains m m' fns trees := by
  obtain ⟨function, hget⟩ :=
    Option.ne_none_iff_exists'.mp (halive.live f (Multiset.mem_cons_self f fns))
  obtain ⟨hcount, -⟩ := halive.counts f function hget
  rw [Multiset.count_cons_self] at hcount
  have hother : ∀ g, g ≠ f → fns.count g = (f ::ₘ fns).count g :=
    fun g hg => (Multiset.count_cons_of_ne hg fns).symm
  unfold functionRelease
  rw [hget]
  dsimp only
  by_cases hlast : function.references - 1 = 0
  · -- the last reference: the tree of the function is given up
    rw [if_pos hlast]
    have hbodies : {function.tree} + bodies (m.functions.clear f) = bodies m.functions :=
      Slots.sum_clear hget fun function => ({function.tree} : Multiset ℕ)
    have hrefs : trees + bodies m.functions =
        ([some function.tree].reduceOption : Multiset ℕ) + (trees + bodies (m.functions.clear f)) := by
      rw [← hbodies, add_left_comm]
      rfl
    have hsound := halive.sound
    rw [hrefs] at hsound
    obtain ⟨nodes, hfreed, hsound', hkept⟩ := Sharing.Sound.destroy hsound
    rw [astDestroy_eq, hfreed]
    have hnone : f ∉ fns := by
      intro hmem
      have := Multiset.count_pos.mpr hmem
      omega
    have hdestroyed : Alive ⟨nodes, m.functions.clear f⟩ fns trees := by
      refine ⟨?_, ?_, hsound'⟩
      · intro g function' hget'
        rw [Slots.get_clear] at hget'
        split at hget'
        · cases hget'
        · next hg =>
          rw [hother g hg]
          exact halive.counts g function' hget'
      · intro g hg
        have hne : g ≠ f := by
          rintro rfl
          exact hnone hg
        rw [Slots.get_clear, if_neg hne]
        exact halive.live g (Multiset.mem_cons_of_mem hg)
    refine ⟨_, rfl, hdestroyed, hdestroyed.remains hkept ?_⟩
    intro g function' hget'
    rw [Slots.get_clear] at hget'
    split at hget'
    · cases hget'
    · exact ⟨function', hget', rfl⟩
  · rw [if_neg hlast]
    refine ⟨_, rfl, halive.recount hget ?_ hlast hother⟩
    omega

/-! ### Tables -/

variable {name : Bytes} {t : Definitions}

theorem values_put_of_none (h : Table.find? name t = none) (f : ℕ) :
    values (Table.put name f t) = f ::ₘ values t := by
  unfold values
  rw [Table.values_put_of_none h, ← Multiset.coe_add, Multiset.coe_singleton, add_comm,
    Multiset.singleton_add]

theorem values_put_of_some {old : ℕ}
    (h : Table.find? name t = some old) (f : ℕ) :
    old ::ₘ values (Table.put name f t) = f ::ₘ values t :=
  Multiset.coe_eq_coe.mpr (Table.values_put_of_some h f)

theorem values_erase {old : ℕ} (h : Table.find? name t = some old) :
    old ::ₘ values (Table.erase name t) = values t :=
  Multiset.coe_eq_coe.mpr (Table.values_erase h)

/-- **An entry of a table is set or removed**: the table has the references of its entries
again, and nothing else is touched. -/
theorem Alive.set (name : Bytes) (function : Option ℕ)
    (halive : Alive m (values t + fns) trees) (hfunction : ∀ f ∈ function, f ∈ fns) :
    ∃ r, setFunction name function t m = some r ∧ Alive r.2.2 (values r.2.1 + fns) trees ∧
      Remains m r.2.2 fns trees := by
  have hfns : fns ≤ values t + fns := Multiset.le_add_left fns (values t)
  unfold setFunction
  split
  · exact ⟨_, rfl, halive, halive.refl.mono hfns le_rfl⟩
  · cases function with
    | none =>
      dsimp only
      cases hfind : Table.find? name t with
      | none => exact ⟨_, rfl, halive, halive.refl.mono hfns le_rfl⟩
      | some old =>
        rw [← values_erase hfind, Multiset.cons_add] at halive
        obtain ⟨m', hreleased, halive', hremains⟩ := halive.release
        dsimp only
        refine ⟨(true, Table.erase name t, m'), by rw [hreleased]; rfl, halive', ?_⟩
        exact hremains.mono (Multiset.le_add_left _ _) le_rfl
    | some f =>
      have hmem : f ∈ values t + fns := Multiset.mem_add.mpr (.inr (hfunction f rfl))
      obtain ⟨m₁, hretained, halive₁, hremains₁⟩ := halive.retain hmem
      have hremains₁' : Remains m m₁ fns trees :=
        hremains₁.mono (hfns.trans (Multiset.le_cons_self _ f)) le_rfl
      dsimp only
      rw [hretained]
      dsimp only
      cases hfind : Table.find? name t with
      | none =>
        refine ⟨_, rfl, ?_, hremains₁'⟩
        rw [values_put_of_none hfind, Multiset.cons_add]
        exact halive₁
      | some old =>
        rw [← Multiset.cons_add, ← values_put_of_some hfind, Multiset.cons_add] at halive₁
        obtain ⟨m', hreleased, halive', hremains⟩ := halive₁.release
        dsimp only
        refine ⟨(true, Table.put name f t, m'), by rw [hreleased]; rfl, halive', ?_⟩
        exact hremains₁'.trans (hremains.mono (Multiset.le_add_left _ _) le_rfl)

/-- A table is given up. -/
theorem Alive.releaseFunctions {m : Memory limit capacity}
    (halive : Alive m (values t + fns) trees) :
    ∃ m', Functions.releaseFunctions t m = some m' ∧ Alive m' fns trees ∧ Remains m m' fns trees := by
  induction t generalizing m with
  | nil =>
    have hnil : values [] + fns = fns := zero_add fns
    rw [hnil] at halive
    exact ⟨m, rfl, halive, halive.refl⟩
  | cons entry t ih =>
    have hcons : values (entry :: t) = entry.2 ::ₘ values t := (Multiset.cons_coe _ _).symm
    rw [hcons, Multiset.cons_add] at halive
    obtain ⟨m₁, hreleased, halive₁, hremains₁⟩ := halive.release
    obtain ⟨m', hrest, halive', hremains⟩ := ih halive₁
    refine ⟨m', ?_, halive', Remains.trans (hremains₁.mono (Multiset.le_add_left _ _) le_rfl) hremains⟩
    rw [Functions.releaseFunctions, hreleased]
    exact hrest

/-- A table is copied. -/
theorem Alive.cloneFunctions {t copy : Definitions} {m : Memory limit capacity}
    (halive : Alive m (values copy + fns) trees) (ht : ∀ entry ∈ t, entry.2 ∈ fns) :
    ∃ r, Functions.cloneFunctions t copy m = some r ∧ Alive r.2.2 (values r.2.1 + fns) trees ∧
      Remains m r.2.2 fns trees := by
  induction t generalizing copy m with
  | nil => exact ⟨_, rfl, halive, halive.refl.mono (Multiset.le_add_left _ _) le_rfl⟩
  | cons entry t ih =>
    obtain ⟨⟨done, copy₁, m₁⟩, hset, halive₁, hremains₁⟩ := halive.set entry.1 (some entry.2)
      (by rintro _ ⟨⟩; exact ht entry List.mem_cons_self)
    rw [Functions.cloneFunctions, hset]
    cases done with
    | false => exact ⟨_, rfl, halive₁, hremains₁⟩
    | true =>
      obtain ⟨r, hrest, halive', hremains⟩ := ih halive₁ fun e he => ht e (List.mem_cons_of_mem _ he)
      exact ⟨r, hrest, halive', hremains₁.trans hremains⟩

/-! ### Events -/

/-- The function that a frame holds. -/
def Frame.function : Frame → Option ℕ
  | program _ => none
  | call f => some f

/-- The tree that a frame holds. -/
def Frame.tree : Frame → Option ℕ
  | program tree => some tree
  | call _ => none

/-- The functions under way. -/
def calls (frames : List Frame) : Multiset ℕ := frames.filterMap Frame.function

/-- The trees that were read and run. -/
def programs (frames : List Frame) : Multiset ℕ := frames.filterMap Frame.tree

namespace Shell

/-- All references to functions. -/
def functionRefs (s : Shell limit capacity) : Multiset ℕ :=
  values s.definitions + ((s.checkpoints.map values).sum + calls s.frames)

/-- All references to nodes, but those of functions. -/
def treeRefs (s : Shell limit capacity) : Multiset ℕ := s.parsing + programs s.frames

/-- The invariant of the shell. -/
def Sound (s : Shell limit capacity) : Prop := Alive s.memory s.functionRefs s.treeRefs

/-- What runs before and after runs on: the same tree, with the same nodes. -/
def Continues (s s' : Shell limit capacity) : Prop :=
  ∀ frame ∈ s.frames, frame ∈ s'.frames → ∃ root, s.root frame = some root ∧
    s'.root frame = some root ∧ Sharing.Kept Node.kids {root} s.memory.nodes s'.memory.nodes

variable {s s' : Shell limit capacity}

variable {frames : List Frame}

theorem mem_calls {f : ℕ} (hmem : Frame.call f ∈ frames) : f ∈ calls frames :=
  List.mem_filterMap.mpr ⟨_, hmem, rfl⟩

theorem mem_programs {tree : ℕ} (hmem : Frame.program tree ∈ frames) :
    tree ∈ programs frames :=
  List.mem_filterMap.mpr ⟨_, hmem, rfl⟩

theorem calls_le (s : Shell limit capacity) : calls s.frames ≤ s.functionRefs :=
  (Multiset.le_add_left _ _).trans (Multiset.le_add_left _ _)

theorem programs_le (s : Shell limit capacity) : programs s.frames ≤ s.treeRefs := Multiset.le_add_left _ _

/-- What is held by the frames of one of the two states remains. -/
theorem Continues.of_remains (hremains : Remains s.memory s'.memory fns trees)
    (hframes : ∀ frame ∈ s.frames, frame ∈ s'.frames → frame ∈ frames) (hcalls : calls frames ≤ fns)
    (hprograms : programs frames ≤ trees) : Continues s s' := by
  intro frame hmem hmem'
  have hframe := hframes frame hmem hmem'
  cases frame with
  | program tree =>
    have htree := Multiset.mem_of_le hprograms (mem_programs hframe)
    exact ⟨tree, rfl, rfl, hremains.nodes.mono (Multiset.singleton_le.mpr htree)⟩
  | call f =>
    obtain ⟨function, function', hget, hget', htree, hkept⟩ :=
      hremains.functions f (Multiset.mem_of_le hcalls (mem_calls hframe))
    refine ⟨function.tree, congrArg (Option.map _) hget, ?_, hkept⟩
    rw [root, hget', Option.map_some, htree]

/-- An event that keeps the invariant, and what runs. -/
def Goes (s : Shell limit capacity) (result : Option (Shell limit capacity)) : Prop :=
  ∃ s', result = some s' ∧ s'.Sound ∧ Continues s s'

theorem Sound.stay (hs : s.Sound) : Goes s (some s) := by
  refine ⟨s, rfl, hs, .of_remains hs.refl (fun _ hmem _ => hmem) (calls_le s) (programs_le s)⟩

theorem Sound.parse {request : Request} (hs : s.Sound) (hmay : s.May (.parse request)) :
    Goes s (s.perform (.parse request)) := by
  have hholding : Holding s.memory.nodes s.parsing request := hmay
  have hsound : Parse.Shared.Sound s.memory.nodes (s.parsing + (programs s.frames + bodies s.memory.functions)) := by
    rw [← add_assoc]
    exact hs.sound
  obtain ⟨r, hperformed, hkeeps⟩ := hholding.perform hsound
  rw [perform, hperformed]
  cases r with
  | error failure => exact hs.stay
  | ok nodes =>
    obtain ⟨hsound', hkept⟩ := hkeeps nodes rfl
    rw [← add_assoc] at hsound'
    refine ⟨_, rfl, ⟨hs.counts, hs.live, hsound'⟩, ?_⟩
    have hremains : Remains s.memory { s.memory with nodes } s.functionRefs (programs s.frames) :=
      Alive.remains ⟨hs.counts, hs.live, hsound'⟩ hkept fun f function hget => ⟨function, hget, rfl⟩
    exact .of_remains hremains (fun _ hmem _ => hmem) (calls_le s) le_rfl

theorem Sound.program {tree : ℕ} (hs : s.Sound) (hmay : s.May (.program tree)) :
    Goes s (s.perform (.program tree)) := by
  have hread : {tree} ≤ s.parsing := Multiset.singleton_le.mpr hmay
  have htrees : s.parsing - {tree} + programs (.program tree :: s.frames) = s.treeRefs := by
    have hcons : programs (.program tree :: s.frames) = {tree} + programs s.frames := rfl
    rw [hcons, ← add_assoc, tsub_add_cancel_of_le hread, treeRefs]
  refine ⟨_, rfl, ?_, .of_remains hs.refl (fun _ hmem _ => hmem) (calls_le s) (programs_le s)⟩
  unfold Sound treeRefs
  dsimp only
  rw [htrees]
  exact hs

theorem Sound.finish (hs : s.Sound) : Goes s (s.perform .finish) := by
  rw [perform]
  split
  · next tree frames hframes =>
    have hrefs : s.treeRefs + bodies s.memory.functions =
        {tree} + (s.parsing + programs frames + bodies s.memory.functions) := by
      have hcons : programs (.program tree :: frames) = {tree} + programs frames := rfl
      rw [treeRefs, hframes, hcons, add_left_comm s.parsing, add_assoc]
    have hsound := hs.sound
    rw [hrefs] at hsound
    have hbag : bag [some tree] = {tree} := rfl
    obtain ⟨nodes, hfreed, hsound', hkept⟩ := hsound.destroyOwned hbag.le
    have hgiven : ({tree} : Multiset ℕ) - bag [some tree] = 0 := add_tsub_cancel_left {tree} 0
    rw [hgiven, zero_add] at hsound'
    rw [destroyOwned_eq, ← astDestroy_eq] at hfreed
    rw [hfreed]
    have hcalls : calls s.frames = calls frames := by
      rw [hframes]
      rfl
    have halive : Alive { s.memory with nodes } s.functionRefs (s.parsing + programs frames) :=
      ⟨hs.counts, hs.live, hsound'⟩
    have hremains : Remains s.memory { s.memory with nodes } s.functionRefs (s.parsing + programs frames) :=
      halive.remains hkept fun f function hget => ⟨function, hget, rfl⟩
    refine ⟨_, rfl, ?_, .of_remains hremains (fun _ _ hmem => hmem) ?_ (Multiset.le_add_left _ _)⟩
    · unfold Sound functionRefs treeRefs at *
      rw [hcalls] at halive
      exact halive
    · rw [← hcalls]
      exact calls_le s
  · exact hs.stay

/-- Only memory and the definitions change. -/
theorem Goes.of_definitions {definitions : Definitions} {m : Memory limit capacity} {rest : Multiset ℕ}
    (hrest : rest = (s.checkpoints.map values).sum + calls s.frames)
    (halive : Alive m (values definitions + rest) s.treeRefs)
    (hremains : Remains s.memory m rest s.treeRefs) :
    Goes s (some { s with memory := m, definitions }) := by
  subst hrest
  exact ⟨_, rfl, halive, .of_remains hremains (fun _ hmem _ => hmem) (Multiset.le_add_left _ _)
    (programs_le s)⟩

section

variable (hs : s.Sound)
include hs

theorem Sound.define {tree address : ℕ} (hmay : s.May (.define name tree address)) : Goes s (s.perform (.define name tree address)) := by
  obtain ⟨⟨frame, frames, root, hframes, hroot, hreach⟩, hfree, hlt⟩ := hmay
  -- the definition is a part of what runs, so it is there
  have hrefs : {root} ≤ s.treeRefs + bodies s.memory.functions := by
    rw [Multiset.singleton_le]
    cases frame with
    | program t =>
      cases hroot
      refine Multiset.mem_add.mpr (.inl (Multiset.mem_of_le (programs_le s) (mem_programs ?_)))
      rw [hframes]
      exact List.mem_cons_self
    | call f =>
      obtain ⟨function, hget, rfl⟩ := Option.map_eq_some_iff.mp hroot
      exact Multiset.mem_add.mpr (.inr (tree_mem_bodies hget))
  obtain ⟨c, hget⟩ := Option.ne_none_iff_exists'.mp (hs.sound.counted.live_of_reach (hreach.mono hrefs))
  have hretained : astRetain s.memory.nodes (some tree) =
      some (s.memory.nodes.put tree { c with retained := c.retained + 1 }) := by
    rw [astRetain, hget]
  have halike : Sharing.Alike s.memory.nodes (s.memory.nodes.put tree { c with retained := c.retained + 1 }) :=
    .put hget rfl
  have hbodies : bodies (s.memory.functions.put address ⟨1, tree⟩) = {tree} + bodies s.memory.functions :=
    Slots.sum_put_of_free hfree hlt _ _
  have hfresh : address ∉ s.functionRefs := fun hmem => hs.live address hmem hfree
  have hcreated : Alive ⟨s.memory.nodes.put tree { c with retained := c.retained + 1 },
      s.memory.functions.put address ⟨1, tree⟩⟩ (address ::ₘ s.functionRefs) s.treeRefs := by
    refine ⟨?_, ?_, ?_⟩
    · intro f function hget'
      rw [Slots.get_put hlt] at hget'
      split at hget'
      · next hf =>
        cases hget'
        rw [hf, Multiset.count_cons_self, Multiset.count_eq_zero_of_notMem hfresh]
        exact ⟨rfl, one_ne_zero⟩
      · next hf =>
        rw [Multiset.count_cons_of_ne hf]
        exact hs.counts f function hget'
    · intro f hf
      rw [Slots.get_put hlt]
      split
      · exact Option.some_ne_none _
      · next hne => exact hs.live f ((Multiset.mem_cons.mp hf).resolve_left hne)
    · rw [hbodies, add_left_comm, Multiset.singleton_add]
      exact hs.sound.retain hget
  have hremains : Remains s.memory ⟨s.memory.nodes.put tree { c with retained := c.retained + 1 },
      s.memory.functions.put address ⟨1, tree⟩⟩ s.functionRefs s.treeRefs := by
    have hkept := hs.sound.counted.kept_alike halike
    refine ⟨hkept.mono (Multiset.le_add_right _ _), fun f hf => ?_⟩
    obtain ⟨function, hfunction⟩ := Option.ne_none_iff_exists'.mp (hs.live f hf)
    have hne : f ≠ address := by
      rintro rfl
      exact hfresh hf
    refine ⟨function, function, hfunction, ?_, rfl, hkept.mono ?_⟩
    · rw [Slots.get_put_of_ne _ hne]
      exact hfunction
    · rw [Multiset.singleton_le]
      exact Multiset.mem_add.mpr (.inr (tree_mem_bodies hfunction))
  -- the table takes a reference, and the one that `calloc` gave is released
  rw [functionRefs, ← Multiset.add_cons] at hcreated
  obtain ⟨⟨done, definitions, m₁⟩, hset, halive₁, hremains₁⟩ := hcreated.set name (some address)
    (by rintro _ ⟨⟩; exact Multiset.mem_cons_self _ _)
  rw [Multiset.add_cons] at halive₁
  obtain ⟨m', hreleased, halive', hremains'⟩ := halive₁.release
  rw [perform, Shell.define, hretained]
  dsimp only
  rw [hset]
  dsimp only
  rw [hreleased]
  refine .of_definitions rfl halive' ?_
  exact (hremains.mono (Multiset.le_add_left _ _) le_rfl).trans
    ((hremains₁.mono (Multiset.le_cons_self _ _) le_rfl).trans
      (hremains'.mono (Multiset.le_add_left _ _) le_rfl))

theorem Sound.unset : Goes s (s.perform (.unset name)) := by
  obtain ⟨⟨done, definitions, m⟩, hset, halive, hremains⟩ := Alive.set name none hs (by rintro _ ⟨⟩)
  rw [perform, hset]
  exact .of_definitions rfl halive hremains

theorem Sound.call : Goes s (s.perform (.call name)) := by
  rw [perform]
  split
  · exact hs.stay
  · next f hfind =>
    have hmem : f ∈ s.functionRefs := Multiset.mem_add.mpr (.inl (Table.mem_of_find? hfind))
    obtain ⟨m, hretained, halive, hremains⟩ := hs.retain hmem
    have hrefs : f ::ₘ s.functionRefs =
        values s.definitions + ((s.checkpoints.map values).sum + calls (.call f :: s.frames)) := by
      have hcons : calls (.call f :: s.frames) = f ::ₘ calls s.frames := rfl
      rw [hcons, Multiset.add_cons, Multiset.add_cons, functionRefs]
    rw [hretained]
    refine ⟨_, rfl, ?_, .of_remains hremains (fun _ hmem _ => hmem) ?_ (programs_le s)⟩
    · rw [hrefs] at halive
      exact halive
    · exact (calls_le s).trans (Multiset.le_cons_self _ _)

theorem Sound.leave : Goes s (s.perform .leave) := by
  rw [perform]
  split
  · next f frames hframes =>
    have hrefs : s.functionRefs =
        f ::ₘ (values s.definitions + ((s.checkpoints.map values).sum + calls frames)) := by
      have hcons : calls (.call f :: frames) = f ::ₘ calls frames := rfl
      rw [functionRefs, hframes, hcons, Multiset.add_cons, Multiset.add_cons]
    have hprograms : programs s.frames = programs frames := by
      rw [hframes]
      rfl
    unfold Sound at hs
    rw [hrefs, treeRefs, hprograms] at hs
    obtain ⟨m, hreleased, halive, hremains⟩ := hs.release
    rw [hreleased]
    refine ⟨_, rfl, halive, .of_remains hremains (fun _ _ hmem => hmem) ?_ (Multiset.le_add_left _ _)⟩
    exact (Multiset.le_add_left _ _).trans (Multiset.le_add_left _ _)
  · exact hs.stay

theorem Sound.save : Goes s (s.perform .save) := by
  have hcopied : ∀ entry ∈ s.definitions, entry.2 ∈ s.functionRefs := by
    intro entry hentry
    exact Multiset.mem_add.mpr (.inl (List.mem_map.mpr ⟨entry, hentry, rfl⟩))
  have hempty : Alive s.memory (values [] + s.functionRefs) s.treeRefs := by
    have hnil : values [] + s.functionRefs = s.functionRefs := zero_add _
    rw [hnil]
    exact hs
  obtain ⟨⟨done, copy, m⟩, hcloned, halive, hremains⟩ := hempty.cloneFunctions hcopied
  rw [perform, Shell.save, hcloned]
  cases done with
  | false =>
    obtain ⟨m', hreleased, halive', hremains'⟩ := halive.releaseFunctions
    dsimp only
    rw [hreleased]
    exact ⟨_, rfl, halive', .of_remains (hremains.trans hremains') (fun _ hmem _ => hmem) (calls_le s)
      (programs_le s)⟩
  | true =>
    refine ⟨_, rfl, ?_, .of_remains hremains (fun _ hmem _ => hmem) (calls_le s) (programs_le s)⟩
    have hrefs : values copy + s.functionRefs =
        values s.definitions + (((copy :: s.checkpoints).map values).sum + calls s.frames) := by
      rw [List.map_cons, List.sum_cons, functionRefs, add_left_comm, add_assoc]
    rw [hrefs] at halive
    exact halive

theorem Sound.restore : Goes s (s.perform .restore) := by
  rw [perform]
  split
  · next t checkpoints hcheckpoints =>
    have hrefs : s.functionRefs =
        values s.definitions + (values t + ((checkpoints.map values).sum + calls s.frames)) := by
      rw [functionRefs, hcheckpoints, List.map_cons, List.sum_cons, add_assoc]
    unfold Sound at hs
    rw [hrefs] at hs
    obtain ⟨m, hreleased, halive, hremains⟩ := hs.releaseFunctions
    rw [hreleased]
    refine ⟨_, rfl, halive, .of_remains hremains (fun _ hmem _ => hmem) ?_ (programs_le s)⟩
    exact (Multiset.le_add_left _ _).trans (Multiset.le_add_left _ _)
  · exact hs.stay

theorem Sound.discard : Goes s (s.perform .discard) := by
  rw [perform]
  split
  · next t checkpoints hcheckpoints =>
    have hrefs : s.functionRefs =
        values t + (values s.definitions + ((checkpoints.map values).sum + calls s.frames)) := by
      rw [functionRefs, hcheckpoints, List.map_cons, List.sum_cons, add_assoc, add_left_comm]
    unfold Sound at hs
    rw [hrefs] at hs
    obtain ⟨m, hreleased, halive, hremains⟩ := hs.releaseFunctions
    rw [hreleased]
    refine ⟨_, rfl, halive, .of_remains hremains (fun _ hmem _ => hmem) ?_ (programs_le s)⟩
    exact (Multiset.le_add_left _ _).trans (Multiset.le_add_left _ _)
  · exact hs.stay

end

/-- **One event**: nothing is used that is free, the counts stay right, and what runs on is
as it was. -/
theorem May.perform {event : Event} (hmay : s.May event) (hs : s.Sound) : Goes s (s.perform event) := by
  cases event with
  | parse request => exact hs.parse hmay
  | program tree => exact hs.program hmay
  | finish => exact hs.finish
  | define name tree address => exact hs.define hmay
  | unset name => exact hs.unset
  | call name => exact hs.call
  | leave => exact hs.leave
  | save => exact hs.save
  | restore => exact hs.restore
  | discard => exact hs.discard

/-! ### Runs -/

/-- A shell that has read nothing. -/
def init : Shell limit capacity where
  memory := ⟨.empty, .empty⟩

theorem sound_init : (init : Shell limit capacity).Sound where
  counts := fun _ _ hget => by cases hget
  live := fun _ hf => absurd hf (Multiset.notMem_zero _)
  sound := by
    have htrees : (init : Shell limit capacity).treeRefs = 0 := rfl
    have hbodies : bodies (init : Shell limit capacity).memory.functions = 0 :=
      Slots.sum_empty fun function : Function => ({function.tree} : Multiset ℕ)
    rw [htrees, hbodies]
    exact Sharing.Sound.empty

theorem Obeys.run (hobeys : s.Obeys events) (hs : s.Sound) :
    ∃ s', s.run events = some s' ∧ s'.Sound := by
  induction events generalizing s with
  | nil => exact ⟨s, rfl, hs⟩
  | cons event events ih =>
    obtain ⟨s₁, hperformed, hs₁, -⟩ := hobeys.1.perform hs
    obtain ⟨s', hrun, hs'⟩ := ih (hobeys.2 s₁ hperformed) hs₁
    refine ⟨s', ?_, hs'⟩
    rw [Shell.run, hperformed]
    exact hrun

theorem Obeys.append {events more : List Event} (hobeys : s.Obeys (events ++ more))
    (hrun : s.run events = some s') : s.Obeys events ∧ s'.Obeys more := by
  induction events generalizing s with
  | nil =>
    cases hrun
    exact ⟨trivial, hobeys⟩
  | cons event events ih =>
    cases hperformed : s.perform event with
    | none =>
      rw [Shell.run, hperformed] at hrun
      cases hrun
    | some s₁ =>
      rw [Shell.run, hperformed] at hrun
      obtain ⟨hfirst, hmore⟩ := ih (hobeys.2 s₁ hperformed) hrun
      refine ⟨⟨hobeys.1, fun s₂ hs₂ => ?_⟩, hmore⟩
      rw [hperformed] at hs₂
      cases hs₂
      exact hfirst

theorem Obeys.left {events more : List Event} (hobeys : s.Obeys (events ++ more)) : s.Obeys events := by
  induction events generalizing s with
  | nil => trivial
  | cons event events ih => exact ⟨hobeys.1, fun s₁ hs₁ => ih (hobeys.2 s₁ hs₁)⟩

/-- What stays during a run is as it was. -/
theorem Obeys.continues {frame : Frame} (hobeys : s.Obeys events) (hs : s.Sound)
    (hrun : s.run events = some s') (hstays : Stays frame s events) :
    ∃ root, s.root frame = some root ∧ s'.root frame = some root ∧
      Sharing.Kept Node.kids {root} s.memory.nodes s'.memory.nodes := by
  induction events generalizing s with
  | nil =>
    cases hrun
    obtain ⟨_, hsame, -, hcontinues⟩ := hs.stay
    cases hsame
    exact hcontinues frame hstays hstays
  | cons event events ih =>
    obtain ⟨s₁, hperformed, hs₁, hcontinues⟩ := hobeys.1.perform hs
    rw [Shell.run, hperformed] at hrun
    have hstays₁ := hstays.2 s₁ hperformed
    have hmem : frame ∈ s₁.frames := by
      cases events with
      | nil => exact hstays₁
      | cons => exact hstays₁.1
    obtain ⟨root, hroot, hroot₁, hkept⟩ := hcontinues frame hstays.1 hmem
    obtain ⟨root', hroot', hroot₂, hkept'⟩ := ih (hobeys.2 s₁ hperformed) hs₁ hrun hstays₁
    rw [hroot₁] at hroot'
    cases hroot'
    exact ⟨root, hroot, hroot₂, hkept.trans hkept'⟩

end Shell

/-- What is there behind a run that continued at `s`: exactly the nodes that can be reached
and the functions that are referred to; and the frames of `s` that were not left run the
same trees, of which every node is allocated and has the members it had. -/
structure Survives (s s' : Shell limit capacity) (later : List Event) : Prop where
  nodes : Sharing.Clean Node.kids s'.memory.nodes (s'.treeRefs + bodies s'.memory.functions)
  functions : ∀ f, s'.memory.functions.get f ≠ none ↔ f ∈ s'.functionRefs
  frames : ∀ frame, Shell.Stays frame s later → ∃ root, s.root frame = some root ∧
    s'.root frame = some root ∧ Sharing.Kept Node.kids {root} s.memory.nodes s'.memory.nodes

/-- **In no run is anything used after it is freed, or left behind; and what runs is there,
unchanged, until it ends.** -/
theorem bodies_survive {earlier later : List Event}
    (hobeys : (Shell.init : Shell limit capacity).Obeys (earlier ++ later)) :
    ∃ s s' : Shell limit capacity, Shell.init.run earlier = some s ∧ s.run later = some s' ∧
      Survives s s' later := by
  obtain ⟨s, hrun, hs⟩ := hobeys.left.run Shell.sound_init
  obtain ⟨-, hlater⟩ := hobeys.append hrun
  obtain ⟨s', hrun', hs'⟩ := hlater.run hs
  refine ⟨s, s', hrun, hrun', hs'.sound.clean, ?_, fun frame hstays => hlater.continues hs hrun' hstays⟩
  refine fun f => ⟨fun hlive => ?_, hs'.live f⟩
  obtain ⟨function, hget⟩ := Option.ne_none_iff_exists'.mp hlive
  obtain ⟨hcount, hne⟩ := hs'.counts f function hget
  rw [hcount] at hne
  exact Multiset.count_ne_zero.mp hne

end Functions

/-- A program that defines a function, calls it and unsets it in the call. -/
def unsetInCall : List Event := [.define (ascii "f") 0 0, .call (ascii "f"), .unset (ascii "f")]

/-- Whether an event needs nothing to be sound. -/
def Event.plain : Event → Bool
  | parse _ | program _ | define _ _ _ => false
  | _ => true

theorem obeys_plain {limit capacity : ℕ} {events : List Event} {s : Shell limit capacity}
    (hplain : events.all Event.plain = true) : s.Obeys events := by
  induction events generalizing s with
  | nil => trivial
  | cons event events ih =>
    rw [List.all_cons, Bool.and_eq_true] at hplain
    refine ⟨?_, fun _ _ => ih hplain.2⟩
    cases event with
    | parse | program | define => cases hplain.1
    | _ => trivial

theorem obeys_unsetInCall :
    (Shell.init : Shell 1 1).Obeys ([.parse (.create 0 .function), .program 0] ++ unsetInCall) := by
  refine ⟨holding_create rfl (by decide), ?_⟩
  rintro _ ⟨⟩
  refine ⟨Multiset.mem_singleton_self 0, ?_⟩
  rintro _ ⟨⟩
  refine ⟨⟨⟨.program 0, [], 0, rfl, rfl, .root (by decide)⟩, rfl, by decide⟩, ?_⟩
  -- what is left needs no more than to be there
  exact fun _ _ => obeys_plain rfl

theorem bodies_survive_unsetInCall :
    ∃ s s' : Shell 1 1, Shell.init.run [.parse (.create 0 .function), .program 0] = some s ∧
      s.run unsetInCall = some s' ∧ Survives s s' unsetInCall :=
  bodies_survive obeys_unsetInCall

end Functions
end CShell.Execute
