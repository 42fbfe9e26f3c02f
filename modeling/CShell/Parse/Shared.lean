import CShell.Lib.Sharing
import CShell.Parse.Tree
import CShell.Lexer.Machine
import Mathlib.Data.List.ReduceOption

/-!
# Syntax trees in memory

`ast.c` builds trees of nodes that own each other, and takes them down again.  A node
counts the owners it has besides the first, so that a function definition can keep its
body longer than the program it was read in.  The heap is that of `Sharing`; a pointer is
an address, or `none`.

The members of a node are moved into it: a call that succeeds leaves its argument empty,
and one that fails leaves both as they were.

## Main definitions

* `Node` — `struct csh_ast`, and `Node.owned` — what `destroy_pending` goes through.
* `astPipelineAdd` and so on — the calls that build a node.
* `Request` — the calls of `ast.c`, with what a client must hold for each.

## Main results

* `astDestroy_eq` — `csh_ast_destroy` gives up a reference in the sense of `Sharing`.
* `Holding.perform` — one call.
* `trees_sound` — **no run of calls touches a node that is free, builds a cycle or leaks:
  at every moment exactly the nodes that the client can get to are allocated.**

## References

`src/ast.c`, `include/cshell/ast.h`.
-/

namespace CShell.Parse

namespace Shared

open List

/-! ### Nodes -/

/-- `struct csh_ast_substitution`. -/
structure Substitution where
  fragment : ℕ
  begin : ℕ
  stop : ℕ
  body : Option ℕ
  deriving DecidableEq, Repr, Inhabited

/-- `struct csh_ast_word`. -/
structure Word where
  token : Token := default
  substitutions : List Substitution := []
  deriving DecidableEq, Repr, Inhabited

/-- `struct csh_ast_command_word`. -/
structure CommandWord where
  word : Word
  assignment : Bool
  deriving DecidableEq, Repr, Inhabited

/-- `struct csh_ast_redirection`, without the here-document. -/
structure Redirection where
  operatorKind : TokenKind
  ioNumber : Option Token := none
  operand : Word := {}
  deriving DecidableEq, Repr, Inhabited

/-- `struct csh_ast_list_item`. -/
structure ListItem where
  command : Option ℕ
  separator : Separator
  deriving DecidableEq, Repr, Inhabited

/-- `struct csh_ast_if_branch`. -/
structure Branch where
  condition : Option ℕ
  body : Option ℕ
  deriving DecidableEq, Repr, Inhabited

/-- `struct csh_ast_case_item`. -/
structure CaseItem where
  patterns : List Word
  body : Option ℕ
  terminator : Terminator
  deriving DecidableEq, Repr, Inhabited

/-- The `data` of `struct csh_ast`, by `enum csh_ast_kind`. -/
inductive Data
  | simple (words : List CommandWord)
  | pipeline (commands : List (Option ℕ)) (negated : Bool)
  | and (left right : Option ℕ)
  | or (left right : Option ℕ)
  | list (items : List ListItem)
  | subshell (body : Option ℕ)
  | brace (body : Option ℕ)
  | ifClause (branches : List Branch) (elseBody : Option ℕ)
  | forClause (name : Word) (words : List Word) (hasIn : Bool) (body : Option ℕ)
  | whileClause (condition body : Option ℕ)
  | untilClause (condition body : Option ℕ)
  | caseClause (word : Word) (items : List CaseItem)
  | function (name : Word) (body : Option ℕ)
  deriving DecidableEq, Repr

/-- `struct csh_ast`, without the count and the link. -/
structure Node where
  redirections : List Redirection := []
  data : Data
  deriving DecidableEq, Repr

/-- `enum csh_ast_kind`. -/
inductive Kind
  | simple
  | pipeline
  | and
  | or
  | list
  | subshell
  | brace
  | ifClause
  | forClause
  | whileClause
  | untilClause
  | caseClause
  | function
  deriving DecidableEq, Repr

/-- What `csh_ast_create` leaves in a node of a kind. -/
def Kind.zero : Kind → Data
  | simple => .simple []
  | pipeline => .pipeline [] false
  | and => .and none none
  | or => .or none none
  | list => .list []
  | subshell => .subshell none
  | brace => .brace none
  | ifClause => .ifClause [] none
  | forClause => .forClause {} [] false none
  | whileClause => .whileClause none none
  | untilClause => .untilClause none none
  | caseClause => .caseClause {} []
  | function => .function {} none

/-! ### Taking down -/

/-- `destroy_word`: the pointers it hands to `enqueue`. -/
def destroyWord (word : Word) : List (Option ℕ) := word.substitutions.map Substitution.body

/-- `destroy_redirection`. -/
def destroyRedirection (redirection : Redirection) : List (Option ℕ) := destroyWord redirection.operand

/-- `destroy_word_vector`. -/
def destroyWordVector (words : List Word) : List (Option ℕ) := words.flatMap destroyWord

/-- `destroy_case_item`. -/
def destroyCaseItem (item : CaseItem) : List (Option ℕ) := destroyWordVector item.patterns ++ [item.body]

/-- The switch of `destroy_pending`. -/
def Data.owned : Data → List (Option ℕ)
  | simple words => words.flatMap fun entry => destroyWord entry.word
  | pipeline commands _ => commands
  | and left right | or left right => [left, right]
  | list items => items.map ListItem.command
  | subshell body | brace body => [body]
  | ifClause branches elseBody =>
    (branches.flatMap fun branch => [branch.condition, branch.body]) ++ [elseBody]
  | forClause name words _ body => destroyWord name ++ destroyWordVector words ++ [body]
  | whileClause condition body | untilClause condition body => [condition, body]
  | caseClause word items => destroyWord word ++ items.flatMap destroyCaseItem
  | function name body => destroyWord name ++ [body]

/-- What a turn of `destroy_pending` hands to `enqueue`. -/
def Node.owned (node : Node) : List (Option ℕ) :=
  node.redirections.flatMap destroyRedirection ++ node.data.owned

section Memory

variable {limit : ℕ}

/-- The nodes that are allocated. -/
abbrev Nodes (limit : ℕ) := Heap limit Node

/-- `enqueue`; `none` when the node is free. -/
def enqueue (pending : Option ℕ) (h : Nodes limit) (node : Option ℕ) :
    Option (Option ℕ × Nodes limit) :=
  match node with
  | none => some (pending, h)
  | some a => Sharing.release pending h a

/-- The calls of `enqueue` one after the other. -/
def enqueueAll (pending : Option ℕ) (h : Nodes limit) : List (Option ℕ) → Option (Option ℕ × Nodes limit)
  | [] => some (pending, h)
  | node :: nodes =>
    match enqueue pending h node with
    | none => none
    | some (pending, h) => enqueueAll pending h nodes

/-- `destroy_pending`. -/
def destroyPending : ℕ → Option ℕ → Nodes limit → Option (Nodes limit)
  | _, none, h => some h
  | 0, some _, _ => none
  | fuel + 1, some a, h =>
    match h.get a with
    | none => none
    | some c =>
      match enqueueAll c.next h c.payload.owned with
      | none => none
      | some (pending, h) => destroyPending fuel pending (h.clear a)

/-- `csh_ast_destroy`. -/
def astDestroy (h : Nodes limit) (node : Option ℕ) : Option (Nodes limit) :=
  match enqueue none h node with
  | none => none
  | some (pending, h) => destroyPending limit pending h

/-- The part of `csh_ast_word_destroy`, `csh_ast_redirection_destroy` and
`csh_ast_case_item_destroy` that is about nodes. -/
def destroyOwned (h : Nodes limit) (owned : List (Option ℕ)) : Option (Nodes limit) :=
  match enqueueAll none h owned with
  | none => none
  | some (pending, h) => destroyPending limit pending h

/-- `csh_ast_word_destroy`. -/
def astWordDestroy (h : Nodes limit) (word : Word) : Option (Nodes limit) :=
  destroyOwned h (destroyWord word)

/-- `csh_ast_redirection_destroy`. -/
def astRedirectionDestroy (h : Nodes limit) (redirection : Redirection) : Option (Nodes limit) :=
  destroyOwned h (destroyRedirection redirection)

/-- `csh_ast_case_item_destroy`. -/
def astCaseItemDestroy (h : Nodes limit) (item : CaseItem) : Option (Nodes limit) :=
  destroyOwned h (destroyCaseItem item)

/-- `csh_ast_retain`. -/
def astRetain (h : Nodes limit) (node : Option ℕ) : Option (Nodes limit) :=
  match node with
  | none => some h
  | some a =>
    match h.get a with
    | none => none
    | some c => some (h.put a { c with retained := c.retained + 1 })

/-! ### Building -/

/-- `csh_ast_create`, at the address that `malloc` returns. -/
def astCreate (h : Nodes limit) (address : ℕ) (kind : Kind) : Nodes limit :=
  h.put address { payload := { data := kind.zero } }

/-- `fail`, with `EINVAL`. -/
def invalid (message : String) : Failure := { message := ascii message, systemErrno := Lexical.einval }

/-- A call that adds to a node, or fails with a message: `none` when a pointer is to a node
that is free. -/
def change (h : Nodes limit) (node : Option ℕ) (message : String) (f : Node → Option Node) :
    Option (Except Failure (Nodes limit)) :=
  match node with
  | none => some (.error (invalid message))
  | some a =>
    match h.get a with
    | none => none
    | some c =>
      match f c.payload with
      | none => some (.error (invalid message))
      | some payload => some (.ok (h.put a { c with payload }))

/-- `csh_ast_add_word`. -/
def astAddWord (h : Nodes limit) (node : Option ℕ) (word : Word) (assignment : Bool) :
    Option (Except Failure (Nodes limit)) :=
  change h node "invalid AST command word" fun n =>
    match n.data with
    | .simple words => some { n with data := .simple (words ++ [⟨word, assignment⟩]) }
    | _ => none

/-- `csh_ast_add_redirection`. -/
def astAddRedirection (h : Nodes limit) (node : Option ℕ) (redirection : Option Redirection) :
    Option (Except Failure (Nodes limit)) :=
  change h node "invalid AST redirection" fun n =>
    redirection.map fun redirection => { n with redirections := n.redirections ++ [redirection] }

/-- `csh_ast_pipeline_add`. -/
def astPipelineAdd (h : Nodes limit) (node child : Option ℕ) : Option (Except Failure (Nodes limit)) :=
  change h node "invalid AST pipeline command" fun n =>
    match n.data with
    | .pipeline commands negated =>
      if child.isNone ∨ node = child then none
      else some { n with data := .pipeline (commands ++ [child]) negated }
    | _ => none

/-- `csh_ast_list_add`. -/
def astListAdd (h : Nodes limit) (node : Option ℕ) (item : ListItem) :
    Option (Except Failure (Nodes limit)) :=
  change h node "invalid AST list item" fun n =>
    match n.data with
    | .list items =>
      if item.command.isNone ∨ item.command = node then none
      else some { n with data := .list (items ++ [item]) }
    | _ => none

/-- `csh_ast_if_add`. -/
def astIfAdd (h : Nodes limit) (node : Option ℕ) (branch : Branch) :
    Option (Except Failure (Nodes limit)) :=
  change h node "invalid AST if branch" fun n =>
    match n.data with
    | .ifClause branches elseBody =>
      if branch.condition.isNone ∨ branch.body.isNone ∨ branch.condition = node ∨ branch.body = node ∨
        branch.condition = branch.body then none
      else some { n with data := .ifClause (branches ++ [branch]) elseBody }
    | _ => none

/-- The checks of `csh_ast_case_add` that need the node only. -/
def caseEntry (node : Option ℕ) (item : CaseItem) (n : Node) : Option Node :=
  match n.data with
  | .caseClause word items =>
    if item.patterns = [] ∨ item.body.isNone ∨ item.body = node then none
    else some { n with data := .caseClause word (items ++ [item]) }
  | _ => none

/-- Whether a node is a `CSH_AST_LIST`; `none` when it is free. -/
def isList (h : Nodes limit) (a : ℕ) : Option Bool :=
  (h.get a).map fun c => match c.payload.data with
    | .list _ => true
    | _ => false

/-- `csh_ast_case_add`, which reads the body of the item last. -/
def astCaseAdd (h : Nodes limit) (node : Option ℕ) (item : CaseItem) :
    Option (Except Failure (Nodes limit)) :=
  let message := "invalid AST case item"
  match change h node message (caseEntry node item), item.body with
  | some (.ok h'), some body =>
    match isList h body with
    | none => none
    | some true => some (.ok h')
    | some false => some (.error (invalid message))
  | result, _ => result

/-! ### The calls of a client -/

/-- The calls of `ast.c`.  `assign` moves members into a node without a call, as the parser
does with those that are no vectors. -/
inductive Request
  | create (address : ℕ) (kind : Kind)
  | addWord (node : Option ℕ) (word : Word) (assignment : Bool)
  | addRedirection (node : Option ℕ) (redirection : Option Redirection)
  | pipelineAdd (node child : Option ℕ)
  | listAdd (node : Option ℕ) (item : ListItem)
  | ifAdd (node : Option ℕ) (branch : Branch)
  | caseAdd (node : Option ℕ) (item : CaseItem)
  | assign (node : ℕ) (data : Data) (moved : List (Option ℕ))
  | retain (node : Option ℕ)
  | destroy (node : Option ℕ)
  | wordDestroy (word : Word)
  | redirectionDestroy (redirection : Redirection)
  | caseItemDestroy (item : CaseItem)

namespace Request

/-- What a call does; `none` when it touches a node that is free. -/
def perform (h : Nodes limit) : Request → Option (Except Failure (Nodes limit))
  | create address kind => some (.ok (astCreate h address kind))
  | addWord node word assignment => astAddWord h node word assignment
  | addRedirection node redirection => astAddRedirection h node redirection
  | pipelineAdd node child => astPipelineAdd h node child
  | listAdd node item => astListAdd h node item
  | ifAdd node branch => astIfAdd h node branch
  | caseAdd node item => astCaseAdd h node item
  | assign node data _ => change h (some node) "" fun n => some { n with data }
  | retain node => (astRetain h node).map .ok
  | destroy node => (astDestroy h node).map .ok
  | wordDestroy word => (astWordDestroy h word).map .ok
  | redirectionDestroy redirection => (astRedirectionDestroy h redirection).map .ok
  | caseItemDestroy item => (astCaseItemDestroy h item).map .ok

/-- The pointers a call takes over when it succeeds. -/
def taken : Request → List (Option ℕ)
  | create _ _ | retain _ => []
  | addWord _ word _ => destroyWord word
  | addRedirection _ redirection => redirection.elim [] destroyRedirection
  | pipelineAdd _ child => [child]
  | listAdd _ item => [item.command]
  | ifAdd _ branch => [branch.condition, branch.body]
  | caseAdd _ item => destroyCaseItem item
  | assign _ _ moved => moved
  | destroy node => [node]
  | wordDestroy word => destroyWord word
  | redirectionDestroy redirection => destroyRedirection redirection
  | caseItemDestroy item => destroyCaseItem item

/-- The pointer it returns. -/
def given : Request → List (Option ℕ)
  | create address _ => [some address]
  | retain node => [node]
  | _ => []

/-- The node it changes. -/
def target : Request → Option ℕ
  | addWord node _ _ | addRedirection node _ | pipelineAdd node _ | listAdd node _ | ifAdd node _
  | caseAdd node _ => node
  | assign node _ _ => some node
  | _ => none

/-- What it moves without a check that it is not the node itself. -/
def unchecked : Request → List (Option ℕ)
  | addWord _ word _ => destroyWord word
  | addRedirection _ redirection => redirection.elim [] destroyRedirection
  | caseAdd _ item => destroyWordVector item.patterns
  | assign _ _ moved => moved
  | _ => []

end Request

/-- What a node points at. -/
def Node.kids (node : Node) : List ℕ := node.owned.reduceOption

/-- The pointers that are not null. -/
def bag (pointers : List (Option ℕ)) : Multiset ℕ := pointers.reduceOption

/-- `malloc` returns what is free, `retain` is for what the client can get to, and members
that are moved are all there. -/
def Request.Fits (h : Nodes limit) (refs : Multiset ℕ) : Request → Prop
  | create address _ => h.get address = none ∧ address < limit
  | retain (some a) => Sharing.Reach Node.kids h refs a
  | assign a data moved => ∀ c, h.get a = some c →
    data.owned.reduceOption.Perm (c.payload.data.owned.reduceOption ++ moved.reduceOption)
  | _ => True

/-- What a client must hold to make a call: what the call takes over, and the node it
changes, which nobody else owns. -/
structure Holding (h : Nodes limit) (refs : Multiset ℕ) (request : Request) : Prop where
  taken : bag request.taken ≤ refs
  target : ∀ a ∈ request.target, a ∈ refs ∧ ∀ c, h.get a = some c → c.retained = 0
  unchecked : ∀ a ∈ request.target, some a ∉ request.unchecked
  fits : request.Fits h refs

/-- The nodes and the references of the client after a call; a call that fails leaves both
as they were. -/
def advance (s : Nodes limit × Multiset ℕ) (request : Request) : Option (Nodes limit × Multiset ℕ) :=
  match request.perform s.1 with
  | none => none
  | some (.error _) => some s
  | some (.ok h) => some (h, s.2 - bag request.taken + bag request.given)

/-- A run of calls. -/
def run (s : Nodes limit × Multiset ℕ) : List Request → Option (Nodes limit × Multiset ℕ)
  | [] => some s
  | request :: requests =>
    match advance s request with
    | none => none
    | some s => run s requests

/-- The client holds what it must at every call of a run. -/
def Obeys (s : Nodes limit × Multiset ℕ) : List Request → Prop
  | [] => True
  | request :: requests =>
    Holding s.1 s.2 request ∧ ∀ s', advance s request = some s' → Obeys s' requests

/-! ### Taking down is giving up references -/

variable {h h' : Nodes limit} {refs : Multiset ℕ}

theorem enqueueAll_eq (pending : Option ℕ) (h : Nodes limit) (nodes : List (Option ℕ)) :
    enqueueAll pending h nodes = Sharing.releaseAll pending h nodes.reduceOption := by
  induction nodes generalizing pending h with
  | nil => rfl
  | cons node nodes ih =>
    cases node with
    | none => exact ih pending h
    | some a =>
      rw [enqueueAll, reduceOption_cons_of_some, Sharing.releaseAll, enqueue]
      cases Sharing.release pending h a with
      | none => rfl
      | some r => exact ih r.1 r.2

theorem destroyPending_eq (fuel : ℕ) (pending : Option ℕ) (h : Nodes limit) :
    destroyPending fuel pending h = Sharing.drain Node.kids fuel pending h := by
  induction fuel generalizing pending h with
  | zero => cases pending <;> rfl
  | succ fuel ih =>
    cases pending with
    | none => rfl
    | some a =>
      rw [destroyPending, Sharing.drain]
      cases h.get a with
      | none => rfl
      | some c =>
        dsimp only
        rw [enqueueAll_eq]
        unfold Node.kids
        cases Sharing.releaseAll c.next h c.payload.owned.reduceOption with
        | none => rfl
        | some r => exact ih r.1 (r.2.clear a)

theorem destroyOwned_eq (h : Nodes limit) (owned : List (Option ℕ)) :
    destroyOwned h owned = Sharing.destroy Node.kids h owned.reduceOption := by
  rw [destroyOwned, Sharing.destroy, enqueueAll_eq]
  cases Sharing.releaseAll none h owned.reduceOption with
  | none => rfl
  | some r => exact destroyPending_eq limit r.1 r.2

/-- **`csh_ast_destroy` gives up a reference.** -/
theorem astDestroy_eq (h : Nodes limit) (node : Option ℕ) :
    astDestroy h node = Sharing.destroy Node.kids h [node].reduceOption := by
  rw [← destroyOwned_eq, astDestroy, destroyOwned, enqueueAll]
  cases enqueue none h node with
  | none => rfl
  | some r => rfl

/-! ### One call -/

/-- The invariant of the nodes and the references to them. -/
abbrev Sound (h : Nodes limit) (refs : Multiset ℕ) : Prop := Sharing.Sound Node.kids h refs

/-- The outcome of a call whose client then holds `own`: the invariant, and what is held
besides is as it was, with all that can be reached from it. -/
def Keeps (own rest : Multiset ℕ) (h : Nodes limit) (result : Option (Except Failure (Nodes limit))) :
    Prop :=
  ∃ r, result = some r ∧ ∀ h', r = .ok h' → Sound h' (own + rest) ∧ Sharing.Kept Node.kids rest h h'

variable {own rest : Multiset ℕ}

theorem Sound.live (hs : Sound h refs) {a : ℕ} (ha : a ∈ refs) : ∃ c, h.get a = some c :=
  Option.ne_none_iff_exists'.mp (hs.counted.live_of_reach (.root ha))

/-- Taking down what is held. -/
theorem Sound.destroyOwned {owned : List (Option ℕ)} (hs : Sound h (own + rest)) (htaken : bag owned ≤ own) :
    ∃ h', Shared.destroyOwned h owned = some h' ∧ Sound h' (own - bag owned + rest) ∧
      Sharing.Kept Node.kids rest h h' := by
  have hrefs : own + rest = owned.reduceOption + (own - bag owned + rest) := by
    rw [← add_assoc]
    exact congrArg (· + rest) (add_tsub_cancel_of_le htaken).symm
  unfold Sound at hs
  rw [hrefs] at hs
  obtain ⟨h', hfreed, hsound, hkept⟩ := hs.destroy
  exact ⟨h', (destroyOwned_eq h owned).trans hfreed, hsound, hkept.mono (Multiset.le_add_left _ _)⟩

variable {node : Option ℕ}

/-- What `change` does to a node that is there. -/
theorem change_cases {message : String} {f : Node → Option Node}
    (hlive : ∀ a ∈ node, ∃ c, h.get a = some c) :
    change h node message f = some (.error (invalid message)) ∨
    ∃ a c payload, node = some a ∧ h.get a = some c ∧ f c.payload = some payload ∧
      change h node message f = some (.ok (h.put a { c with payload })) := by
  unfold change
  cases node with
  | none => exact .inl rfl
  | some a =>
    obtain ⟨c, hget⟩ := hlive a rfl
    dsimp only
    rw [hget]
    dsimp only
    cases hf : f c.payload with
    | none => exact .inl rfl
    | some payload => exact .inr ⟨a, c, payload, rfl, hget, hf, rfl⟩

/-- A call that adds to a node: the node takes over what the client held. -/
theorem Sound.change {message : String} {f : Node → Option Node}
    {taken : List (Option ℕ)} (hs : Sound h (own + rest))
    (htarget : ∀ a ∈ node, a ∈ own ∧ ∀ c, h.get a = some c → c.retained = 0) (htaken : bag taken ≤ own)
    (hf : ∀ a c n', node = some a → h.get a = some c → f c.payload = some n' →
      n'.kids.Perm (c.payload.kids ++ taken.reduceOption) ∧ some a ∉ taken) :
    Keeps (own - bag taken) rest h (Shared.change h node message f) := by
  have hlive : ∀ a ∈ node, ∃ c, h.get a = some c :=
    fun a ha => hs.live (Multiset.mem_add.mpr (.inl (htarget a ha).1))
  rcases @change_cases _ _ _ message f hlive with
    hfailed | ⟨a, c, payload, rfl, hget, hpayload, hdone⟩
  · exact ⟨_, hfailed, fun h' hr => by cases hr⟩
  · refine ⟨_, hdone, fun h' hr => ?_⟩
    cases hr
    obtain ⟨hkids, hother⟩ := hf a c payload rfl hget hpayload
    obtain ⟨hheld, hsole⟩ := htarget a rfl
    refine ⟨hs.update hget (Multiset.mem_add.mpr (.inl hheld)) (hsole c hget) ?_ ?_,
      hs.counted.kept_update hget hheld (hsole c hget)⟩
    · rw [Multiset.coe_eq_coe.mpr hkids, ← Multiset.coe_add, add_assoc, ← add_assoc _ _ rest]
      exact congrArg (fun refs => ((c.payload.kids : List ℕ) : Multiset ℕ) + (refs + rest))
        (add_tsub_cancel_of_le htaken)
    · intro hmem
      rcases mem_append.mp (hkids.mem_iff.mp hmem) with hmem | hmem
      · obtain ⟨rank, hrank⟩ := hs.ranked
        exact absurd (hrank a c hget a hmem) (lt_irrefl _)
      · exact hother (reduceOption_mem_iff.mp hmem)

/-- Members are added behind those of the data. -/
theorem kids_data {n : Node} {data : Data} {taken : List (Option ℕ)}
    (howned : data.owned.Perm (n.data.owned ++ taken)) :
    Node.kids { n with data } |>.Perm (n.kids ++ taken.reduceOption) := by
  unfold Node.kids Node.owned
  rw [← reduceOption_append, append_assoc]
  exact (howned.append_left _).filterMap _

section Calls

variable (hs : Sound h (own + rest))
include hs

theorem keeps_addWord {word : Word} {assignment : Bool}
    (hholding : Holding h own (.addWord node word assignment)) :
    Keeps (own - bag (destroyWord word)) rest h (astAddWord h node word assignment) := by
  refine hs.change hholding.target hholding.taken fun a c n' hnode _ hn =>
    ⟨?_, hholding.unchecked a hnode⟩
  split at hn
  · next words hdata =>
    cases hn
    refine kids_data ?_
    rw [hdata, Data.owned, Data.owned, flatMap_append, flatMap_singleton]
  · cases hn

theorem keeps_addRedirection {redirection : Option Redirection}
    (hholding : Holding h own (.addRedirection node redirection)) :
    Keeps (own - bag (redirection.elim [] destroyRedirection)) rest h
      (astAddRedirection h node redirection) := by
  refine hs.change hholding.target hholding.taken fun a c n' hnode _ hn =>
    ⟨?_, hholding.unchecked a hnode⟩
  cases redirection with
  | none => cases hn
  | some redirection =>
    cases hn
    unfold Node.kids Node.owned
    rw [← reduceOption_append, flatMap_append, flatMap_singleton, append_assoc,
      append_assoc]
    exact ((perm_append_comm).append_left _).filterMap _

theorem keeps_pipelineAdd {node child : Option ℕ} (hholding : Holding h own (.pipelineAdd node child)) :
    Keeps (own - bag [child]) rest h (astPipelineAdd h node child) := by
  refine hs.change hholding.target hholding.taken fun a c n' hnode _ hn => ?_
  split at hn
  · next commands negated hdata =>
    split at hn
    · cases hn
    · next hchecked =>
      cases hn
      refine ⟨kids_data (by rw [hdata, Data.owned, Data.owned]), fun hmem => ?_⟩
      exact hchecked (.inr (hnode.trans (mem_singleton.mp hmem)))
  · cases hn

theorem keeps_listAdd {item : ListItem} (hholding : Holding h own (.listAdd node item)) :
    Keeps (own - bag [item.command]) rest h (astListAdd h node item) := by
  refine hs.change hholding.target hholding.taken fun a c n' hnode _ hn => ?_
  split at hn
  · next items hdata =>
    split at hn
    · cases hn
    · next hchecked =>
      cases hn
      refine ⟨kids_data (by rw [hdata, Data.owned, Data.owned, map_append, map_singleton]),
        fun hmem => ?_⟩
      exact hchecked (.inr ((mem_singleton.mp hmem).symm.trans hnode.symm))
  · cases hn

theorem keeps_ifAdd {branch : Branch} (hholding : Holding h own (.ifAdd node branch)) :
    Keeps (own - bag [branch.condition, branch.body]) rest h (astIfAdd h node branch) := by
  refine hs.change hholding.target hholding.taken fun a c n' hnode _ hn => ?_
  split at hn
  · next branches elseBody hdata =>
    split at hn
    · cases hn
    · next hchecked =>
      cases hn
      simp only [not_or, hnode] at hchecked
      obtain ⟨-, -, hcondition, hbody, -⟩ := hchecked
      refine ⟨kids_data ?_, fun hmem => ?_⟩
      · rw [hdata, Data.owned, Data.owned, flatMap_append, flatMap_singleton, append_assoc,
          append_assoc]
        exact perm_append_comm.append_left _
      · rcases mem_pair.mp hmem with hmem | hmem
        · exact hcondition hmem.symm
        · exact hbody hmem.symm
  · cases hn

/-- What the checks of `csh_ast_case_add` that need the node only have passed. -/
theorem keeps_caseEntry {item : CaseItem} (hholding : Holding h own (.caseAdd node item)) :
    Keeps (own - bag (destroyCaseItem item)) rest h
      (Shared.change h node "invalid AST case item" (caseEntry node item)) := by
  refine hs.change hholding.target hholding.taken fun a c n' hnode _ hn => ?_
  unfold caseEntry at hn
  split at hn
  · next word items hdata =>
    split at hn
    · cases hn
    · next hchecked =>
      cases hn
      simp only [not_or, hnode] at hchecked
      refine ⟨kids_data ?_, fun hmem => ?_⟩
      · rw [hdata, Data.owned, Data.owned, flatMap_append, flatMap_singleton, append_assoc]
      · rcases mem_append.mp hmem with hmem | hmem
        · exact hholding.unchecked a hnode hmem
        · exact hchecked.2.2 (mem_singleton.mp hmem).symm
  · cases hn

theorem keeps_caseAdd {item : CaseItem} (hholding : Holding h own (.caseAdd node item)) :
    Keeps (own - bag (destroyCaseItem item)) rest h (astCaseAdd h node item) := by
  obtain ⟨r, hchanged, hkept⟩ := keeps_caseEntry hs hholding
  unfold astCaseAdd
  dsimp only
  rw [hchanged]
  cases r with
  | error failure => exact ⟨_, rfl, fun h' hr => by cases hr⟩
  | ok h₁ =>
    cases hbody : item.body with
    | none => exact ⟨_, rfl, hkept⟩
    | some body =>
      have hheld : body ∈ own := by
        refine Multiset.mem_of_le hholding.taken ?_
        show body ∈ (destroyCaseItem item).reduceOption
        rw [reduceOption_mem_iff, destroyCaseItem, hbody]
        exact mem_append_right _ (mem_singleton.mpr rfl)
      obtain ⟨c, hget⟩ := hs.live (Multiset.mem_add.mpr (.inl hheld))
      dsimp only
      rw [isList, hget, Option.map_some]
      split
      · next hnone => cases hnone
      · exact ⟨_, rfl, hkept⟩
      · exact ⟨_, rfl, fun h' hr => by cases hr⟩

theorem keeps_assign {node : ℕ} {data : Data} {moved : List (Option ℕ)}
    (hholding : Holding h own (.assign node data moved)) :
    Keeps (own - bag moved) rest h (change h (some node) "" fun n => some { n with data }) := by
  refine hs.change hholding.target hholding.taken fun a c n' hnode hget hn =>
    ⟨?_, hholding.unchecked a hnode⟩
  cases hn
  cases hnode
  unfold Node.kids Node.owned
  rw [reduceOption_append, reduceOption_append, append_assoc]
  exact (hholding.fits c hget).append_left _

theorem keeps_retain (hholding : Holding h own (.retain node)) :
    Keeps (own + bag [node]) rest h ((astRetain h node).map .ok) := by
  cases node with
  | none =>
    refine ⟨.ok h, rfl, fun h' hr => ?_⟩
    cases hr
    have hnull : bag [none] = 0 := rfl
    rw [hnull, add_zero]
    exact ⟨hs, hs.counted.kept_refl.mono (Multiset.le_add_left _ _)⟩
  | some a =>
    obtain ⟨c, hget⟩ := Option.ne_none_iff_exists'.mp
      (hs.counted.live_of_reach (Sharing.Reach.mono (Multiset.le_add_right _ _) hholding.fits))
    have halike : Sharing.Alike h (h.put a { c with retained := c.retained + 1 }) := .put hget rfl
    refine ⟨.ok (h.put a { c with retained := c.retained + 1 }), by rw [astRetain, hget]; rfl, fun h' hr => ?_⟩
    cases hr
    have hbag : own + bag [some a] + rest = a ::ₘ (own + rest) := by
      rw [add_right_comm, add_comm]
      exact Multiset.singleton_add a _
    rw [hbag]
    exact ⟨hs.retain hget, (hs.counted.kept_alike halike).mono (Multiset.le_add_left _ _)⟩

theorem keeps_create {address : ℕ} {kind : Kind} (hholding : Holding h own (.create address kind)) :
    Keeps (own + bag [some address]) rest h (some (.ok (astCreate h address kind))) := by
  obtain ⟨hfree, hlt⟩ := hholding.fits
  refine ⟨_, rfl, fun h' hr => ?_⟩
  cases hr
  have hbag : own + bag [some address] + rest = address ::ₘ (own + rest) := by
    rw [add_right_comm, add_comm]
    exact Multiset.singleton_add address _
  rw [hbag]
  exact ⟨hs.alloc hfree hlt (by cases kind <;> rfl),
    (hs.counted.kept_alloc hfree).mono (Multiset.le_add_left _ _)⟩

theorem keeps_destroyOwned {owned : List (Option ℕ)} (htaken : bag owned ≤ own) :
    Keeps (own - bag owned) rest h ((destroyOwned h owned).map .ok) := by
  obtain ⟨h', hfreed, hsound⟩ := hs.destroyOwned htaken
  refine ⟨.ok h', by rw [hfreed]; rfl, fun h'' hr => ?_⟩
  cases hr
  exact hsound

end Calls

theorem bag_nil : bag [] = 0 := rfl

theorem Keeps.ungiven {result : Option (Except Failure (Nodes limit))} (hkeeps : Keeps own rest h result) :
    Keeps (own + bag []) rest h result := by
  rw [bag_nil, add_zero]
  exact hkeeps

/-- **One call** touches no node that is free, keeps the invariant, and leaves alone what is
held besides. -/
theorem Holding.perform {request : Request} (hholding : Holding h own request) (hs : Sound h (own + rest)) :
    Keeps (own - bag request.taken + bag request.given) rest h (request.perform h) := by
  cases request with
  | create address kind =>
    rw [Request.taken, bag_nil, tsub_zero]
    exact keeps_create hs hholding
  | addWord node word assignment => exact (keeps_addWord hs hholding).ungiven
  | addRedirection node redirection => exact (keeps_addRedirection hs hholding).ungiven
  | pipelineAdd node child => exact (keeps_pipelineAdd hs hholding).ungiven
  | listAdd node item => exact (keeps_listAdd hs hholding).ungiven
  | ifAdd node branch => exact (keeps_ifAdd hs hholding).ungiven
  | caseAdd node item => exact (keeps_caseAdd hs hholding).ungiven
  | assign node data moved => exact (keeps_assign hs hholding).ungiven
  | retain node =>
    rw [Request.taken, bag_nil, tsub_zero]
    exact keeps_retain hs hholding
  | destroy node =>
    rw [Request.perform, astDestroy_eq, ← destroyOwned_eq]
    exact (keeps_destroyOwned hs hholding.taken).ungiven
  | wordDestroy word => exact (keeps_destroyOwned hs hholding.taken).ungiven
  | redirectionDestroy redirection => exact (keeps_destroyOwned hs hholding.taken).ungiven
  | caseItemDestroy item => exact (keeps_destroyOwned hs hholding.taken).ungiven

/-! ### Runs -/

/-- No nodes, and a client that holds nothing. -/
def start : Nodes limit × Multiset ℕ := (.empty, 0)

theorem Holding.advance {s : Nodes limit × Multiset ℕ} {request : Request}
    (hholding : Holding s.1 s.2 request) (hs : Sound s.1 s.2) :
    ∃ s', Shared.advance s request = some s' ∧ Sound s'.1 s'.2 := by
  have hs₀ : Sound s.1 (s.2 + 0) := by
    rw [add_zero]
    exact hs
  obtain ⟨r, hperformed, hkept⟩ := hholding.perform hs₀
  unfold Shared.advance
  rw [hperformed]
  cases r with
  | error failure => exact ⟨s, rfl, hs⟩
  | ok h' =>
    have hs' := (hkept h' rfl).1
    rw [add_zero] at hs'
    exact ⟨_, rfl, hs'⟩

theorem Obeys.run {requests : List Request} {s : Nodes limit × Multiset ℕ} (hobeys : Obeys s requests)
    (hs : Sound s.1 s.2) : ∃ s', Shared.run s requests = some s' ∧ Sound s'.1 s'.2 := by
  induction requests generalizing s with
  | nil => exact ⟨s, rfl, hs⟩
  | cons request requests ih =>
    obtain ⟨s₁, hadvanced, hs₁⟩ := hobeys.1.advance hs
    obtain ⟨s', hrun, hs'⟩ := ih (hobeys.2 s₁ hadvanced) hs₁
    refine ⟨s', ?_, hs'⟩
    rw [Shared.run, hadvanced]
    exact hrun

/-- **No run of calls touches a node that is free, builds a cycle or leaks**: at its end
exactly the nodes that the client can get to are allocated, each of them counts its owners,
and no node can be reached from itself. -/
theorem trees_sound {requests : List Request} (hobeys : Obeys (start : Nodes limit × Multiset ℕ) requests) :
    ∃ (h : Nodes limit) (refs : Multiset ℕ), run start requests = some (h, refs) ∧
      Sharing.Clean Node.kids h refs := by
  obtain ⟨⟨h, refs⟩, hrun, hs⟩ := hobeys.run Sharing.Sound.empty
  exact ⟨h, refs, hrun, hs.clean⟩

end Memory

/-- A list of one command, which is kept when the list is taken down. -/
def keptCommand : List Request :=
  [.create 0 .list, .create 1 .simple, .listAdd (some 0) ⟨some 1, .finish⟩, .retain (some 1), .destroy (some 0)]

theorem holding_create {limit : ℕ} {h : Nodes limit} {refs : Multiset ℕ} {address : ℕ} {kind : Kind}
    (hfree : h.get address = none) (hlt : address < limit) : Holding h refs (.create address kind) where
  taken := Multiset.zero_le _
  target := by rintro _ ⟨⟩
  unchecked := by rintro _ ⟨⟩
  fits := ⟨hfree, hlt⟩

theorem obeys_keptCommand : Obeys (start : Nodes 2 × Multiset ℕ) keptCommand := by
  refine ⟨holding_create rfl (by decide), ?_⟩
  rintro _ ⟨⟩
  refine ⟨holding_create rfl (by decide), ?_⟩
  rintro _ ⟨⟩
  refine ⟨⟨by decide, ?_, ?_, trivial⟩, ?_⟩
  · rintro _ ⟨⟩
    refine ⟨by decide, ?_⟩
    rintro _ ⟨⟩
    rfl
  · rintro _ ⟨⟩
    decide
  rintro _ ⟨⟩
  refine ⟨⟨by decide, ?_, ?_, .kid (p := 0) (.root (by decide)) rfl (mem_singleton.mpr rfl)⟩, ?_⟩
  · rintro _ ⟨⟩
  · rintro _ ⟨⟩
  rintro _ ⟨⟩
  refine ⟨⟨by decide, ?_, ?_, trivial⟩, ?_⟩
  · rintro _ ⟨⟩
  · rintro _ ⟨⟩
  rintro _ ⟨⟩
  trivial

theorem trees_sound_keptCommand :
    ∃ (h : Nodes 2) (refs : Multiset ℕ), run start keptCommand = some (h, refs) ∧
      Sharing.Clean Node.kids h refs :=
  trees_sound obeys_keptCommand

end Shared
end CShell.Parse
