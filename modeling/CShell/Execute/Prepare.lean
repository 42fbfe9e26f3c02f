import CShell.Execute.Graph

/-!
# Building a plan

`plan_prepare` builds the plan of a syntax graph without recursion: the nodes of the plan
know their parents and how many of their children have been started, and the walk is in
them.  Nodes live in memory, at addresses; `calloc` gives out the addresses behind those
in use.

## Main definitions

* `PlanNode V` — `struct execution_plan`; `Memory V` — the nodes and the reservations.
* `planNode` — `plan_node`; `prepareStep`, `planPrepare` — `plan_prepare`.
* `destroyLoop`, `planDestroy` — `plan_destroy`.

## Main results

* `planNode_cases` — what `plan_node` can do.

## References

`src/execute.c` (`plan_node`, `plan_prepare`, `plan_destroy`).
-/

namespace CShell.Execute

open List

variable {V : Type}

/-! ### Memory -/

/-- `struct execution_plan`; `none` is a null pointer. -/
structure PlanNode (V : Type) where
  kind : AstKind := .simple
  tree : Option V := none
  children : Option ℕ := none
  parent : Option ℕ := none
  count : ℕ := 0
  cursor : ℕ := 0
  negated : Bool := false
  asynchronous : Bool := false
  deriving DecidableEq, Repr, Inhabited

/-- The nodes by address, the child arrays that were allocated, with their lengths, those
that were freed, and `struct descriptor_reservations`. -/
structure Memory (V : Type) where
  nodes : List (PlanNode V)
  arrays : List (ℕ × ℕ) := []
  freed : List ℕ := []
  reserved : List ℕ := []
  deriving DecidableEq, Repr

/-- What the allocator grants: room behind so many reservations, and an array of so many
nodes behind those in use.  The guards on the two sizes are part of the answer. -/
structure Allocator where
  realloc : ℕ → Bool
  calloc : ℕ → ℕ → Bool

/-- Every request is granted. -/
def Allocator.Grants (alloc : Allocator) : Prop :=
  (∀ count, alloc.realloc count = true) ∧ ∀ used count, alloc.calloc used count = true

/-- Write a node. -/
def Memory.put (m : Memory V) (address : ℕ) (plan : PlanNode V) : Memory V :=
  { m with nodes := m.nodes.set address plan }

/-! ### `plan_node` -/

/-- `SIZE_MAX`. -/
def sizeMax : ℕ := 2 ^ 64 - 1

/-- A kind that has no place for redirections. -/
def AstNode.invalidRedirections (node : AstNode V) : Bool :=
  decide (node.redirections ≠ [] ∧ node.data.kind ≠ .simple ∧ node.data.kind ≠ .brace ∧
    node.data.kind ≠ .subshell ∧ node.data.kind.ctorIdx < AstKind.ifClause.ctorIdx)

/-- The failures of the first switch of `plan_node`. -/
def AstData.failure : AstData V → Option Failure
  | .ifClause branches _ =>
    if (sizeMax - 1) / 2 < branches.length then some ⟨"execution plan size overflow", 1⟩ else none
  | .pipeline commands _ => if commands = [] then some ⟨"invalid pipeline AST", 2⟩ else none
  | _ => none

/-- The operand of a duplication is reserved. -/
def AstRedirection.duplicates (r : AstRedirection) : Bool :=
  decide (r.operatorKind = .lessAnd ∨ r.operatorKind = .greatAnd)

/-- The numbers that a redirection reserves. -/
def AstRedirection.numbers (r : AstRedirection) : List ℕ :=
  (r.ioNumber.bind descriptor).toList ++ (if r.duplicates then (descriptor r.operand).toList else [])

/-- The loop of `plan_node` over the redirections. -/
def reserve (alloc : Allocator) : List AstRedirection → List ℕ → Option Failure × List ℕ
  | [], reserved => (none, reserved)
  | r :: rest, reserved =>
    if r.ioNumber.map descriptor = some none then (some ⟨"invalid redirection descriptor", 2⟩, reserved)
    else if alloc.realloc reserved.length = false then
      (some ⟨"cannot reserve descriptor operands", 1⟩, reserved)
    else reserve alloc rest (reserved ++ r.numbers)

section PlanNode

variable [DecidableEq V] (g : V → AstNode V) (alloc : Allocator)

/-- The loop of `plan_node` over the ancestors, each once. -/
def ancestorHas (nodes : List (PlanNode V)) (tree : V) : ℕ → Option ℕ → Option Bool
  | _, none => some false
  | 0, some _ => none
  | fuel + 1, some ancestor =>
    match nodes[ancestor]? with
    | none => none
    | some plan =>
      if plan.tree = some tree then some true else ancestorHas nodes tree fuel plan.parent

/-- The children that `plan_node` fills in. -/
def sprouts (data : AstData V) (parent : ℕ) : List (PlanNode V) :=
  (List.range data.count).map fun i =>
    { parent := some parent, asynchronous := data.asynchronous i, tree := data.child i }

/-- `plan_node` on the node at an address; the failure is `none` for 0. -/
def planNode (address : ℕ) (m : Memory V) : Option (Option Failure × Memory V) :=
  match m.nodes[address]? with
  | none => none
  | some plan =>
    match plan.tree with
    | none => some (some ⟨"invalid execution tree", 2⟩, m)
    | some tree =>
      match ancestorHas m.nodes tree m.nodes.length plan.parent with
      | none => none
      | some true => some (some ⟨"cyclic execution tree", 2⟩, m)
      | some false =>
        let node := g tree
        let plan := { plan with kind := node.data.kind, tree := some tree }
        let plan := match node.data with
          | .pipeline _ negated => { plan with negated }
          | _ => plan
        let m := m.put address plan
        if node.data.failure.isSome then some (node.data.failure, m)
        else if node.invalidRedirections then some (some ⟨"invalid compound redirections", 2⟩, m)
        else
          let (failure, reserved) := reserve alloc node.redirections m.reserved
          let m := { m with reserved }
          if failure.isSome then some (failure, m)
          else if node.data.count = 0 then some (none, m)
          else if alloc.calloc m.nodes.length node.data.count = false then
            some (some ⟨"cannot allocate execution plan", 1⟩, m)
          else
            let base := m.nodes.length
            let plan := { plan with children := some base, count := node.data.count }
            let m := m.put address plan
            some (none, { m with nodes := m.nodes ++ sprouts node.data address,
                                 arrays := m.arrays ++ [(base, node.data.count)] })

/-! ### `plan_prepare` -/

/-- Where `plan_prepare` is: about to call `plan_node` on the current node, or at the
inner loop. -/
inductive Phase
  | visit (current : ℕ)
  | ascend (current : ℕ)
  deriving DecidableEq, Repr

/-- What a step of `plan_prepare` leads to. -/
inductive Progress (V : Type)
  | again (phase : Phase) (m : Memory V)
  | finished (failure : Option Failure) (m : Memory V)

/-- One step of `plan_prepare`: a call of `plan_node`, or a round of the inner loop with
what follows its last. -/
def prepareStep (m : Memory V) : Phase → Option (Progress V)
  | .visit current =>
    match planNode g alloc current m with
    | none => none
    | some (some failure, m) => some (.finished (some failure) m)
    | some (none, m) => some (.again (.ascend current) m)
  | .ascend current =>
    match m.nodes[current]? with
    | none => none
    | some plan =>
      if plan.cursor = plan.count then
        match plan.parent with
        | none => some (.finished none m)
        | some parent => some (.again (.ascend parent) m)
      else
        match plan.children with
        | none => none
        | some base =>
          some (.again (.visit (base + plan.cursor)) (m.put current { plan with cursor := plan.cursor + 1 }))

/-- `plan_prepare` from a step on, for as many steps as the fuel allows. -/
def prepareLoop : ℕ → Phase → Memory V → Option (Option Failure × Memory V)
  | 0, _, _ => none
  | fuel + 1, phase, m =>
    match prepareStep g alloc m phase with
    | none => none
    | some (.finished failure m) => some (failure, m)
    | some (.again phase m) => prepareLoop fuel phase m

/-- `plan_prepare` with an empty plan and no reservations. -/
def planPrepare (fuel : ℕ) (tree : Option V) : Option (Option Failure × Memory V) :=
  prepareLoop g alloc fuel (.visit 0) { nodes := [{ tree }] }

end PlanNode

/-! ### `plan_destroy` -/

/-- An address in an array that was freed. -/
def Memory.dangles (m : Memory V) (address : ℕ) : Bool :=
  m.arrays.any fun array =>
    decide (array.1 ≤ address ∧ address < array.1 + array.2) && m.freed.contains array.1

/-- The loop of `plan_destroy`; it may not look at what was freed. -/
def destroyLoop : ℕ → Option ℕ → Memory V → Option (Memory V)
  | _, none, m => some m
  | 0, some _, _ => none
  | fuel + 1, some current, m =>
    if m.dangles current then none
    else
      match m.nodes[current]? with
      | none => none
      | some plan =>
        if plan.count ≠ 0 then
          match plan.children with
          | none => none
          | some base =>
            destroyLoop fuel (some (base + (plan.count - 1))) (m.put current { plan with count := plan.count - 1 })
        else
          destroyLoop fuel plan.parent
            ({ m with freed := m.freed ++ plan.children.toList }.put current {})

/-- `plan_destroy` on the root. -/
def planDestroy (fuel : ℕ) (m : Memory V) : Option (Memory V) := destroyLoop fuel (some 0) m

/-! ### What `plan_node` can do -/

/-- A node that `plan_node` has not been called on. -/
structure PlanNode.Fresh (x : PlanNode V) : Prop where
  children : x.children = none
  count : x.count = 0
  cursor : x.cursor = 0
  negated : x.negated = false

/-- What `plan_node` asks of a node of the graph, other than its children. -/
structure AstNode.Plannable (node : AstNode V) : Prop where
  data : node.data.failure = none
  redirections : node.invalidRedirections = false
  descriptors : ∀ r ∈ node.redirections, ∀ text, r.ioNumber = some text → (descriptor text).isSome = true

/-- The node at an address and its ancestors, nearest first, with what they were planned
from; ancestors have lower addresses. -/
inductive Trail (nodes : List (PlanNode V)) : Option ℕ → List (ℕ × V) → Prop
  | root : Trail nodes none []
  | step {a : ℕ} {x : PlanNode V} {v : V} {rest : List (ℕ × V)} (hx : nodes[a]? = some x)
      (htree : x.tree = some v) (hlt : ∀ p ∈ x.parent, p < a) (h : Trail nodes x.parent rest) :
      Trail nodes (some a) ((a, v) :: rest)

/-- A node with the fields that do not depend on its children. -/
def PlanNode.named (x : PlanNode V) (v : V) (data : AstData V) : PlanNode V :=
  { x with kind := data.kind, tree := some v, negated := data.negated }

/-- The memory behind a call that planned a node. -/
def Memory.sow (m : Memory V) (address : ℕ) (x : PlanNode V) (v : V) (node : AstNode V) : Memory V :=
  { m with
    nodes := m.nodes.set address
        { x.named v node.data with
          children := if node.data.count = 0 then none else some m.nodes.length,
          count := node.data.count } ++ sprouts node.data address,
    arrays := if node.data.count = 0 then m.arrays else m.arrays ++ [(m.nodes.length, node.data.count)],
    reserved := m.reserved ++ node.redirections.flatMap AstRedirection.numbers }

theorem Trail.length_le {nodes : List (PlanNode V)} {a : ℕ} {trail : List (ℕ × V)}
    (h : Trail nodes (some a) trail) : trail.length ≤ a + 1 := by
  generalize hstart : some a = start at h
  induction h generalizing a with
  | root => cases hstart
  | @step b x v rest hx htree hlt h ih =>
    cases hstart
    rw [length_cons]
    cases hparent : x.parent with
    | none =>
      rw [hparent] at h
      cases h
      exact Nat.succ_le_succ (Nat.zero_le _)
    | some p =>
      have hp := hlt p hparent
      have hle := ih hparent.symm
      omega

theorem reserve_cases (alloc : Allocator) (rs : List AstRedirection) (reserved : List ℕ) :
    ((∀ r ∈ rs, ∀ text, r.ioNumber = some text → (descriptor text).isSome = true) ∧
      reserve alloc rs reserved = (none, reserved ++ rs.flatMap AstRedirection.numbers)) ∨
    (¬(∀ r ∈ rs, ∀ text, r.ioNumber = some text → (descriptor text).isSome = true) ∨ ¬alloc.Grants) ∧
      ∃ failure reserved', reserve alloc rs reserved = (some failure, reserved') := by
  induction rs generalizing reserved with
  | nil =>
    refine .inl ⟨fun r hr => absurd hr not_mem_nil, ?_⟩
    rw [flatMap_nil, append_nil]
    rfl
  | cons r rs ih =>
    unfold reserve
    split
    · next hbad =>
      refine .inr ⟨.inl ?_, _, _, rfl⟩
      intro hall
      obtain ⟨text, hio, hnone⟩ := Option.map_eq_some_iff.mp hbad
      have hsome := hall r mem_cons_self text hio
      rw [hnone] at hsome
      cases hsome
    · next hgood =>
      split
      · next hroom =>
        refine .inr ⟨.inr ?_, _, _, rfl⟩
        intro hgrants
        rw [hgrants.1] at hroom
        cases hroom
      · rcases ih (reserved ++ r.numbers) with ⟨hall, heq⟩ | ⟨hwhy, failure, reserved', heq⟩
        · refine .inl ⟨?_, ?_⟩
          · intro r' hmem text hio
            rcases mem_cons.mp hmem with rfl | hmem
            · rw [Option.isSome_iff_ne_none]
              intro hnone
              exact hgood (by rw [hio, Option.map_some, hnone])
            · exact hall r' hmem text hio
          · rw [heq, append_assoc, flatMap_cons]
        · refine .inr ⟨hwhy.imp_left ?_, failure, reserved', heq⟩
          intro hsome hall
          exact hsome fun r' hmem => hall r' (mem_cons_of_mem _ hmem)

theorem named_eq {x : PlanNode V} (hfresh : x.Fresh) (v : V) (data : AstData V) :
    (match data with
      | .pipeline _ negated => { { x with kind := data.kind, tree := some v } with negated }
      | _ => { x with kind := data.kind, tree := some v }) = x.named v data := by
  have hnegated := hfresh.negated
  cases x
  cases data <;> simp_all [PlanNode.named, AstData.negated]

theorem PlanNode.Fresh.named_leaf {x : PlanNode V} (hfresh : x.Fresh) (v : V) (data : AstData V) :
    { x.named v data with children := none, count := 0 } = x.named v data := by
  have hchildren := hfresh.children
  have hcount := hfresh.count
  cases x
  simp_all [PlanNode.named]

theorem Memory.sow_branch (m : Memory V) (address : ℕ) (x : PlanNode V) (v : V) {node : AstNode V}
    (h : node.data.count ≠ 0) :
    m.sow address x v node =
      { m with
        nodes := m.nodes.set address
          { x.named v node.data with children := some m.nodes.length, count := node.data.count } ++
            sprouts node.data address,
        arrays := m.arrays ++ [(m.nodes.length, node.data.count)],
        reserved := m.reserved ++ node.redirections.flatMap AstRedirection.numbers } := by
  unfold Memory.sow
  rw [if_neg h, if_neg h]

section Spec

variable [DecidableEq V] (g : V → AstNode V) (alloc : Allocator)

/-- The loop over the ancestors compares the node with each. -/
theorem ancestorHas_eq {nodes : List (PlanNode V)} {start : Option ℕ} {trail : List (ℕ × V)}
    (h : Trail nodes start trail) (tree : V) {fuel : ℕ} (hfuel : trail.length ≤ fuel) :
    ancestorHas nodes tree fuel start = some (decide (tree ∈ trail.map Prod.snd)) := by
  induction h generalizing fuel with
  | root => cases fuel <;> rfl
  | @step a x v rest hx htree hlt h ih =>
    cases fuel with
    | zero => exact absurd hfuel (Nat.not_succ_le_zero _)
    | succ fuel =>
      unfold ancestorHas
      rw [hx]
      dsimp only
      rw [htree]
      by_cases heq : v = tree
      · subst heq
        simp
      · rw [if_neg fun h => heq (Option.some.inj h), ih (Nat.le_of_succ_le_succ hfuel)]
        simp [Ne.symm heq]

/-- The outcomes of a call of `plan_node` on a fresh node. -/
inductive Planned (address : ℕ) (x : PlanNode V) (trail : List (ℕ × V)) (m : Memory V) :
    Option Failure → Memory V → Prop
  | missing (h : x.tree = none) (failure : Failure) : Planned address x trail m (some failure) m
  | cyclic {v : V} (h : x.tree = some v) (hmem : v ∈ trail.map Prod.snd) (failure : Failure) :
      Planned address x trail m (some failure) m
  | refused {v : V} (h : x.tree = some v) (hwhy : ¬(g v).Plannable ∨ ¬alloc.Grants)
      (reserved : List ℕ) (failure : Failure) :
      Planned address x trail m (some failure)
        { m.put address (x.named v (g v).data) with reserved }
  | sown {v : V} (h : x.tree = some v) (hnot : v ∉ trail.map Prod.snd) (hvalid : (g v).Plannable) :
      Planned address x trail m none (m.sow address x v (g v))

/-- **A call of `plan_node`.** -/
theorem planNode_spec {address : ℕ} {x : PlanNode V} {trail : List (ℕ × V)} {m : Memory V}
    (hx : m.nodes[address]? = some x) (hfresh : x.Fresh) (htrail : Trail m.nodes x.parent trail)
    (hlen : trail.length ≤ m.nodes.length) :
    ∃ failure m', planNode g alloc address m = some (failure, m') ∧
      Planned g alloc address x trail m failure m' := by
  unfold planNode
  rw [hx]
  dsimp only
  cases htree : x.tree with
  | none => exact ⟨_, _, rfl, .missing htree _⟩
  | some v =>
    dsimp only
    rw [ancestorHas_eq htrail v hlen]
    by_cases hmem : v ∈ trail.map Prod.snd
    · rw [decide_eq_true hmem]
      exact ⟨_, _, rfl, .cyclic htree hmem _⟩
    · rw [decide_eq_false hmem]
      dsimp only
      rw [named_eq hfresh]
      by_cases hdata : (g v).data.failure.isSome = true
      · obtain ⟨failure, hfailure⟩ := Option.isSome_iff_exists.mp hdata
        rw [if_pos hdata, hfailure]
        refine ⟨_, _, rfl, .refused htree (.inl fun hvalid => ?_) m.reserved failure⟩
        rw [hvalid.data] at hfailure
        cases hfailure
      · rw [if_neg hdata]
        by_cases hinvalid : (g v).invalidRedirections = true
        · rw [if_pos hinvalid]
          refine ⟨_, _, rfl, .refused htree (.inl fun hvalid => ?_) m.reserved _⟩
          rw [hvalid.redirections] at hinvalid
          cases hinvalid
        · rw [if_neg hinvalid]
          have hreserved : (m.put address (x.named v (g v).data)).reserved = m.reserved := rfl
          rw [hreserved]
          rcases reserve_cases alloc (g v).redirections m.reserved with
            ⟨hall, heq⟩ | ⟨hwhy, failure, reserved, heq⟩
          · have hvalid : (g v).Plannable :=
              ⟨Option.not_isSome_iff_eq_none.mp hdata, Bool.eq_false_of_not_eq_true hinvalid, hall⟩
            rw [heq]
            dsimp only
            rw [if_neg (by decide)]
            by_cases hzero : (g v).data.count = 0
            · rw [if_pos hzero]
              refine ⟨_, _, rfl, ?_⟩
              have hsow : m.sow address x v (g v) =
                  { m.put address (x.named v (g v).data) with
                    reserved := m.reserved ++ (g v).redirections.flatMap AstRedirection.numbers } := by
                unfold Memory.sow
                rw [hzero, if_pos rfl, if_pos rfl, sprouts, hzero, range_zero, map_nil, append_nil,
                  hfresh.named_leaf]
                rfl
              rw [← hsow]
              exact .sown htree hmem hvalid
            · rw [if_neg hzero]
              have hlength : (m.put address (x.named v (g v).data)).nodes.length = m.nodes.length :=
                length_set
              rw [hlength]
              by_cases hroom : alloc.calloc m.nodes.length (g v).data.count = false
              · rw [if_pos hroom]
                refine ⟨_, _, rfl, .refused htree (.inr fun hgrants => ?_) _ _⟩
                rw [hgrants.2] at hroom
                cases hroom
              · rw [if_neg hroom]
                refine ⟨_, _, rfl, ?_⟩
                have hsow := m.sow_branch address x v hzero
                unfold Memory.put
                dsimp only
                rw [set_set, ← hsow]
                exact .sown htree hmem hvalid
          · rw [heq]
            dsimp only
            rw [if_pos (by rfl)]
            refine ⟨_, _, rfl, .refused htree ?_ reserved failure⟩
            exact hwhy.imp_left fun hbad hvalid => hbad hvalid.descriptors

end Spec

end CShell.Execute
