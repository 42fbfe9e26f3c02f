import CShell.Execute.Prepare

/-!
# What `plan_prepare` builds

The nodes that were given out always form a tree: every array has one owner, which has a
lower address, and every node of it knows the owner.  The walk keeps more.  A node whose
turn has come describes its node of the graph, one whose turn has not is as `calloc` left
it, and off the path from the current node to the root no child is left to visit.  When
the walk ends at the root, every node describes its node of the graph.

A path never has a node of the graph twice, so the walk ends also when there are cycles.

## Main definitions

* `Linked m` — the nodes in memory are linked as a tree.
* `Sown g m a` — the node at an address describes its node of the graph.
* `Preparing` — the invariant of the walk; `Visiting`, `Ascending` — by its phase.
* `Obstacle g root` — why a graph cannot be planned.

## Main results

* `prepareStep_keeps` — a step keeps the invariant, or ends the walk.
* `planPrepare_ends` — **the walk ends**, with a complete plan or at an obstacle.

## References

`src/execute.c` (`plan_node`, `plan_prepare`).
-/

namespace CShell.Execute

open Unfolding List

variable {V : Type}

/-! ### Links -/

/-- The pointers of a node. -/
def PlanNode.links (x : PlanNode V) : Option ℕ × ℕ × Option ℕ := (x.children, x.count, x.parent)

/-- The nodes in memory are linked as a tree whose arrays are those that were allocated. -/
structure Linked (m : Memory V) : Prop where
  root : ∃ x, m.nodes[0]? = some x ∧ x.parent = none
  leaf : ∀ (a : ℕ) (x : PlanNode V), m.nodes[a]? = some x → x.children = none → x.count = 0
  branch : ∀ (a : ℕ) (x : PlanNode V) (base : ℕ), m.nodes[a]? = some x → x.children = some base →
    a < base ∧ (base, x.count) ∈ m.arrays ∧
      ∀ j < x.count, ∃ y, m.nodes[base + j]? = some y ∧ y.parent = some a
  placed : ∀ (a : ℕ) (x : PlanNode V), m.nodes[a]? = some x → a ≠ 0 → ∃ (p : ℕ) (y : PlanNode V) (base j : ℕ),
    x.parent = some p ∧ m.nodes[p]? = some y ∧ y.children = some base ∧ j < y.count ∧ a = base + j
  owned : (m.nodes.filterMap PlanNode.children).Perm (m.arrays.map Prod.fst)
  bounded : ∀ array ∈ m.arrays, 0 < array.1 ∧ 0 < array.2 ∧ array.1 + array.2 ≤ m.nodes.length
  apart : m.arrays.Pairwise fun array array' => array.1 + array.2 ≤ array'.1
  freed : m.freed = []

/-- Replacing an entry replaces what is read of it. -/
theorem filterMap_set {α β : Type} (f : α → Option β) {xs : List α} {i : ℕ} {x : α} (h : xs[i]? = some x)
    (x' : α) : ((f x').toList ++ xs.filterMap f).Perm ((f x).toList ++ (xs.set i x').filterMap f) := by
  induction xs generalizing i with
  | nil => cases h
  | cons y ys ih =>
    cases i with
    | zero =>
      cases h
      rw [set_cons_zero, filterMap_cons, filterMap_cons]
      cases f x with
      | none => cases f x' <;> exact List.Perm.refl _
      | some b =>
        cases f x' with
        | none => exact List.Perm.refl _
        | some b' => exact List.Perm.swap b b' _
    | succ i =>
      rw [set_cons_succ, filterMap_cons, filterMap_cons]
      cases f y with
      | none => exact ih h
      | some b =>
        refine (perm_middle).trans (List.Perm.trans ?_ (perm_middle).symm)
        exact (ih h).cons b

variable {a : ℕ} {v : V} {y : PlanNode V}

namespace Linked

variable {m m' : Memory V}

/-- Only the pointers matter. -/
theorem congr (h : Linked m) (hl : m'.nodes.map PlanNode.links = m.nodes.map PlanNode.links)
    (ha : m'.arrays = m.arrays) (hf : m'.freed = m.freed) : Linked m' := by
  have hlength : m'.nodes.length = m.nodes.length := by
    have hmap := congrArg length hl
    rwa [length_map, length_map] at hmap
  have hback : ∀ {nodes nodes' : List (PlanNode V)}, nodes'.map PlanNode.links = nodes.map PlanNode.links →
      ∀ (a : ℕ) (x' : PlanNode V), nodes'[a]? = some x' → ∃ x : PlanNode V, nodes[a]? = some x ∧ x.links = x'.links := by
    intro nodes nodes' hmap a x' hx'
    have hget := congrArg (fun xs => xs[a]?) hmap
    rw [getElem?_map, getElem?_map, hx', Option.map_some] at hget
    obtain ⟨x, hx, heq⟩ := Option.map_eq_some_iff.mp hget.symm
    exact ⟨x, hx, heq⟩
  have hchildren : ∀ {x x' : PlanNode V}, x.links = x'.links → x.children = x'.children :=
    fun heq => congrArg Prod.fst heq
  have hcount : ∀ {x x' : PlanNode V}, x.links = x'.links → x.count = x'.count :=
    fun heq => congrArg (fun l => l.2.1) heq
  have hparent : ∀ {x x' : PlanNode V}, x.links = x'.links → x.parent = x'.parent :=
    fun heq => congrArg (fun l => l.2.2) heq
  refine ⟨?_, ?_, ?_, ?_, ?_, ?_, ?_, hf.trans h.freed⟩
  · obtain ⟨x, hx, hnone⟩ := h.root
    obtain ⟨x', hx', heq⟩ := hback hl.symm 0 x hx
    exact ⟨x', hx', (hparent heq).trans hnone⟩
  · intro a x' hx' hnone
    obtain ⟨x, hx, heq⟩ := hback hl a x' hx'
    exact (hcount heq).symm.trans (h.leaf a x hx ((hchildren heq).trans hnone))
  · intro a x' base hx' hbase
    obtain ⟨x, hx, heq⟩ := hback hl a x' hx'
    obtain ⟨hlt, hmem, hall⟩ := h.branch a x base hx ((hchildren heq).trans hbase)
    rw [hcount heq] at hmem hall
    refine ⟨hlt, ha ▸ hmem, fun j hj => ?_⟩
    obtain ⟨y, hy, hya⟩ := hall j hj
    obtain ⟨y', hy', heq'⟩ := hback hl.symm (base + j) y hy
    exact ⟨y', hy', (hparent heq').trans hya⟩
  · intro a x' hx' hne
    obtain ⟨x, hx, heq⟩ := hback hl a x' hx'
    obtain ⟨p, y, base, j, hp, hy, hbase, hj, hplace⟩ := h.placed a x hx hne
    obtain ⟨y', hy', heq'⟩ := hback hl.symm p y hy
    exact ⟨p, y', base, j, (hparent heq).symm.trans hp, hy', (hchildren heq').trans hbase,
      (hcount heq').symm ▸ hj, hplace⟩
  · have howned : ∀ nodes : List (PlanNode V),
        nodes.filterMap PlanNode.children = (nodes.map PlanNode.links).filterMap Prod.fst := by
      intro nodes
      rw [filterMap_map]
      rfl
    rw [ha, howned, hl, ← howned]
    exact h.owned
  · rw [ha, hlength]
    exact h.bounded
  · rw [ha]
    exact h.apart

/-- Writing a node with the pointers it has keeps the links. -/
theorem put (h : Linked m) {x x' : PlanNode V} (hx : m.nodes[a]? = some x) (hl : x'.links = x.links) :
    Linked (m.put a x') := by
  refine h.congr ?_ rfl rfl
  show (m.nodes.set a x').map PlanNode.links = m.nodes.map PlanNode.links
  rw [map_set, hl]
  refine ext_getElem? fun i => ?_
  rw [getElem?_set]
  split
  · next heq =>
    subst heq
    rw [getElem?_map, hx]
    split
    · rfl
    · next hlt => exact absurd (by rw [List.length_map]; exact (List.getElem?_eq_some_iff.mp hx).1) hlt
  · rfl

end Linked

/-! ### Sowing -/

/-- A child as `plan_node` leaves it. -/
def sprout (parent : ℕ) (part : Option V × Bool) : PlanNode V :=
  { parent := some parent, asynchronous := part.2, tree := part.1 }

theorem sprouts_eq (data : AstData V) (parent : ℕ) : sprouts data parent = data.parts.map (sprout parent) := by
  unfold sprouts
  refine ext_getElem? fun i => ?_
  rw [getElem?_map, getElem?_map]
  by_cases hi : i < data.count
  · rw [getElem?_range hi, AstData.parts_getElem? hi]
    rfl
  · have hrange : (range data.count)[i]? = none := by
      rw [getElem?_eq_none_iff, length_range]
      exact Nat.le_of_not_lt hi
    have hparts : data.parts[i]? = none := by
      rw [getElem?_eq_none_iff, AstData.parts_length]
      exact Nat.le_of_not_lt hi
    rw [hrange, hparts]
    rfl

theorem sprout_fresh (parent : ℕ) (part : Option V × Bool) : (sprout parent part).Fresh := ⟨rfl, rfl, rfl, rfl⟩

section Sow

variable {m : Memory V} {c : ℕ} {x : PlanNode V}

/-- The node that was planned. -/
def PlanNode.planted (x : PlanNode V) (v : V) (data : AstData V) (base : ℕ) : PlanNode V :=
  { x.named v data with children := if data.count = 0 then none else some base, count := data.count }

theorem sow_here (hx : m.nodes[c]? = some x) (v : V) (node : AstNode V) :
    (m.sow c x v node).nodes[c]? = some (x.planted v node.data m.nodes.length) := by
  have hlt := (List.getElem?_eq_some_iff.mp hx).1
  show (m.nodes.set c (x.planted v node.data m.nodes.length) ++ sprouts node.data c)[c]? = _
  rw [List.getElem?_append_left (by rwa [List.length_set]), List.getElem?_set_self hlt]

theorem sow_old (hy : m.nodes[a]? = some y) (hne : a ≠ c) (v : V)
    (node : AstNode V) : (m.sow c x v node).nodes[a]? = some y := by
  have hlt := (List.getElem?_eq_some_iff.mp hy).1
  show (m.nodes.set c (x.planted v node.data m.nodes.length) ++ sprouts node.data c)[a]? = _
  rw [List.getElem?_append_left (by rwa [List.length_set]), List.getElem?_set_ne (Ne.symm hne), hy]

theorem sow_new {i : ℕ} {part : Option V × Bool} {node : AstNode V} (hp : node.data.parts[i]? = some part) :
    (m.sow c x v node).nodes[m.nodes.length + i]? = some (sprout c part) := by
  show (m.nodes.set c (x.planted v node.data m.nodes.length) ++ sprouts node.data c)[m.nodes.length + i]? = _
  rw [getElem?_append_right (by rw [length_set]; exact Nat.le_add_right _ _), length_set,
    Nat.add_sub_cancel_left, sprouts_eq, getElem?_map, hp]
  rfl

/-- A node behind a call is the planned one, an old one or a new one. -/
theorem sow_cases {node : AstNode V} (hx : m.nodes[c]? = some x)
    (hy : (m.sow c x v node).nodes[a]? = some y) :
    a = c ∧ y = x.planted v node.data m.nodes.length ∨ a ≠ c ∧ m.nodes[a]? = some y ∨
      ∃ i part, a = m.nodes.length + i ∧ node.data.parts[i]? = some part ∧ y = sprout c part := by
  by_cases hac : a = c
  · subst hac
    rw [sow_here hx] at hy
    exact .inl ⟨rfl, (Option.some.inj hy).symm⟩
  · refine .inr ?_
    have hy' : (m.nodes.set c (x.planted v node.data m.nodes.length) ++ sprouts node.data c)[a]? = some y := hy
    rcases Nat.lt_or_ge a m.nodes.length with hlt | hge
    · rw [getElem?_append_left (by rwa [length_set]), getElem?_set_ne (Ne.symm hac)] at hy'
      exact .inl ⟨hac, hy'⟩
    · rw [getElem?_append_right (by rwa [length_set]), length_set, sprouts_eq,
        getElem?_map] at hy'
      obtain ⟨part, hp, heq⟩ := Option.map_eq_some_iff.mp hy'
      exact .inr ⟨a - m.nodes.length, part, by omega, hp, heq.symm⟩

/-- **Planning a fresh node keeps the links.** -/
theorem Linked.sow (h : Linked m) (hx : m.nodes[c]? = some x) (hfresh : x.Fresh) (v : V) (node : AstNode V) :
    Linked (m.sow c x v node) := by
  by_cases hzero : node.data.count = 0
  · -- Nothing is allocated, and the pointers stay.
    have hlinks : (x.planted v node.data m.nodes.length).links = x.links := by
      unfold PlanNode.planted PlanNode.links
      rw [if_pos hzero, hzero, hfresh.children, hfresh.count]
      rfl
    have hput := h.put hx hlinks
    refine hput.congr ?_ ?_ rfl
    · have hnil : sprouts node.data c = [] := by rw [sprouts, hzero]; rfl
      show ((m.nodes.set c (x.planted v node.data m.nodes.length)) ++ sprouts node.data c).map PlanNode.links = _
      rw [hnil, append_nil]
      rfl
    · show (if node.data.count = 0 then m.arrays else _) = m.arrays
      rw [if_pos hzero]
  · have hplanted : x.planted v node.data m.nodes.length =
        { x.named v node.data with children := some m.nodes.length, count := node.data.count } := by
      unfold PlanNode.planted
      rw [if_neg hzero]
    have harrays : (m.sow c x v node).arrays = m.arrays ++ [(m.nodes.length, node.data.count)] := by
      show (if node.data.count = 0 then m.arrays else _) = _
      rw [if_neg hzero]
    have hlen : c < m.nodes.length := (List.getElem?_eq_some_iff.mp hx).1
    have hlength : (m.sow c x v node).nodes.length = m.nodes.length + node.data.count := by
      show (m.nodes.set c _ ++ sprouts node.data c).length = _
      rw [length_append, length_set, sprouts_eq, length_map, AstData.parts_length]
    -- An old node is still there, with its parent.
    have hkeep : ∀ {a : ℕ} {y : PlanNode V}, m.nodes[a]? = some y →
        ∃ y', (m.sow c x v node).nodes[a]? = some y' ∧ y'.parent = y.parent ∧
          (y.children ≠ none → y' = y) := by
      intro a y hy
      by_cases hac : a = c
      · subst hac
        rw [hx] at hy
        cases hy
        exact ⟨_, sow_here hx v node, rfl, fun hne => absurd hfresh.children hne⟩
      · exact ⟨y, sow_old hy hac v node, rfl, fun _ => rfl⟩
    refine ⟨?_, ?_, ?_, ?_, ?_, ?_, ?_, h.freed⟩
    · obtain ⟨y, hy, hnone⟩ := h.root
      obtain ⟨y', hy', hparent, -⟩ := hkeep hy
      exact ⟨y', hy', hparent.trans hnone⟩
    · intro a y hy hnone
      rcases sow_cases hx hy with ⟨rfl, rfl⟩ | ⟨-, hy⟩ | ⟨i, part, -, -, rfl⟩
      · rw [hplanted] at hnone
        cases hnone
      · exact h.leaf a y hy hnone
      · rfl
    · intro a y base hy hbase
      rw [harrays]
      rcases sow_cases hx hy with ⟨rfl, rfl⟩ | ⟨-, hy⟩ | ⟨i, part, -, -, rfl⟩
      · rw [hplanted] at hbase ⊢
        cases hbase
        refine ⟨hlen, mem_append_right _ mem_cons_self, fun j hj => ?_⟩
        exact ⟨_, sow_new (AstData.parts_getElem? hj), rfl⟩
      · obtain ⟨hlt, hmem, hall⟩ := h.branch a y base hy hbase
        refine ⟨hlt, mem_append_left _ hmem, fun j hj => ?_⟩
        obtain ⟨z, hz, hparent⟩ := hall j hj
        obtain ⟨z', hz', hsame, -⟩ := hkeep hz
        exact ⟨z', hz', hsame.trans hparent⟩
      · cases hbase
    · intro a y hy hne
      have hold : ∀ {z : PlanNode V}, m.nodes[a]? = some z → z.parent = y.parent →
          ∃ (p : ℕ) (y' : PlanNode V) (base j : ℕ), y.parent = some p ∧
            (m.sow c x v node).nodes[p]? = some y' ∧ y'.children = some base ∧ j < y'.count ∧ a = base + j := by
        intro z hz hparent
        obtain ⟨p, w, base, j, hp, hw, hbase, hj, hplace⟩ := h.placed a z hz hne
        obtain ⟨w', hw', -, hsame⟩ := hkeep hw
        cases hsame (by rw [hbase]; exact Option.some_ne_none _)
        exact ⟨p, w, base, j, hparent.symm.trans hp, hw', hbase, hj, hplace⟩
      rcases sow_cases hx hy with ⟨rfl, rfl⟩ | ⟨-, hy⟩ | ⟨i, part, rfl, hp, rfl⟩
      · exact hold hx rfl
      · exact hold hy rfl
      · have hi : i < node.data.count := by
          rw [← AstData.parts_length]
          exact (List.getElem?_eq_some_iff.mp hp).1
        refine ⟨c, _, m.nodes.length, i, rfl, sow_here hx v node, ?_, ?_, rfl⟩
        · rw [hplanted]
        · rw [hplanted]
          exact hi
    · have hsplit : (m.sow c x v node).nodes.filterMap PlanNode.children =
          (m.nodes.set c (x.planted v node.data m.nodes.length)).filterMap PlanNode.children := by
        show (m.nodes.set c (x.planted v node.data m.nodes.length) ++ sprouts node.data c).filterMap _ = _
        rw [filterMap_append, sprouts_eq, filterMap_map]
        have hnil : node.data.parts.filterMap (PlanNode.children ∘ sprout c) = [] := by
          rw [filterMap_eq_nil_iff]
          exact fun part _ => rfl
        rw [hnil, append_nil]
      have hperm := filterMap_set PlanNode.children hx (x.planted v node.data m.nodes.length)
      rw [hfresh.children, hplanted] at hperm
      rw [hsplit, harrays, map_append, hplanted]
      refine hperm.symm.trans ((h.owned.cons _).trans ?_)
      exact (perm_append_singleton _ _).symm
    · intro array hmem
      rw [hlength]
      rw [harrays] at hmem
      rcases mem_append.mp hmem with hmem | hmem
      · obtain ⟨hpos, hcount, hle⟩ := h.bounded array hmem
        exact ⟨hpos, hcount, hle.trans (Nat.le_add_right _ _)⟩
      · cases mem_singleton.mp hmem
        exact ⟨by omega, Nat.pos_of_ne_zero hzero, Nat.le_refl _⟩
    · rw [harrays]
      refine pairwise_append.mpr ⟨h.apart, pairwise_singleton _ _, ?_⟩
      intro array hmem array' hmem'
      cases mem_singleton.mp hmem'
      exact (h.bounded array hmem).2.2

end Sow

/-! ### The walk -/

/-- The children in the graph. -/
abbrev astParts (g : V → AstNode V) (v : V) : List (Option V × Bool) := (g v).data.parts

/-- A vertex that the root of the tree, if there is one, leads to. -/
def Reachable (g : V → AstNode V) (root : Option V) (v : V) : Prop :=
  ∃ r, root = some r ∧ Relation.ReflTransGen (Edge (astParts g)) r v

/-- A node of the plan describes its node of the graph, and its children are those. -/
structure Sown (g : V → AstNode V) (m : Memory V) (a : ℕ) (x : PlanNode V) (v : V) : Prop where
  here : m.nodes[a]? = some x
  tree : x.tree = some v
  kind : x.kind = (g v).data.kind
  negated : x.negated = (g v).data.negated
  count : x.count = (g v).data.count
  children : ∀ i part, (astParts g v)[i]? = some part → ∃ base y, x.children = some base ∧
    m.nodes[base + i]? = some y ∧ y.tree = part.1 ∧ y.asynchronous = part.2 ∧ y.parent = some a
  valid : (g v).Plannable
  reserved : ∀ r ∈ (g v).redirections, ∀ n ∈ r.numbers, n ∈ m.reserved

/-- The node at an address has been planned. -/
def SownAt (g : V → AstNode V) (m : Memory V) (a : ℕ) : Prop := ∃ x v, Sown g m a x v

/-- A step leaves the nodes as they are, but for cursors and for the node it plans, whose
place in the tree stays. -/
structure Moves (planned : Option ℕ) (m m' : Memory V) : Prop where
  kept : ∀ (a : ℕ) (x : PlanNode V), m.nodes[a]? = some x → ∃ x', m'.nodes[a]? = some x' ∧
    x'.tree = x.tree ∧ x'.asynchronous = x.asynchronous ∧ x'.parent = x.parent ∧
      (planned ≠ some a → x'.kind = x.kind ∧ x'.negated = x.negated ∧ x'.count = x.count ∧ x'.children = x.children)
  reserved : m.reserved ⊆ m'.reserved

section Moves

variable {g : V → AstNode V} {m m' : Memory V} {planned : Option ℕ}

theorem SownAt.moves (h : Moves planned m m') (ha : SownAt g m a) (hne : planned ≠ some a) :
    SownAt g m' a := by
  obtain ⟨x, v, hx⟩ := ha
  obtain ⟨x', hx', htree, -, -, hrest⟩ := h.kept a x hx.here
  obtain ⟨hkind, hnegated, hcount, hchildren⟩ := hrest hne
  refine ⟨x', v, hx', htree.trans hx.tree, hkind.trans hx.kind, hnegated.trans hx.negated,
    hcount.trans hx.count, ?_, hx.valid, fun r hr n hn => h.reserved (hx.reserved r hr n hn)⟩
  intro i part hp
  obtain ⟨base, y, hbase, hy, hytree, hasync, hparent⟩ := hx.children i part hp
  obtain ⟨y', hy', htree', hasync', hparent', -⟩ := h.kept _ y hy
  exact ⟨base, y', hchildren.trans hbase, hy', htree'.trans hytree, hasync'.trans hasync, hparent'.trans hparent⟩

theorem Trail.moves (h : Moves planned m m') {start : Option ℕ} {trail : List (ℕ × V)}
    (ht : Trail m.nodes start trail) : Trail m'.nodes start trail := by
  induction ht with
  | root => exact .root
  | @step a x v rest hx htree hlt _ ih =>
    obtain ⟨x', hx', htree', -, hparent, -⟩ := h.kept a x hx
    refine .step hx' (htree'.trans htree) ?_ ?_
    · rw [hparent]
      exact hlt
    · rw [hparent]
      exact ih

/-- Ancestors have lower addresses. -/
theorem Trail.le_of_mem {nodes : List (PlanNode V)} {trail : List (ℕ × V)}
    (h : Trail nodes (some a) trail) {entry : ℕ × V} (hmem : entry ∈ trail) : entry.1 ≤ a := by
  generalize hstart : some a = start at h
  induction h generalizing a with
  | root => cases hmem
  | @step b x v rest hx htree hlt h ih =>
    cases hstart
    rcases mem_cons.mp hmem with rfl | hmem
    · exact Nat.le_refl _
    · cases hparent : x.parent with
      | none =>
        rw [hparent] at h
        cases h
        cases hmem
      | some p => exact (ih hmem hparent.symm).trans (hlt p hparent).le

end Moves

/-- The invariant of the walk; `late` is the node whose turn has come and that has not
been planned yet. -/
structure Preparing (g : V → AstNode V) (root : Option V) (m : Memory V) (late : Option ℕ) : Prop where
  linked : Linked m
  start : ∃ x, m.nodes[0]? = some x ∧ x.tree = root ∧ x.asynchronous = false
  begun : late ≠ some 0 → SownAt g m 0
  started : ∀ (a : ℕ) (x : PlanNode V) (base j : ℕ), m.nodes[a]? = some x → x.children = some base →
    j < x.cursor → late ≠ some (base + j) → SownAt g m (base + j)
  waiting : ∀ (a : ℕ) (x : PlanNode V) (base j : ℕ), m.nodes[a]? = some x → x.children = some base →
    x.cursor ≤ j → j < x.count → ∃ y, m.nodes[base + j]? = some y ∧ y.Fresh
  cursor : ∀ (a : ℕ) (x : PlanNode V), m.nodes[a]? = some x → x.cursor ≤ x.count
  reached : ∀ (a : ℕ) (x : PlanNode V) (v : V), m.nodes[a]? = some x → x.tree = some v → Reachable g root v

/-- The path to the root: its nodes are planned and none comes from the same vertex as
another, and all the children of the nodes off the path have had their turn. -/
structure Along (g : V → AstNode V) (m : Memory V) (start : Option ℕ) (trail : List (ℕ × V)) : Prop where
  path : Trail m.nodes start trail
  sown : ∀ entry ∈ trail, SownAt g m entry.1
  distinct : (trail.map Prod.snd).Nodup
  off : ∀ (a : ℕ) (x : PlanNode V), m.nodes[a]? = some x → a ∉ trail.map Prod.fst → x.cursor = x.count

/-- `plan_prepare` is about to plan a node, whose turn is the last that its parent gave. -/
structure Visiting (g : V → AstNode V) (root : Option V) (m : Memory V) (c : ℕ) (x : PlanNode V)
    (trail : List (ℕ × V)) : Prop where
  preparing : Preparing g root m (some c)
  along : Along g m x.parent trail
  here : m.nodes[c]? = some x
  fresh : x.Fresh
  turn : ∀ p ∈ x.parent, p < c ∧ ∃ y base, m.nodes[p]? = some y ∧ y.children = some base ∧ c < base + y.cursor

/-- `plan_prepare` is at a node that is planned. -/
structure Ascending (g : V → AstNode V) (root : Option V) (m : Memory V) (c : ℕ) (trail : List (ℕ × V)) :
    Prop where
  preparing : Preparing g root m none
  along : Along g m (some c) trail

/-- Why a graph cannot be planned: there is nothing to plan, or what the root leads to has
a null pointer, a cycle, a node that is not well formed, or a number before a redirection
that is not a descriptor. -/
inductive Obstacle (g : V → AstNode V) (root : Option V) : Prop
  | missing (h : root = none)
  | dangling {v : V} (hv : Reachable g root v) {part : Option V × Bool} (hp : part ∈ astParts g v)
      (h : part.1 = none)
  | cyclic {v : V} (hv : Reachable g root v) (h : Relation.TransGen (Edge (astParts g)) v v)
  | malformed {v : V} (hv : Reachable g root v)
      (h : (g v).data.failure ≠ none ∨ (g v).invalidRedirections = true)
  | unrepresentable {v : V} (hv : Reachable g root v) {r : AstRedirection} (hr : r ∈ (g v).redirections)
      {text : Bytes} (ht : r.ioNumber = some text) (h : ∀ number, ¬Denotes text number)

theorem Obstacle.of_not_plannable {g : V → AstNode V} {root : Option V} (hv : Reachable g root v)
    (h : ¬(g v).Plannable) : Obstacle g root := by
  by_contra hnone
  refine h ⟨?_, ?_, ?_⟩
  · by_contra hdata
    exact hnone (.malformed hv (.inl hdata))
  · by_contra hredirections
    exact hnone (.malformed hv (.inr (Bool.eq_true_of_not_eq_false hredirections)))
  · intro r hr text ht
    by_contra hdescriptor
    refine hnone (.unrepresentable hv hr ht fun number hnumber => hdescriptor ?_)
    rw [descriptor_iff.mpr hnumber]
    rfl

/-- Every node describes its node of the graph. -/
structure Complete (g : V → AstNode V) (root : Option V) (m : Memory V) : Prop where
  linked : Linked m
  start : ∃ x, m.nodes[0]? = some x ∧ x.tree = root ∧ x.asynchronous = false
  sown : ∀ a < m.nodes.length, SownAt g m a

section Steps

variable {g : V → AstNode V} {alloc : Allocator} {root : Option V} {m : Memory V} {c : ℕ} {x : PlanNode V}
  {trail : List (ℕ × V)}

/-- The vertex of a child of a planned node is a child in the graph. -/
theorem Preparing.edge {late : Option ℕ} (h : Preparing g root m late) (hx : m.nodes[c]? = some x) {p : ℕ}
    (hp : x.parent = some p) {w : V} (hy : Sown g m p y w) :
    ∃ mark, (x.tree, mark) ∈ astParts g w := by
  have hne : c ≠ 0 := by
    rintro rfl
    obtain ⟨z, hz, hnone⟩ := h.linked.root
    rw [hx] at hz
    cases hz
    rw [hp] at hnone
    cases hnone
  obtain ⟨p', y', base, j, hp', hy', hbase, hj, rfl⟩ := h.linked.placed c x hx hne
  rw [hp] at hp'
  cases hp'
  rw [hy.here] at hy'
  cases hy'
  rw [hy.count] at hj
  have hpart := AstData.parts_getElem? hj
  obtain ⟨base', z, hbase', hz, htree, -, -⟩ := hy.children j _ hpart
  rw [hbase] at hbase'
  cases hbase'
  rw [hx] at hz
  cases hz
  rw [htree]
  exact ⟨_, mem_of_getElem? hpart⟩

/-- The path is a walk down to the node. -/
theorem Preparing.walk {late : Option ℕ} (h : Preparing g root m late) {start : Option ℕ}
    (ht : Trail m.nodes start trail) (hsown : ∀ entry ∈ trail, SownAt g m entry.1)
    (hx : m.nodes[c]? = some x) (hp : x.parent = start) (hv : x.tree = some v) :
    ∀ w ∈ trail.map Prod.snd, Relation.TransGen (Edge (astParts g)) w v := by
  induction ht generalizing c x v with
  | root =>
    intro w hw
    cases hw
  | @step a y u rest hy hu hlt _ ih =>
    obtain ⟨y', u', hsowna⟩ := hsown (a, u) mem_cons_self
    have hsame := hsowna.here
    rw [hy] at hsame
    cases hsame
    have htree := hsowna.tree
    rw [hu] at htree
    cases htree
    obtain ⟨mark, hmem⟩ := h.edge hx hp hsowna
    rw [hv] at hmem
    have hedge : Edge (astParts g) u v := ⟨mark, hmem⟩
    intro w hw
    rcases mem_cons.mp hw with rfl | hw
    · exact .single hedge
    · exact (ih (fun entry hmem => hsown entry (mem_cons_of_mem _ hmem)) hy rfl hu w hw).tail hedge

theorem Along.lt_of_mem (h : Visiting g root m c x trail) {entry : ℕ × V} (hmem : entry ∈ trail) :
    entry.1 < c := by
  have hpath := h.along.path
  cases hparent : x.parent with
  | none =>
    rw [hparent] at hpath
    cases hpath
    cases hmem
  | some p =>
    rw [hparent] at hpath
    exact (hpath.le_of_mem hmem).trans_lt (h.turn p hparent).1

theorem moves_sow (hx : m.nodes[c]? = some x) (v : V) (hv : x.tree = some v) (node : AstNode V) :
    Moves (some c) m (m.sow c x v node) := by
  refine ⟨?_, subset_append_left _ _⟩
  intro a y hy
  by_cases hac : a = c
  · subst hac
    rw [hx] at hy
    cases hy
    exact ⟨_, sow_here hx v node, hv.symm, rfl, rfl, fun hne => absurd rfl hne⟩
  · exact ⟨y, sow_old hy hac v node, rfl, rfl, rfl, fun _ => ⟨rfl, rfl, rfl, rfl⟩⟩

theorem sown_sow (hx : m.nodes[c]? = some x) (hvalid : (g v).Plannable) :
    Sown g (m.sow c x v (g v)) c (x.planted v (g v).data m.nodes.length) v := by
  refine ⟨sow_here hx v (g v), rfl, rfl, rfl, rfl, ?_, hvalid, ?_⟩
  · intro i part hp
    have hi : i < (g v).data.count := by
      rw [← AstData.parts_length]
      exact (List.getElem?_eq_some_iff.mp hp).1
    refine ⟨m.nodes.length, sprout c part, ?_, sow_new hp, rfl, rfl, rfl⟩
    show (if (g v).data.count = 0 then none else some m.nodes.length) = _
    rw [if_neg (by omega)]
  · intro r hr n hn
    exact mem_append_right _ (mem_flatMap.mpr ⟨r, hr, hn⟩)

/-- The children that a planned node has are behind the memory there was. -/
theorem planted_children {data : AstData V} {base base' : ℕ}
    (h : (x.planted v data base).children = some base') : base' = base := by
  unfold PlanNode.planted at h
  dsimp only at h
  split at h
  · cases h
  · exact (Option.some.inj h).symm

/-- **A node is planned when its turn has come.** -/
theorem Visiting.sow (h : Visiting g root m c x trail) (hv : x.tree = some v)
    (hnot : v ∉ trail.map Prod.snd) (hvalid : (g v).Plannable) :
    Ascending g root (m.sow c x v (g v)) c ((c, v) :: trail) := by
  have hmoves := moves_sow h.here v hv (g v)
  have hsown := sown_sow h.here hvalid
  have hkeeps : ∀ {a : ℕ}, a ≠ c → SownAt g m a → SownAt g (m.sow c x v (g v)) a :=
    fun hne ha => ha.moves hmoves fun heq => hne (Option.some.inj heq).symm
  refine ⟨⟨h.preparing.linked.sow h.here h.fresh v (g v), ?_, ?_, ?_, ?_, ?_, ?_⟩, ⟨?_, ?_, ?_, ?_⟩⟩
  · obtain ⟨y, hy, htree, hasync⟩ := h.preparing.start
    obtain ⟨y', hy', htree', hasync', -⟩ := hmoves.kept 0 y hy
    exact ⟨y', hy', htree'.trans htree, hasync'.trans hasync⟩
  · intro _
    by_cases hc : c = 0
    · subst hc
      exact ⟨_, _, hsown⟩
    · exact hkeeps (Ne.symm hc) (h.preparing.begun fun heq => hc (Option.some.inj heq))
  · intro a y base j hy hbase hj _
    rcases sow_cases h.here hy with ⟨rfl, rfl⟩ | ⟨-, hy⟩ | ⟨i, part, -, -, rfl⟩
    · rw [show (x.planted v (g v).data m.nodes.length).cursor = x.cursor from rfl, h.fresh.cursor] at hj
      exact absurd hj (Nat.not_lt_zero j)
    · by_cases hc : c = base + j
      · subst hc
        exact ⟨_, _, hsown⟩
      · exact hkeeps (Ne.symm hc)
          (h.preparing.started a y base j hy hbase hj fun heq => hc (Option.some.inj heq))
    · cases hbase
  · intro a y base j hy hbase hj hlt
    rcases sow_cases h.here hy with ⟨rfl, rfl⟩ | ⟨-, hy⟩ | ⟨i, part, -, -, rfl⟩
    · cases planted_children hbase
      exact ⟨_, sow_new (AstData.parts_getElem? hlt), sprout_fresh _ _⟩
    · obtain ⟨z, hz, hfresh⟩ := h.preparing.waiting a y base j hy hbase hj hlt
      refine ⟨z, sow_old hz ?_ v (g v), hfresh⟩
      -- The node that is planned waits no longer.
      intro hc
      obtain ⟨-, -, hall⟩ := h.preparing.linked.branch a y base hy hbase
      obtain ⟨z', hz', hparent⟩ := hall j hlt
      rw [hc, h.here] at hz'
      cases hz'
      obtain ⟨-, y', base', hy', hbase', hturn⟩ := h.turn a hparent
      rw [hy] at hy'
      cases hy'
      rw [hbase] at hbase'
      cases hbase'
      omega
    · cases hbase
  · intro a y hy
    rcases sow_cases h.here hy with ⟨rfl, rfl⟩ | ⟨-, hy⟩ | ⟨i, part, -, -, rfl⟩
    · rw [show (x.planted v (g v).data m.nodes.length).cursor = x.cursor from rfl, h.fresh.cursor]
      exact Nat.zero_le _
    · exact h.preparing.cursor a y hy
    · exact Nat.le_refl _
  · intro a y w hy hw
    rcases sow_cases h.here hy with ⟨rfl, rfl⟩ | ⟨-, hy⟩ | ⟨i, part, -, hp, rfl⟩
    · cases hw
      exact h.preparing.reached a x v h.here hv
    · exact h.preparing.reached a y w hy hw
    · obtain ⟨r, hr, hreach⟩ := h.preparing.reached c x v h.here hv
      refine ⟨r, hr, hreach.tail ⟨part.2, ?_⟩⟩
      have hmem := mem_of_getElem? hp
      have htree : part.1 = some w := hw
      rw [← htree]
      exact hmem
  · refine .step hsown.here rfl ?_ ?_
    · exact fun p hp => (h.turn p hp).1
    · exact Trail.moves hmoves h.along.path
  · intro entry hmem
    rcases mem_cons.mp hmem with rfl | hmem
    · exact ⟨_, _, hsown⟩
    · exact hkeeps (Along.lt_of_mem h hmem).ne (h.along.sown entry hmem)
  · exact nodup_cons.mpr ⟨hnot, h.along.distinct⟩
  · intro a y hy hoff
    rw [map_cons, mem_cons, not_or] at hoff
    rcases sow_cases h.here hy with ⟨rfl, rfl⟩ | ⟨-, hy⟩ | ⟨i, part, -, -, rfl⟩
    · exact absurd rfl hoff.1
    · exact h.along.off a y hy hoff.2
    · rfl

/-- A failure of `plan_node` has a reason in the graph or in the memory. -/
theorem Visiting.fails (h : Visiting g root m c x trail) {failure : Failure} {m' : Memory V} [DecidableEq V]
    (hp : Planned g alloc c x trail m (some failure) m') : Linked m' ∧ (Obstacle g root ∨ ¬alloc.Grants) := by
  cases hp with
  | missing hnone =>
    refine ⟨h.preparing.linked, ?_⟩
    cases hparent : x.parent with
    | none =>
      -- Only the root has no parent.
      have hc : c = 0 := by
        by_contra hne
        obtain ⟨p, y, base, j, hp, -⟩ := h.preparing.linked.placed c x h.here hne
        rw [hparent] at hp
        cases hp
      obtain ⟨y, hy, htree, -⟩ := h.preparing.start
      rw [← hc, h.here] at hy
      cases hy
      exact .inl (.missing (htree.symm.trans hnone))
    | some p =>
      have hpath := h.along.path
      rw [hparent] at hpath
      cases hpath with
      | @step _ y w rest hy hw hlt hrest =>
        obtain ⟨y', w', hsown⟩ := h.along.sown (p, w) mem_cons_self
        obtain ⟨mark, hmem⟩ := h.preparing.edge h.here hparent hsown
        exact .inl (.dangling (h.preparing.reached p y' w' hsown.here hsown.tree) hmem hnone)
  | @cyclic v hv hmem =>
    refine ⟨h.preparing.linked, .inl (.cyclic (h.preparing.reached c x v h.here hv) ?_)⟩
    exact h.preparing.walk h.along.path h.along.sown h.here rfl hv v hmem
  | @refused v hv hwhy reserved =>
    refine ⟨?_, ?_⟩
    · have hlinks : (x.named v (g v).data).links = x.links := rfl
      exact (h.preparing.linked.put h.here hlinks).congr rfl rfl rfl
    · exact hwhy.imp_left (Obstacle.of_not_plannable (h.preparing.reached c x v h.here hv))

/-- The current node and the rest of the path. -/
theorem Ascending.split (h : Ascending g root m c trail) (hx : m.nodes[c]? = some x) :
    ∃ v rest, trail = (c, v) :: rest ∧ (∀ p ∈ x.parent, p < c) ∧ Trail m.nodes x.parent rest := by
  have hpath := h.along.path
  cases hpath with
  | @step _ y v rest hy hv hlt hrest =>
    rw [hx] at hy
    cases hy
    exact ⟨v, rest, rfl, hlt, hrest⟩

/-- A node whose children have had their turn is left. -/
theorem Ascending.up (h : Ascending g root m c trail) (hx : m.nodes[c]? = some x) (hdone : x.cursor = x.count)
    {p : ℕ} (hp : x.parent = some p) : ∃ v rest, trail = (c, v) :: rest ∧ Ascending g root m p rest := by
  obtain ⟨v, rest, rfl, -, hrest⟩ := h.split hx
  rw [hp] at hrest
  refine ⟨v, rest, rfl, h.preparing, hrest, ?_, (nodup_cons.mp h.along.distinct).2, ?_⟩
  · exact fun entry hmem => h.along.sown entry (mem_cons_of_mem _ hmem)
  · intro a y hy hoff
    by_cases hac : a = c
    · subst hac
      rw [hx] at hy
      cases hy
      exact hdone
    · refine h.along.off a y hy ?_
      rw [map_cons, mem_cons, not_or]
      exact ⟨hac, hoff⟩

/-- When the root is left, all the nodes are planned. -/
theorem Ascending.complete (h : Ascending g root m c trail) (hx : m.nodes[c]? = some x)
    (hdone : x.cursor = x.count) (hp : x.parent = none) : Complete g root m := by
  obtain ⟨v, rest, rfl, -, hrest⟩ := h.split hx
  rw [hp] at hrest
  cases hrest
  have hall : ∀ (a : ℕ) (y : PlanNode V), m.nodes[a]? = some y → y.cursor = y.count := by
    intro a y hy
    by_cases hac : a = c
    · subst hac
      rw [hx] at hy
      cases hy
      exact hdone
    · refine h.along.off a y hy ?_
      rw [map_cons, map_nil, mem_singleton]
      exact hac
  refine ⟨h.preparing.linked, h.preparing.start, fun a hlt => ?_⟩
  by_cases hzero : a = 0
  · rw [hzero]
    exact h.preparing.begun (Option.some_ne_none 0).symm
  · obtain ⟨p, y, base, j, -, hy, hbase, hj, rfl⟩ :=
      h.preparing.linked.placed a _ (getElem?_eq_getElem hlt) hzero
    exact h.preparing.started p y base j hy hbase ((hall p y hy).symm ▸ hj) (Option.some_ne_none _).symm

theorem moves_cursor (hx : m.nodes[c]? = some x) (cursor : ℕ) :
    Moves none m (m.put c { x with cursor }) := by
  refine ⟨?_, List.Subset.refl _⟩
  intro a y hy
  have hlt := (List.getElem?_eq_some_iff.mp hx).1
  by_cases hac : a = c
  · subst hac
    rw [hx] at hy
    cases hy
    exact ⟨_, List.getElem?_set_self hlt, rfl, rfl, rfl, fun _ => ⟨rfl, rfl, rfl, rfl⟩⟩
  · refine ⟨y, ?_, rfl, rfl, rfl, fun _ => ⟨rfl, rfl, rfl, rfl⟩⟩
    show (m.nodes.set c _)[a]? = some y
    rw [List.getElem?_set_ne (Ne.symm hac), hy]

theorem put_cases {x' : PlanNode V} (h : (m.put c x').nodes[a]? = some y) :
    a = c ∧ y = x' ∨ a ≠ c ∧ m.nodes[a]? = some y := by
  have h' : (m.nodes.set c x')[a]? = some y := h
  by_cases hac : a = c
  · subst hac
    rw [getElem?_set] at h'
    split at h'
    · split at h'
      · exact .inl ⟨rfl, (Option.some.inj h').symm⟩
      · cases h'
    · next hne => exact absurd rfl hne
  · rw [getElem?_set_ne (Ne.symm hac)] at h'
    exact .inr ⟨hac, h'⟩

/-- The next child has its turn. -/
theorem Ascending.down (h : Ascending g root m c trail) (hx : m.nodes[c]? = some x) (hne : x.cursor ≠ x.count) :
    ∃ base y, x.children = some base ∧ y.parent = some c ∧
      Visiting g root (m.put c { x with cursor := x.cursor + 1 }) (base + x.cursor) y trail := by
  have hlt : x.cursor < x.count := Nat.lt_of_le_of_ne (h.preparing.cursor c x hx) hne
  obtain ⟨base, hbase⟩ : ∃ base, x.children = some base := by
    refine Option.ne_none_iff_exists'.mp fun hnone => ?_
    have hzero := h.preparing.linked.leaf c x hx hnone
    omega
  obtain ⟨hbelow, -, hall⟩ := h.preparing.linked.branch c x base hx hbase
  obtain ⟨y, hy, hparent⟩ := hall x.cursor hlt
  obtain ⟨y', hy', hfresh⟩ := h.preparing.waiting c x base x.cursor hx hbase (Nat.le_refl _) hlt
  rw [hy] at hy'
  cases hy'
  have hmoves := moves_cursor hx (x.cursor + 1)
  have hkeeps : ∀ {a : ℕ}, SownAt g m a → SownAt g (m.put c { x with cursor := x.cursor + 1 }) a :=
    fun ha => ha.moves hmoves (Option.some_ne_none _).symm
  -- A node that waits is not the current one, which has children.
  have hwaits : ∀ {a : ℕ} {z : PlanNode V}, m.nodes[a]? = some z → z.Fresh →
      (m.put c { x with cursor := x.cursor + 1 }).nodes[a]? = some z := by
    intro a z hz hfresh
    have hac : a ≠ c := by
      rintro rfl
      rw [hx] at hz
      cases hz
      have hzero := hfresh.count
      omega
    show (m.nodes.set c _)[a]? = some z
    rw [getElem?_set_ne (Ne.symm hac), hz]
  refine ⟨base, y, hbase, hparent, ⟨h.preparing.linked.put hx rfl, ?_, ?_, ?_, ?_, ?_, ?_⟩, ⟨?_, ?_, ?_, ?_⟩,
    hwaits hy hfresh, hfresh, ?_⟩
  · obtain ⟨z, hz, htree, hasync⟩ := h.preparing.start
    obtain ⟨z', hz', htree', hasync', -⟩ := hmoves.kept 0 z hz
    exact ⟨z', hz', htree'.trans htree, hasync'.trans hasync⟩
  · exact fun _ => hkeeps (h.preparing.begun (Option.some_ne_none 0).symm)
  · intro a z base' j hz hbase' hj hlate
    rcases put_cases hz with ⟨rfl, rfl⟩ | ⟨-, hz⟩
    · rw [show ({ x with cursor := x.cursor + 1 } : PlanNode V).children = x.children from rfl, hbase] at hbase'
      cases hbase'
      have hj' : j < x.cursor := by
        refine Nat.lt_of_le_of_ne (Nat.le_of_lt_succ hj) ?_
        rintro rfl
        exact hlate rfl
      exact hkeeps (h.preparing.started a x base j hx hbase hj' (Option.some_ne_none _).symm)
    · exact hkeeps (h.preparing.started a z base' j hz hbase' hj (Option.some_ne_none _).symm)
  · intro a z base' j hz hbase' hj hcount
    rcases put_cases hz with ⟨rfl, rfl⟩ | ⟨-, hz⟩
    · obtain ⟨z', hz', hfresh'⟩ :=
        h.preparing.waiting a x base' j hx hbase' ((Nat.le_succ _).trans hj) hcount
      exact ⟨z', hwaits hz' hfresh', hfresh'⟩
    · obtain ⟨z', hz', hfresh'⟩ := h.preparing.waiting a z base' j hz hbase' hj hcount
      exact ⟨z', hwaits hz' hfresh', hfresh'⟩
  · intro a z hz
    rcases put_cases hz with ⟨rfl, rfl⟩ | ⟨-, hz⟩
    · exact hlt
    · exact h.preparing.cursor a z hz
  · intro a z w hz hw
    rcases put_cases hz with ⟨rfl, rfl⟩ | ⟨-, hz⟩
    · exact h.preparing.reached a x w hx hw
    · exact h.preparing.reached a z w hz hw
  · rw [hparent]
    exact Trail.moves hmoves h.along.path
  · exact fun entry hmem => hkeeps (h.along.sown entry hmem)
  · exact h.along.distinct
  · intro a z hz hoff
    rcases put_cases hz with ⟨rfl, rfl⟩ | ⟨-, hz⟩
    · obtain ⟨v, rest, rfl, -, -⟩ := h.split hx
      exact absurd mem_cons_self hoff
    · exact h.along.off a z hz hoff
  · intro p hp
    rw [hparent] at hp
    cases hp
    refine ⟨hbelow.trans_le (Nat.le_add_right _ _), _, base,
      List.getElem?_set_self (List.getElem?_eq_some_iff.mp hx).1, hbase, ?_⟩
    exact Nat.add_lt_add_left (Nat.lt_succ_self _) base

end Steps

/-! ### The walk ends -/

/-- The empty plan. -/
theorem visiting_start (g : V → AstNode V) (root : Option V) : Visiting g root { nodes := [{ tree := root }] } 0 { tree := root } [] := by
  have honly : ∀ (a : ℕ) (x : PlanNode V), [({ tree := root } : PlanNode V)][a]? = some x →
      a = 0 ∧ x = { tree := root } := by
    intro a x hx
    cases a with
    | zero => exact ⟨rfl, (Option.some.inj hx).symm⟩
    | succ a => cases hx
  refine ⟨⟨⟨⟨_, rfl, rfl⟩, ?_, ?_, ?_, List.Perm.refl _, ?_, List.Pairwise.nil, rfl⟩, ⟨_, rfl, rfl, rfl⟩,
    fun hne => absurd rfl hne, ?_, ?_, ?_, ?_⟩, ⟨.root, ?_, nodup_nil, ?_⟩, rfl, ⟨rfl, rfl, rfl, rfl⟩, ?_⟩
  · intro a x hx _
    rw [(honly a x hx).2]
  · intro a x base hx hbase
    rw [(honly a x hx).2] at hbase
    cases hbase
  · intro a x hx hne
    exact absurd (honly a x hx).1 hne
  · intro array hmem
    cases hmem
  · intro a x base j hx hbase
    rw [(honly a x hx).2] at hbase
    cases hbase
  · intro a x base j hx hbase
    rw [(honly a x hx).2] at hbase
    cases hbase
  · intro a x hx
    rw [(honly a x hx).2]
  · intro a x v hx hv
    rw [(honly a x hx).2] at hv
    exact ⟨v, hv, .refl⟩
  · intro entry hmem
    cases hmem
  · intro a x hx _
    rw [(honly a x hx).2]
  · intro p hp
    cases hp

/-- More fuel does not change the outcome. -/
theorem prepareLoop_mono [DecidableEq V] {g : V → AstNode V} {alloc : Allocator} {phase : Phase} {m : Memory V} {fuel more : ℕ} {outcome : Option Failure × Memory V}
    (h : prepareLoop g alloc fuel phase m = some outcome) (hle : fuel ≤ more) :
    prepareLoop g alloc more phase m = some outcome := by
  induction fuel generalizing phase m more with
  | zero => cases h
  | succ fuel ih =>
    cases more with
    | zero => exact absurd hle (Nat.not_succ_le_zero _)
    | succ more =>
      rw [prepareLoop] at h ⊢
      split at h
      · cases h
      · exact h
      · exact ih h (Nat.le_of_succ_le_succ hle)

/-- The children of a node that have not had their turn. -/
def pending (nodes : List (PlanNode V)) (a : ℕ) : ℕ := (nodes[a]?.map fun x => x.count - x.cursor).getD 0

/-- How much is left to plan below a path, when there are `size` vertices with at most
`width` children each. -/
def cost (nodes : List (PlanNode V)) (width size : ℕ) : List (ℕ × V) → ℕ
  | [] => 0
  | entry :: rest =>
    pending nodes entry.1 * weight width (size - (rest.length + 1)) + cost nodes width size rest

theorem cost_congr {nodes nodes' : List (PlanNode V)} {width size : ℕ} {trail : List (ℕ × V)}
    (h : ∀ entry ∈ trail, nodes'[entry.1]? = nodes[entry.1]?) :
    cost nodes' width size trail = cost nodes width size trail := by
  induction trail with
  | nil => rfl
  | cons entry rest ih =>
    rw [cost, cost, ih fun e hmem => h e (mem_cons_of_mem _ hmem), pending, pending,
      h entry mem_cons_self]

/-- What the walk ends with. -/
def Ends (g : V → AstNode V) (alloc : Allocator) (root : Option V) : Option Failure → Memory V → Prop
  | none, m => Complete g root m
  | some _, m => Linked m ∧ (Obstacle g root ∨ ¬alloc.Grants)

section Termination

variable [Fintype V] {g : V → AstNode V} {alloc : Allocator} {root : Option V}

/-- A path that takes no vertex twice is no longer than there are vertices. -/
theorem Visiting.room {m : Memory V} {c : ℕ} {x : PlanNode V} {trail : List (ℕ × V)}
    (h : Visiting g root m c x trail) (hnot : v ∉ trail.map Prod.snd) :
    trail.length + 1 ≤ Fintype.card V := by
  have hnodup : (v :: trail.map Prod.snd).Nodup := nodup_cons.mpr ⟨hnot, h.along.distinct⟩
  have hle := hnodup.length_le_card
  rwa [length_cons, length_map] at hle

variable (g) in
/-- The most children that a vertex has. -/
def width : ℕ := Finset.univ.sup fun v => (g v).data.count

variable (g root) in
/-- The invariant by phase, with what is left to do and the length of the way up. -/
inductive Walking : Phase → Memory V → ℕ → ℕ → Prop
  | visit {m : Memory V} {c : ℕ} {x : PlanNode V} {trail : List (ℕ × V)} (h : Visiting g root m c x trail) :
      Walking (.visit c) m (weight (width g) (Fintype.card V - trail.length) +
        cost m.nodes (width g) (Fintype.card V) trail) 0
  | ascend {m : Memory V} {c : ℕ} {trail : List (ℕ × V)} (h : Ascending g root m c trail) :
      Walking (.ascend c) m (cost m.nodes (width g) (Fintype.card V) trail) trail.length

/-- What a step of `plan_prepare` from a phase with so much left leads to. -/
inductive Steps (g : V → AstNode V) (alloc : Allocator) (root : Option V) (left up : ℕ) : Progress V → Prop
  | again {phase : Phase} {m : Memory V} {left' up' : ℕ} (h : Walking g root phase m left' up')
      (hlt : left' < left ∨ left' = left ∧ up' < up) : Steps g alloc root left up (.again phase m)
  | finished {failure : Option Failure} {m : Memory V} (h : Ends g alloc root failure m) :
      Steps g alloc root left up (.finished failure m)

variable [DecidableEq V]

variable (alloc) in
/-- **A step of `plan_prepare`** keeps the invariant with less left to do, or ends the
walk. -/
theorem prepareStep_keeps {phase : Phase} {m : Memory V} {left up : ℕ} (h : Walking g root phase m left up) :
    ∃ progress, prepareStep g alloc m phase = some progress ∧ Steps g alloc root left up progress := by
  cases h with
  | @visit _ c x trail h =>
    have hlen : trail.length ≤ m.nodes.length := by
      have hpath := h.along.path
      cases hparent : x.parent with
      | none =>
        rw [hparent] at hpath
        cases hpath
        exact Nat.zero_le _
      | some p =>
        rw [hparent] at hpath
        have hle := hpath.length_le
        have hlt := (h.turn p hparent).1
        have hin := (List.getElem?_eq_some_iff.mp h.here).1
        omega
    obtain ⟨failure, m', heq, hplanned⟩ := planNode_spec g alloc h.here h.fresh h.along.path hlen
    unfold prepareStep
    dsimp only
    rw [heq]
    cases failure with
    | some failure => exact ⟨_, rfl, .finished (h.fails hplanned)⟩
    | none =>
      refine ⟨_, rfl, ?_⟩
      cases hplanned with
      | @sown v hv hnot hvalid =>
        refine .again (.ascend (h.sow hv hnot hvalid)) (.inl ?_)
        have hroom := h.room hnot
        have hsame : cost (m.sow c x v (g v)).nodes (width g) (Fintype.card V) trail =
            cost m.nodes (width g) (Fintype.card V) trail := by
          refine cost_congr fun entry hmem => ?_
          obtain ⟨y, w, hsown⟩ := h.along.sown entry hmem
          rw [sow_old hsown.here (Along.lt_of_mem h hmem).ne v (g v), hsown.here]
        have hpending : pending (m.sow c x v (g v)).nodes c = (g v).data.count := by
          unfold pending
          rw [sow_here h.here]
          show (g v).data.count - x.cursor = _
          rw [h.fresh.cursor, Nat.sub_zero]
        have hwidth : (g v).data.count ≤ width g :=
          Finset.le_sup (f := fun v => (g v).data.count) (Finset.mem_univ v)
        have hweight := mul_weight_lt hwidth (Fintype.card V - (trail.length + 1))
        rw [show Fintype.card V - (trail.length + 1) + 1 = Fintype.card V - trail.length by omega] at hweight
        rw [cost, hsame, hpending]
        exact Nat.add_lt_add_right hweight _
  | @ascend _ c trail h =>
    have hpath := h.along.path
    cases hpath with
    | @step _ x v rest hx hv hlt hrest =>
      unfold prepareStep
      dsimp only
      rw [hx]
      dsimp only
      split
      · next hdone =>
        cases hparent : x.parent with
        | none => exact ⟨_, rfl, .finished (h.complete hx hdone hparent)⟩
        | some p =>
          obtain ⟨v', rest', heq, hup⟩ := h.up hx hdone hparent
          cases heq
          refine ⟨_, rfl, .again (.ascend hup) (.inr ⟨?_, Nat.lt_succ_self _⟩)⟩
          have hpending : pending m.nodes c = 0 := by
            unfold pending
            rw [hx]
            show x.count - x.cursor = 0
            omega
          rw [cost, hpending, Nat.zero_mul, Nat.zero_add]
      · next hne =>
        obtain ⟨base, y, hbase, hparent, hvisit⟩ := h.down hx hne
        split
        · next hnone =>
          rw [hbase] at hnone
          cases hnone
        next base' hbase' =>
        rw [hbase] at hbase'
        cases hbase'
        refine ⟨_, rfl, .again (.visit hvisit) (.inr ⟨?_, Nat.succ_pos _⟩)⟩
        have hcursor := h.preparing.cursor c x hx
        have hlength := (List.getElem?_eq_some_iff.mp hx).1
        have hsame : cost (m.put c { x with cursor := x.cursor + 1 }).nodes (width g) (Fintype.card V) rest =
            cost m.nodes (width g) (Fintype.card V) rest := by
          refine cost_congr fun entry hmem => ?_
          have hne : entry.1 ≠ c := by
            cases hup : x.parent with
            | none =>
              rw [hup] at hrest
              cases hrest
              cases hmem
            | some p =>
              rw [hup] at hrest
              exact ((hrest.le_of_mem hmem).trans_lt (hlt p hup)).ne
          exact getElem?_set_ne hne.symm
        have hpending : pending (m.put c { x with cursor := x.cursor + 1 }).nodes c + 1 = pending m.nodes c := by
          unfold pending
          rw [hx, show (m.put c { x with cursor := x.cursor + 1 }).nodes[c]? = _ from getElem?_set_self hlength]
          show x.count - (x.cursor + 1) + 1 = x.count - x.cursor
          omega
        rw [cost, cost, hsame, ← hpending, length_cons, Nat.succ_mul]
        dsimp only
        omega

variable (alloc) in
/-- The walk ends, whatever is left to do. -/
theorem prepareLoop_ends {phase : Phase} {m : Memory V} {left up : ℕ} (h : Walking g root phase m left up) :
    ∃ fuel failure m', prepareLoop g alloc fuel phase m = some (failure, m') ∧ Ends g alloc root failure m' := by
  induction left using Nat.strong_induction_on generalizing phase m up with
  | _ left ihleft =>
    induction up using Nat.strong_induction_on generalizing phase m with
    | _ up ihup =>
      obtain ⟨progress, hstep, hsteps⟩ := prepareStep_keeps alloc h
      cases hsteps with
      | @finished failure m' hends =>
        refine ⟨1, failure, m', ?_, hends⟩
        rw [prepareLoop, hstep]
      | @again phase' m' left' up' hwalking hlt =>
        have hnext : ∃ fuel failure m'', prepareLoop g alloc fuel phase' m' = some (failure, m'') ∧
            Ends g alloc root failure m'' := by
          rcases hlt with hlt | ⟨rfl, hlt⟩
          · exact ihleft left' hlt hwalking
          · exact ihup up' hlt hwalking
        obtain ⟨fuel, failure, m'', hloop, hends⟩ := hnext
        refine ⟨fuel + 1, failure, m'', ?_, hends⟩
        rw [prepareLoop, hstep]
        exact hloop

/-- **`plan_prepare` ends** with a complete plan, or at an obstacle. -/
theorem planPrepare_ends (g : V → AstNode V) (alloc : Allocator) (root : Option V) :
    ∃ fuel failure m, (∀ more, fuel ≤ more → planPrepare g alloc more root = some (failure, m)) ∧
      Ends g alloc root failure m := by
  obtain ⟨fuel, failure, m, hloop, hends⟩ :=
    prepareLoop_ends alloc (.visit (visiting_start g root))
  exact ⟨fuel, failure, m, fun more hle => prepareLoop_mono hloop hle, hends⟩

end Termination

end CShell.Execute
