import CShell.Execute.Preparing

/-!
# Plans from beginning to end

A complete plan reads as the unfolding of its graph: the same vertices in the same order,
each with its kind, its negation and its mark.  So no cycle can be reached when there is
one, and everything that is written in a redirection of the graph has been reserved.

`plan_destroy` walks down the last child of every node and counts the children off.  It
needs the links only, which hold wherever `plan_prepare` stopped.

## Main definitions

* `Reads g nodes a t` — the plan at an address is a tree.
* `Destroying` — the invariant of `plan_destroy`.

## Main results

* `Complete.unfolds` — a complete plan is the unfolding of the graph.
* `planDestroy_ends` — every array that was allocated is freed once.
* `planPrepare_planDestroy` — **what becomes of a plan.**

## References

`src/execute.c` (`plan_prepare`, `plan_destroy`).
-/

namespace CShell.Execute

open Unfolding Relation List

variable {V : Type} {g : V → AstNode V} {root : Option V} {m m₀ : Memory V}

/-! ### Complete plans -/

/-- The plan at an address is a tree of vertices: each of its nodes has the kind and the
negation of its vertex, and its own mark. -/
inductive Reads (g : V → AstNode V) (nodes : List (PlanNode V)) : ℕ → Rose V Bool → Prop
  | node {a base : ℕ} {x : PlanNode V} {v : V} {ts : List (Rose V Bool)} (hx : nodes[a]? = some x)
      (htree : x.tree = some v) (hkind : x.kind = (g v).data.kind) (hnegated : x.negated = (g v).data.negated)
      (hcount : x.count = ts.length) (hchildren : ts ≠ [] → x.children = some base)
      (h : ∀ (i : ℕ) (t : Rose V Bool), ts[i]? = some t → Reads g nodes (base + i) t) :
      Reads g nodes a (.node v x.asynchronous ts)

/-- What there is at every index is there as a list. -/
theorem exists_list {α : Type*} {P : ℕ → α → Prop} {n : ℕ} (h : ∀ i < n, ∃ t, P i t) :
    ∃ ts : List α, ts.length = n ∧ ∀ i t, ts[i]? = some t → P i t := by
  induction n with
  | zero =>
    refine ⟨[], rfl, fun i t hi => ?_⟩
    cases hi
  | succ n ih =>
    obtain ⟨ts, hlen, hts⟩ := ih fun i hi => h i (Nat.lt_succ_of_lt hi)
    obtain ⟨t, ht⟩ := h n (Nat.lt_succ_self n)
    refine ⟨ts ++ [t], by rw [length_append, hlen, length_singleton], fun i t' hi => ?_⟩
    rcases Nat.lt_or_ge i ts.length with hlt | hge
    · rw [getElem?_append_left hlt] at hi
      exact hts i t' hi
    · rw [getElem?_append_right hge] at hi
      have hlast : i = n := by
        have hin := (List.getElem?_eq_some_iff.mp hi).1
        rw [length_singleton] at hin
        omega
      rw [hlast, hlen, Nat.sub_self] at hi
      cases hi
      rw [hlast]
      exact ht

namespace Complete

/-- The plan at an address is the unfolding at its vertex. -/
theorem reads (h : Complete g root m) {a : ℕ} {x : PlanNode V} {v : V} (hx : Sown g m a x v) :
    ∃ t, Unfolds (astParts g) v x.asynchronous t ∧ Reads g m.nodes a t := by
  -- The children are at higher addresses.
  induction hsize : m.nodes.length - a using Nat.strong_induction_on generalizing a x v with
  | _ size ih =>
    have hin := (List.getElem?_eq_some_iff.mp hx.here).1
    have hchild : ∀ i < (g v).data.count, ∃ t base y w, x.children = some base ∧
        m.nodes[base + i]? = some y ∧ (astParts g v)[i]? = some (some w, y.asynchronous) ∧
        Unfolds (astParts g) w y.asynchronous t ∧ Reads g m.nodes (base + i) t := by
      intro i hi
      have hpart := AstData.parts_getElem? hi
      obtain ⟨base, y, hbase, hy, htree, hasync, -⟩ := hx.children i _ hpart
      have hbelow := (h.linked.branch a x base hx.here hbase).1
      have hlt := (List.getElem?_eq_some_iff.mp hy).1
      obtain ⟨y', w, hsown⟩ := h.sown (base + i) hlt
      have hsame := hsown.here
      rw [hy] at hsame
      cases hsame
      obtain ⟨t, hunfolds, hreads⟩ := ih (m.nodes.length - (base + i)) (by omega) hsown rfl
      refine ⟨t, base, y, w, hbase, hy, ?_, hunfolds, hreads⟩
      rw [← hsown.tree, htree, hasync]
      exact hpart
    obtain ⟨ts, hlen, hts⟩ := exists_list hchild
    have hlength : ts.length = (astParts g v).length := hlen.trans (AstData.parts_length _).symm
    have hat : ∀ {i : ℕ}, i < (astParts g v).length → ∃ t, ts[i]? = some t := fun hi =>
      ⟨_, getElem?_eq_getElem (hlength ▸ hi)⟩
    refine ⟨.node v x.asynchronous ts, .node ?_ hlength ?_, ?_⟩
    · intro part hmem
      obtain ⟨i, hi⟩ := mem_iff_getElem?.mp hmem
      obtain ⟨t, ht⟩ := hat (List.getElem?_eq_some_iff.mp hi).1
      obtain ⟨base, y, w, -, -, hpart, -, -⟩ := hts i t ht
      rw [hi] at hpart
      cases hpart
      exact Option.some_ne_none w
    · intro i w mark t hi ht
      obtain ⟨base, y, w', -, -, hpart, hunfolds, -⟩ := hts i t ht
      rw [hi] at hpart
      cases hpart
      exact hunfolds
    · cases hbase : x.children with
      | none =>
        have hzero := h.linked.leaf a x hx.here hbase
        have hnil : ts = [] := eq_nil_of_length_eq_zero (hlen.trans (hx.count.symm.trans hzero))
        subst hnil
        refine @Reads.node V g m.nodes a 0 x v [] hx.here hx.tree hx.kind hx.negated hzero
          (fun hne => absurd rfl hne) ?_
        intro i t hi
        cases hi
      | some base =>
        refine .node hx.here hx.tree hx.kind hx.negated (hx.count.trans hlen.symm) (fun _ => hbase) ?_
        intro i t hi
        obtain ⟨base', y, w, hbase', -, -, -, hreads⟩ := hts i t hi
        rw [hbase] at hbase'
        cases hbase'
        exact hreads

/-- **A complete plan is the unfolding of the graph.** -/
theorem unfolds (h : Complete g root m) :
    ∃ r t, root = some r ∧ Unfolds (astParts g) r false t ∧ Reads g m.nodes 0 t := by
  obtain ⟨x, hx, htree, hasync⟩ := h.start
  obtain ⟨x', r, hsown⟩ := h.sown 0 (List.getElem?_eq_some_iff.mp hx).1
  have hsame := hsown.here
  rw [hx] at hsame
  cases hsame
  obtain ⟨t, hunfolds, hreads⟩ := h.reads hsown
  exact ⟨r, t, htree.symm.trans hsown.tree, hasync ▸ hunfolds, hreads⟩

/-- Whatever the root leads to has been planned. -/
theorem planned (h : Complete g root m) {v : V} (hv : Reachable g root v) : ∃ a x, Sown g m a x v := by
  obtain ⟨r, rfl, hreach⟩ := hv
  induction hreach with
  | refl =>
    obtain ⟨x, hx, htree, -⟩ := h.start
    obtain ⟨x', r', hsown⟩ := h.sown 0 (List.getElem?_eq_some_iff.mp hx).1
    have hsame := hsown.here
    rw [hx] at hsame
    cases hsame
    have hroot := hsown.tree
    rw [htree] at hroot
    cases hroot
    exact ⟨0, x, hsown⟩
  | @tail v w _ hedge ih =>
    obtain ⟨a, x, hsown⟩ := ih
    obtain ⟨mark, hmem⟩ := hedge
    obtain ⟨i, hi⟩ := mem_iff_getElem?.mp hmem
    obtain ⟨base, y, -, hy, htree, -, -⟩ := hsown.children i _ hi
    obtain ⟨y', w', hsown'⟩ := h.sown (base + i) (List.getElem?_eq_some_iff.mp hy).1
    have hsame := hsown'.here
    rw [hy] at hsame
    cases hsame
    have hw := hsown'.tree
    rw [htree] at hw
    cases hw
    exact ⟨base + i, y, hsown'⟩

/-- Nothing was in the way of a complete plan. -/
theorem clear (h : Complete g root m) : ¬Obstacle g root := by
  obtain ⟨r, t, hroot, hunfolds, -⟩ := h.unfolds
  intro hobstacle
  cases hobstacle with
  | missing hnone =>
    rw [hroot] at hnone
    cases hnone
  | @dangling v hv part hp hnone =>
    obtain ⟨a, x, hsown⟩ := h.planned hv
    obtain ⟨i, hi⟩ := mem_iff_getElem?.mp hp
    obtain ⟨base, y, -, hy, htree, -, -⟩ := hsown.children i _ hi
    obtain ⟨y', w, hsown'⟩ := h.sown (base + i) (List.getElem?_eq_some_iff.mp hy).1
    have hsame := hsown'.here
    rw [hy] at hsame
    cases hsame
    have hw := hsown'.tree
    rw [htree, hnone] at hw
    cases hw
  | cyclic hv hcycle =>
    obtain ⟨r', hr, hreach⟩ := hv
    rw [hroot] at hr
    cases hr
    exact hunfolds.acyclic hreach hcycle
  | malformed hv hbad =>
    obtain ⟨a, x, hsown⟩ := h.planned hv
    rcases hbad with hdata | hredirections
    · exact hdata hsown.valid.data
    · rw [hsown.valid.redirections] at hredirections
      cases hredirections
  | unrepresentable hv hr ht hnone =>
    obtain ⟨a, x, hsown⟩ := h.planned hv
    obtain ⟨number, hnumber⟩ := Option.isSome_iff_exists.mp (hsown.valid.descriptors _ hr _ ht)
    exact hnone number (descriptor_iff.mp hnumber)

/-- The numbers that are written in the redirections are reserved. -/
theorem reserves (h : Complete g root m) {v : V} (hv : Reachable g root v) {r : AstRedirection}
    (hr : r ∈ (g v).redirections) {number : ℕ}
    (hn : (∃ text, r.ioNumber = some text ∧ Denotes text number) ∨ r.duplicates = true ∧ Denotes r.operand number) :
    number ∈ m.reserved := by
  obtain ⟨a, x, hsown⟩ := h.planned hv
  refine hsown.reserved r hr number ?_
  unfold AstRedirection.numbers
  rcases hn with ⟨text, ht, hnumber⟩ | ⟨hdup, hnumber⟩
  · refine mem_append_left _ ?_
    rw [ht, Option.bind_some, descriptor_iff.mpr hnumber]
    exact mem_cons_self
  · refine mem_append_right _ ?_
    rw [hdup, if_pos rfl, descriptor_iff.mpr hnumber]
    exact mem_cons_self

end Complete

/-! ### Destruction -/

/-- The ancestors of a node, as they were linked. -/
inductive Climb (nodes : List (PlanNode V)) : Option ℕ → List ℕ → Prop
  | root : Climb nodes none []
  | step {a : ℕ} {x : PlanNode V} {rest : List ℕ} (hx : nodes[a]? = some x) (hlt : ∀ p ∈ x.parent, p < a)
      (h : Climb nodes x.parent rest) : Climb nodes (some a) (a :: rest)

/-- A node that is still linked as it was; its children from `x.count` on are gone. -/
structure Remains (x₀ x : PlanNode V) : Prop where
  children : x.children = x₀.children
  parent : x.parent = x₀.parent
  count : x.count ≤ x₀.count

/-- The invariant of `plan_destroy`, with the path from the current node to the root.  A
node is as it was linked or as `memset` left it; the children that a node counts are
untouched, and every other node with an array is on the path. -/
structure Destroying (m₀ m : Memory V) (path : List ℕ) : Prop where
  arrays : m.arrays = m₀.arrays
  nodes : ∀ (a : ℕ) (x : PlanNode V), m.nodes[a]? = some x → ∃ x₀, m₀.nodes[a]? = some x₀ ∧ (x = {} ∨ Remains x₀ x)
  alive : ∀ a ∈ path, ∃ x x₀, m.nodes[a]? = some x ∧ m₀.nodes[a]? = some x₀ ∧ Remains x₀ x
  intact : ∀ (a : ℕ) (x : PlanNode V) (base j : ℕ), m.nodes[a]? = some x → x.children = some base →
    j < x.count → m.nodes[base + j]? = m₀.nodes[base + j]?
  passed : ∀ a ∈ path, ∀ (p : ℕ) (y : PlanNode V) (base j : ℕ), m.nodes[p]? = some y →
    y.children = some base → a = base + j → y.count ≤ j
  left : ∀ (a : ℕ) (x : PlanNode V), m.nodes[a]? = some x → x.children ≠ none → a ∉ path →
    ∃ (p : ℕ) (y : PlanNode V) (base j : ℕ), m.nodes[p]? = some y ∧ y.children = some base ∧ a = base + j ∧
      j < y.count
  owned : (m.freed ++ m.nodes.filterMap PlanNode.children).Perm (m₀.arrays.map Prod.fst)

theorem Linked.nodup (h : Linked m) : (m.arrays.map Prod.fst).Nodup := by
  have hpairwise : m.arrays.Pairwise fun array array' => array.1 ≠ array'.1 := by
    refine List.Pairwise.imp_of_mem ?_ h.apart
    intro array array' hmem _ hle
    have hpos := (h.bounded array hmem).2.1
    omega
  exact pairwise_map.mpr hpairwise

/-- The address is in the array. -/
def Within (array : ℕ × ℕ) (a : ℕ) : Prop := array.1 ≤ a ∧ a < array.1 + array.2

/-- An address is in one array. -/
theorem Linked.unique (h : Linked m) {array array' : ℕ × ℕ} (hmem : array ∈ m.arrays)
    (hmem' : array' ∈ m.arrays) {a : ℕ} (ha : Within array a) (ha' : Within array' a) : array = array' := by
  have hone : ∀ array array' : ℕ × ℕ, array.1 + array.2 ≤ array'.1 →
      ∀ a, Within array a → Within array' a → False := by
    intro array array' hle a ha ha'
    have hlt := ha.2
    have hge := ha'.1
    omega
  let R : ℕ × ℕ → ℕ × ℕ → Prop := fun array array' =>
    ∀ a, Within array a → Within array' a → array = array'
  have hforth : m.arrays.Pairwise R := h.apart.imp fun hle a ha ha' => (hone _ _ hle a ha ha').elim
  have hback : m.arrays.Pairwise (flip R) := h.apart.imp fun hle a ha ha' => (hone _ _ hle a ha' ha).elim
  have hall := List.Pairwise.forall_of_forall_of_flip (fun _ _ _ _ _ => rfl) hforth hback
  exact hall hmem hmem' a ha ha'

/-- A child knows its owner, so it has one. -/
theorem Linked.owner (h : Linked m) {p p' : ℕ} {y y' : PlanNode V} {base base' j j' : ℕ}
    (hy : m.nodes[p]? = some y) (hbase : y.children = some base) (hj : j < y.count)
    (hy' : m.nodes[p']? = some y') (hbase' : y'.children = some base') (hj' : j' < y'.count)
    (heq : base + j = base' + j') : p = p' ∧ y = y' ∧ base = base' ∧ j = j' := by
  obtain ⟨z, hz, hparent⟩ := (h.branch p y base hy hbase).2.2 j hj
  obtain ⟨z', hz', hparent'⟩ := (h.branch p' y' base' hy' hbase').2.2 j' hj'
  rw [← heq, hz] at hz'
  cases hz'
  rw [hparent] at hparent'
  cases hparent'
  rw [hy] at hy'
  cases hy'
  rw [hbase] at hbase'
  cases hbase'
  exact ⟨rfl, rfl, rfl, Nat.add_left_cancel heq⟩

namespace Destroying

variable {path rest : List ℕ} {c : ℕ} {x : PlanNode V}

/-- At the beginning nothing has been counted off. -/
theorem start (h : Linked m) : Destroying m m [0] := by
  refine ⟨rfl, ?_, ?_, ?_, ?_, ?_, ?_⟩
  · exact fun a x hx => ⟨x, hx, .inr ⟨rfl, rfl, Nat.le_refl _⟩⟩
  · intro a hmem
    obtain ⟨x, hx, -⟩ := h.root
    cases mem_singleton.mp hmem
    exact ⟨x, x, hx, hx, rfl, rfl, Nat.le_refl _⟩
  · exact fun _ _ _ _ _ _ _ => rfl
  · intro a hmem p y base j hy hbase heq
    cases mem_singleton.mp hmem
    have hlt := (h.branch p y base hy hbase).1
    omega
  · intro a x hx _ hoff
    have hne : a ≠ 0 := fun heq => hoff (mem_singleton.mpr heq)
    obtain ⟨p, y, base, j, -, hy, hbase, hj, heq⟩ := h.placed a x hx hne
    exact ⟨p, y, base, j, hy, hbase, heq, hj⟩
  · rw [h.freed]
    exact h.owned

/-- The node is linked as it was. -/
theorem current (h : Destroying m₀ m (c :: rest)) (hx : m.nodes[c]? = some x) :
    ∃ x₀, m₀.nodes[c]? = some x₀ ∧ Remains x₀ x := by
  obtain ⟨x', x₀, hx', hx₀, hremains⟩ := h.alive c mem_cons_self
  rw [hx] at hx'
  cases hx'
  exact ⟨x₀, hx₀, hremains⟩

/-- A node with an array is linked as it was. -/
theorem remains (h : Destroying m₀ m path) {a base : ℕ} (hx : m.nodes[a]? = some x)
    (hbase : x.children = some base) : ∃ x₀, m₀.nodes[a]? = some x₀ ∧ Remains x₀ x := by
  obtain ⟨x₀, hx₀, rfl | hremains⟩ := h.nodes a x hx
  · cases hbase
  · exact ⟨x₀, hx₀, hremains⟩

/-- **The current node was not freed.** -/
theorem live (h : Destroying m₀ m (c :: rest)) (h₀ : Linked m₀) (hc : Climb m₀.nodes (some c) (c :: rest)) :
    m.dangles c = false := by
  rw [Memory.dangles, any_eq_false]
  intro array hmem hdangles
  rw [h.arrays] at hmem
  rw [Bool.and_eq_true, decide_eq_true_eq, contains_iff_mem] at hdangles
  obtain ⟨hwithin, hfreed⟩ := hdangles
  obtain ⟨x, x₀, hx, hx₀, hremains⟩ := h.alive c mem_cons_self
  have hne : c ≠ 0 := by
    have hpos := (h₀.bounded array hmem).1
    have hle := hwithin.1
    omega
  obtain ⟨p, y₀, base, j, hp, hy₀, hbase, hj, heq⟩ := h₀.placed c x₀ hx₀ hne
  -- The array is that of the parent, which is on the path.
  have hin : Within (base, y₀.count) c := by
    rw [heq]
    exact ⟨Nat.le_add_right _ _, Nat.add_lt_add_left hj _⟩
  cases h₀.unique hmem (h₀.branch p y₀ base hy₀ hbase).2.1 hwithin hin
  have hpath : p ∈ c :: rest := by
    cases hc with
    | @step _ x₁ rest hx₁ hlt hrest =>
      rw [hx₀] at hx₁
      cases hx₁
      rw [hp] at hrest
      cases hrest
      exact mem_cons_of_mem _ mem_cons_self
  obtain ⟨y, y₁, hy, hy₁, hremains'⟩ := h.alive p hpath
  rw [hy₀] at hy₁
  cases hy₁
  have howned : base ∈ m.nodes.filterMap PlanNode.children :=
    mem_filterMap.mpr ⟨y, mem_of_getElem? hy, hremains'.children.trans hbase⟩
  have hnodup := (h.owned.nodup_iff).mpr h₀.nodup
  exact disjoint_of_nodup_append hnodup hfreed howned

theorem lt_of_mem {nodes : List (PlanNode V)} (hc : Climb nodes (some c) (c :: rest)) {a : ℕ} (ha : a ∈ rest) :
    a < c := by
  generalize hstart : some c = start at hc
  generalize hpath : c :: rest = path at hc
  induction hc generalizing c rest with
  | root => cases hstart
  | @step b x more hx hlt hmore ih =>
    cases hstart
    cases hpath
    cases hparent : x.parent with
    | none =>
      rw [hparent] at hmore
      cases hmore
      cases ha
    | some p =>
      rw [hparent] at hmore ih
      have hp := hlt p hparent
      cases hmore with
      | @step _ y more' hy hlt' hmore' =>
        rcases mem_cons.mp ha with rfl | ha
        · exact hp
        · exact (ih ha rfl rfl).trans hp

/-- The last child that is counted is next. -/
theorem down (h : Destroying m₀ m (c :: rest)) (h₀ : Linked m₀) (hc : Climb m₀.nodes (some c) (c :: rest))
    (hx : m.nodes[c]? = some x) (hcount : x.count ≠ 0) :
    ∃ base, x.children = some base ∧
      Destroying m₀ (m.put c { x with count := x.count - 1 }) ((base + (x.count - 1)) :: c :: rest) ∧
      Climb m₀.nodes (some (base + (x.count - 1))) ((base + (x.count - 1)) :: c :: rest) := by
  obtain ⟨x₀, hx₀, hremains⟩ := h.current hx
  obtain ⟨base, hbase⟩ : ∃ base, x.children = some base := by
    refine Option.ne_none_iff_exists'.mp fun hnone => ?_
    have hzero := h₀.leaf c x₀ hx₀ (hremains.children.symm.trans hnone)
    have hle := hremains.count
    omega
  have hbase₀ : x₀.children = some base := hremains.children.symm.trans hbase
  have hlast : x.count - 1 < x.count := by omega
  obtain ⟨hbelow, -, hall⟩ := h₀.branch c x₀ base hx₀ hbase₀
  obtain ⟨y, hy, hparent⟩ := hall (x.count - 1) (hlast.trans_le hremains.count)
  have hne : base + (x.count - 1) ≠ c := by omega
  have hy' : m.nodes[base + (x.count - 1)]? = some y := by
    rw [h.intact c x base _ hx hbase hlast, hy]
  have hin := (List.getElem?_eq_some_iff.mp hx).1
  have hother : ∀ {a : ℕ}, a ≠ c → (m.put c { x with count := x.count - 1 }).nodes[a]? = m.nodes[a]? :=
    fun hac => List.getElem?_set_ne (Ne.symm hac)
  have hhere : (m.put c { x with count := x.count - 1 }).nodes[c]? = some { x with count := x.count - 1 } :=
    List.getElem?_set_self hin
  have hlower : Remains x₀ { x with count := x.count - 1 } :=
    ⟨hremains.children, hremains.parent, (Nat.sub_le _ _).trans hremains.count⟩
  refine ⟨base, hbase, ⟨h.arrays, ?_, ?_, ?_, ?_, ?_, ?_⟩, .step hy ?_ ?_⟩
  · intro a z hz
    rcases put_cases hz with ⟨rfl, rfl⟩ | ⟨-, hz⟩
    · exact ⟨x₀, hx₀, .inr hlower⟩
    · exact h.nodes a z hz
  · intro a hmem
    rcases List.mem_cons.mp hmem with rfl | hmem
    · exact ⟨y, y, (hother hne).trans hy', hy, rfl, rfl, Nat.le_refl _⟩
    · by_cases hac : a = c
      · subst hac
        exact ⟨_, x₀, hhere, hx₀, hlower⟩
      · obtain ⟨z, z₀, hz, hz₀, hz'⟩ := h.alive a hmem
        exact ⟨z, z₀, (hother hac).trans hz, hz₀, hz'⟩
  · intro a z base' j hz hbase' hj
    rcases put_cases hz with ⟨rfl, rfl⟩ | ⟨-, hz⟩
    · have hj' : j < x.count := Nat.lt_of_lt_of_le hj (Nat.sub_le _ _)
      have hsame : base' = base := by
        have heq : x.children = some base' := hbase'
        rw [hbase] at heq
        exact (Option.some.inj heq).symm
      rw [hother (by omega), h.intact a x base' j hx (hsame ▸ hbase) hj']
    · rw [hother ?_, h.intact a z base' j hz hbase' hj]
      -- The current node is not counted by its parent.
      intro heq
      exact absurd (h.passed c List.mem_cons_self a z base' j hz hbase' heq.symm) (Nat.not_le.mpr hj)
  · intro a hmem p z base' j hz hbase' heq
    rcases List.mem_cons.mp hmem with rfl | hmem
    · by_contra hlt
      rcases put_cases hz with ⟨rfl, rfl⟩ | ⟨hpc, hz⟩
      · have hsame : x.children = some base' := hbase'
        rw [hbase] at hsame
        cases hsame
        have hj : j < x.count - 1 := Nat.lt_of_not_le hlt
        omega
      · obtain ⟨z₀, hz₀, hremains'⟩ := h.remains hz hbase'
        have hj := (Nat.lt_of_not_le hlt).trans_le hremains'.count
        have howner := h₀.owner hx₀ hbase₀ (hlast.trans_le hremains.count) hz₀
          (hremains'.children.symm.trans hbase') hj heq
        exact hpc howner.1.symm
    · rcases put_cases hz with ⟨rfl, rfl⟩ | ⟨-, hz⟩
      · exact (Nat.sub_le _ _).trans (h.passed a hmem p x base' j hx hbase' heq)
      · exact h.passed a hmem p z base' j hz hbase' heq
  · intro a z hz hchildren hoff
    rw [List.mem_cons, not_or] at hoff
    have hac : a ≠ c := fun heq => hoff.2 (heq ▸ List.mem_cons_self)
    rw [hother hac] at hz
    obtain ⟨p, w, base', j, hw, hbase', heq, hj⟩ := h.left a z hz hchildren hoff.2
    by_cases hpc : p = c
    · subst hpc
      rw [hx] at hw
      cases hw
      rw [hbase] at hbase'
      cases hbase'
      refine ⟨p, _, base, j, hhere, hbase, heq, ?_⟩
      have hlast' : j ≠ x.count - 1 := fun hj' => hoff.1 (hj' ▸ heq)
      show j < x.count - 1
      omega
    · exact ⟨p, w, base', j, (hother hpc).trans hw, hbase', heq, hj⟩
  · have hperm := filterMap_set PlanNode.children hx { x with count := x.count - 1 }
    have hsame := (List.perm_append_left_iff _).mp hperm
    exact ((hsame.symm).append_left m.freed).trans h.owned
  · intro p hp
    rw [hparent] at hp
    cases hp
    omega
  · rw [hparent]
    exact hc

/-- A node whose children are gone goes itself. -/
theorem up (h : Destroying m₀ m (c :: rest)) (hc : Climb m₀.nodes (some c) (c :: rest))
    (hx : m.nodes[c]? = some x) (hcount : x.count = 0) :
    Destroying m₀ ({ m with freed := m.freed ++ x.children.toList }.put c {}) rest ∧
      Climb m₀.nodes x.parent rest := by
  obtain ⟨x₀, hx₀, hremains⟩ := h.current hx
  have hother : ∀ {a : ℕ}, a ≠ c →
      ({ m with freed := m.freed ++ x.children.toList }.put c {}).nodes[a]? = m.nodes[a]? :=
    fun hac => getElem?_set_ne (Ne.symm hac)
  -- What has an array behind the step is another node.
  have hcases : ∀ {a : ℕ} {z : PlanNode V},
      ({ m with freed := m.freed ++ x.children.toList }.put c {}).nodes[a]? = some z → z.children ≠ none →
        a ≠ c ∧ m.nodes[a]? = some z := by
    intro a z hz hchildren
    have hz' : ({ m with freed := m.freed ++ x.children.toList }.put c {}).nodes[a]? = some z := hz
    rcases put_cases hz' with ⟨rfl, rfl⟩ | hz'
    · exact absurd rfl hchildren
    · exact hz'
  refine ⟨⟨h.arrays, ?_, ?_, ?_, ?_, ?_, ?_⟩, ?_⟩
  · intro a z hz
    rcases put_cases hz with ⟨rfl, rfl⟩ | ⟨-, hz⟩
    · exact ⟨x₀, hx₀, .inl rfl⟩
    · exact h.nodes a z hz
  · intro a hmem
    obtain ⟨z, z₀, hz, hz₀, hz'⟩ := h.alive a (mem_cons_of_mem _ hmem)
    exact ⟨z, z₀, (hother (lt_of_mem hc hmem).ne).trans hz, hz₀, hz'⟩
  · intro a z base j hz hbase hj
    obtain ⟨-, hz⟩ := hcases hz (by rw [hbase]; exact Option.some_ne_none _)
    rw [hother ?_, h.intact a z base j hz hbase hj]
    intro heq
    exact absurd (h.passed c mem_cons_self a z base j hz hbase heq.symm) (Nat.not_le.mpr hj)
  · intro a hmem p z base j hz hbase heq
    obtain ⟨-, hz⟩ := hcases hz (by rw [hbase]; exact Option.some_ne_none _)
    exact h.passed a (mem_cons_of_mem _ hmem) p z base j hz hbase heq
  · intro a z hz hchildren hoff
    obtain ⟨hac, hz⟩ := hcases hz hchildren
    obtain ⟨p, w, base, j, hw, hbase, heq, hj⟩ := h.left a z hz hchildren (by
      rw [mem_cons, not_or]
      exact ⟨hac, hoff⟩)
    have hpc : p ≠ c := by
      rintro rfl
      rw [hx] at hw
      cases hw
      omega
    exact ⟨p, w, base, j, (hother hpc).trans hw, hbase, heq, hj⟩
  · have hperm := filterMap_set PlanNode.children hx {}
    show ((m.freed ++ x.children.toList) ++ (m.nodes.set c {}).filterMap PlanNode.children).Perm _
    rw [append_assoc]
    exact (hperm.symm.append_left m.freed).trans h.owned
  · cases hc with
    | @step _ y rest hy hlt hrest =>
      rw [hx₀] at hy
      cases hy
      rw [hremains.parent]
      exact hrest

/-- When the walk has left the root, every array is freed. -/
theorem freed (h : Destroying m₀ m []) (h₀ : Linked m₀) : m.freed.Perm (m₀.arrays.map Prod.fst) := by
  have hnone : ∀ (a : ℕ) (x : PlanNode V), m.nodes[a]? = some x → x.children = none := by
    intro a
    induction a using Nat.strong_induction_on with
    | _ a ih =>
      intro x hx
      by_contra hchildren
      obtain ⟨p, y, base, j, hy, hbase, heq, hj⟩ := h.left a x hx hchildren not_mem_nil
      obtain ⟨y₀, hy₀, hremains⟩ := h.remains hy hbase
      have hbelow := (h₀.branch p y₀ base hy₀ (hremains.children.symm.trans hbase)).1
      -- The parent has an array, too.
      rw [ih p (by omega) y hy] at hbase
      cases hbase
  have hnil : m.nodes.filterMap PlanNode.children = [] := by
    rw [filterMap_eq_nil_iff]
    intro x hmem
    obtain ⟨a, ha⟩ := mem_iff_getElem?.mp hmem
    exact hnone a x ha
  have howned := h.owned
  rwa [hnil, append_nil] at howned

theorem sum_set {α : Type} (f : α → ℕ) {xs : List α} {i : ℕ} {x : α} (h : xs[i]? = some x) (x' : α) :
    f x' + (xs.map f).sum = f x + ((xs.set i x').map f).sum := by
  induction xs generalizing i with
  | nil => cases h
  | cons y ys ih =>
    cases i with
    | zero =>
      cases h
      simp only [set_cons_zero, map_cons, sum_cons]
      omega
    | succ i =>
      have hrest := ih h
      simp only [set_cons_succ, map_cons, sum_cons]
      omega

/-- The walk ends: every step counts a child off or leaves a node. -/
theorem ends (h : Destroying m₀ m path) (h₀ : Linked m₀) {start : Option ℕ} (hc : Climb m₀.nodes start path) :
    ∃ fuel m', destroyLoop fuel start m = some m' ∧ Destroying m₀ m' [] := by
  induction hleft : (m.nodes.map PlanNode.count).sum using Nat.strong_induction_on generalizing m path start with
  | _ left ihleft =>
    induction hup : path.length using Nat.strong_induction_on generalizing m path start with
    | _ up ihup =>
      cases hc with
      | root => exact ⟨0, m, rfl, h⟩
      | @step c x₀ rest hx₀ hlt hrest =>
        have hclimb : Climb m₀.nodes (some c) (c :: rest) := .step hx₀ hlt hrest
        obtain ⟨x, x₁, hx, -, -⟩ := h.alive c mem_cons_self
        by_cases hcount : x.count = 0
        · obtain ⟨hnext, hclimb'⟩ := h.up hclimb hx hcount
          have hsum := sum_set PlanNode.count hx {}
          have hsame : ((m.nodes.set c {}).map PlanNode.count).sum = left := by
            have hzero : ({} : PlanNode V).count = 0 := rfl
            omega
          obtain ⟨fuel, m', hloop, hends⟩ := ihup rest.length (by rw [← hup]; exact Nat.lt_succ_self _)
            hnext hclimb' hsame rfl
          refine ⟨fuel + 1, m', ?_, hends⟩
          rw [destroyLoop, h.live h₀ hclimb, if_neg Bool.false_ne_true, hx]
          dsimp only
          rw [if_neg (not_not.mpr hcount), hloop]
        · obtain ⟨base, hbase, hnext, hclimb'⟩ := h.down h₀ hclimb hx hcount
          have hsum := sum_set PlanNode.count hx { x with count := x.count - 1 }
          have hless : ((m.nodes.set c { x with count := x.count - 1 }).map PlanNode.count).sum < left := by
            dsimp only at hsum
            omega
          obtain ⟨fuel, m', hloop, hends⟩ := ihleft _ hless hnext hclimb' rfl
          refine ⟨fuel + 1, m', ?_, hends⟩
          rw [destroyLoop, h.live h₀ hclimb, if_neg Bool.false_ne_true, hx]
          dsimp only
          rw [if_pos hcount]
          split
          · next hnone =>
            rw [hbase] at hnone
            cases hnone
          · next base' hbase' =>
            rw [hbase] at hbase'
            cases hbase'
            exact hloop

end Destroying

/-- More fuel does not change the outcome. -/
theorem destroyLoop_mono {start : Option ℕ} {m m' : Memory V} {fuel more : ℕ}
    (h : destroyLoop fuel start m = some m') (hle : fuel ≤ more) : destroyLoop more start m = some m' := by
  induction fuel generalizing start m more with
  | zero =>
    cases start with
    | none =>
      rw [destroyLoop] at h ⊢
      exact h
    | some c => cases h
  | succ fuel ih =>
    cases start with
    | none =>
      rw [destroyLoop] at h ⊢
      exact h
    | some c =>
      cases more with
      | zero => exact absurd hle (Nat.not_succ_le_zero _)
      | succ more =>
        have hle' := Nat.le_of_succ_le_succ hle
        rw [destroyLoop] at h ⊢
        split at h
        · cases h
        · next hlive =>
          rw [if_neg hlive]
          split at h
          · cases h
          · next x hx =>
            split at h
            · next hcount =>
              rw [if_pos hcount]
              split at h
              · cases h
              · next base hbase => exact ih h hle'
            · next hcount =>
              rw [if_neg hcount]
              exact ih h hle'

/-- **`plan_destroy` frees every array once**, whatever part of the plan there is. -/
theorem planDestroy_ends (h : Linked m) :
    ∃ fuel m', (∀ more, fuel ≤ more → planDestroy more m = some m') ∧
      m'.freed.Perm (m.arrays.map Prod.fst) := by
  obtain ⟨x, hx, hnone⟩ := h.root
  have hclimb : Climb m.nodes (some 0) [0] := by
    refine .step hx ?_ ?_
    · rw [hnone]
      exact fun p hp => by cases hp
    · rw [hnone]
      exact .root
  obtain ⟨fuel, m', hloop, hends⟩ := (Destroying.start h).ends h hclimb
  exact ⟨fuel, m', fun more hle => destroyLoop_mono hloop hle, hends.freed h⟩

/-! ### From beginning to end -/

theorem Ends.linked {alloc : Allocator} {failure : Option Failure} (h : Ends g alloc root failure m) : Linked m := by
  cases failure with
  | none => exact Complete.linked h
  | some failure => exact And.left h

/-- **What becomes of a plan.**  For every finite graph, `plan_prepare` ends.  It fails when
there is an obstacle, a cycle or a number that is no descriptor among them, and only then
if the memory is granted.  When it succeeds, the plan reads as the unfolding of the graph,
and the numbers written before redirections and as operands of duplications are reserved.
Either way `plan_destroy` ends, and frees every array that was allocated once. -/
theorem planPrepare_planDestroy {V : Type} [Fintype V] [DecidableEq V] (g : V → AstNode V) (alloc : Allocator)
    (root : Option V) :
    ∃ fuel failure m, (∀ more, fuel ≤ more → planPrepare g alloc more root = some (failure, m)) ∧
      (Obstacle g root → failure ≠ none) ∧
      (failure ≠ none → Obstacle g root ∨ ¬alloc.Grants) ∧
      (failure = none →
        (∃ r t, root = some r ∧ Unfolds (astParts g) r false t ∧ Reads g m.nodes 0 t) ∧
        ∀ v, Reachable g root v → ∀ r ∈ (g v).redirections, ∀ number : ℕ,
          (∃ text, r.ioNumber = some text ∧ Denotes text number) ∨
            r.duplicates = true ∧ Denotes r.operand number → number ∈ m.reserved) ∧
      ∃ fuel' m', (∀ more, fuel' ≤ more → planDestroy more m = some m') ∧
        m'.freed.Perm (m.arrays.map Prod.fst) ∧ (m.arrays.map Prod.fst).Nodup := by
  obtain ⟨fuel, failure, m, hprepare, hends⟩ := planPrepare_ends g alloc root
  obtain ⟨fuel', m', hdestroy, hfreed⟩ := planDestroy_ends hends.linked
  refine ⟨fuel, failure, m, hprepare, ?_, ?_, ?_, fuel', m', hdestroy, hfreed, hends.linked.nodup⟩
  · rintro hobstacle rfl
    exact Complete.clear hends hobstacle
  · intro hfailure
    obtain ⟨failure, rfl⟩ := Option.ne_none_iff_exists'.mp hfailure
    exact And.right hends
  · rintro rfl
    exact ⟨Complete.unfolds hends, fun v hv r hr number => Complete.reserves hends hv hr⟩

/-- A pipeline without commands has no cycle and no redirection, and cannot be planned. -/
theorem planPrepare_emptyPipeline :
    ¬∀ (g : Unit → AstNode Unit) (alloc : Allocator), alloc.Grants →
      (∀ v, Reachable g (some ()) v → ¬TransGen (Edge (astParts g)) v v ∧ (g v).redirections = []) →
        ∃ fuel m, planPrepare g alloc fuel (some ()) = some (none, m) := by
  intro h
  obtain ⟨fuel, m, hplan⟩ := h (fun _ => { data := .pipeline [] false }) ⟨fun _ => true, fun _ _ => true⟩
    ⟨fun _ => rfl, fun _ _ => rfl⟩ (by
      intro v _
      refine ⟨fun hcycle => ?_, rfl⟩
      obtain ⟨w, ⟨mark, hmem⟩, -⟩ := TransGen.head'_iff.mp hcycle
      cases hmem)
  cases fuel with
  | zero => cases hplan
  | succ fuel => exact absurd hplan (by simp [planPrepare, prepareLoop, prepareStep, planNode, ancestorHas, AstData.failure])

end CShell.Execute
