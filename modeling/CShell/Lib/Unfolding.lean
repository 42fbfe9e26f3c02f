import Mathlib.Logic.Relation
import Mathlib.Data.List.Basic
import Mathlib.Data.Nat.Init

/-!
# Unfolding a graph

The children of a vertex are a list whose entries may be missing and carry a mark.  A
graph with sharing unfolds to a tree when nothing is missing and no walk is endless.

## Main definitions

* `Rose V M` — trees whose nodes have a vertex and the mark of the edge to it.
* `Edge parts v w` — `w` is a child of `v`.
* `Unfolds parts v mark t` — `t` is the unfolding at `v`.
* `weight` — a bound on the nodes of an unfolding of a given depth.

## Main results

* `Unfolds.acyclic` — **what unfolds reaches no cycle.**
-/

namespace Unfolding

variable {V M : Type*}

/-- A tree; a node has the vertex it unfolds and the mark of the edge to it. -/
inductive Rose (V M : Type*)
  | node (vertex : V) (mark : M) (children : List (Rose V M))

variable (parts : V → List (Option V × M))

/-- A child that is not missing. -/
def Edge (v w : V) : Prop := ∃ mark, (some w, mark) ∈ parts v

/-- A tree is the unfolding at a vertex. -/
inductive Unfolds : V → M → Rose V M → Prop
  | node {v : V} {mark : M} {ts : List (Rose V M)} (hsome : ∀ part ∈ parts v, part.1 ≠ none)
      (hlen : ts.length = (parts v).length)
      (h : ∀ (i : ℕ) (w : V) (mark' : M) (t : Rose V M),
        (parts v)[i]? = some (some w, mark') → ts[i]? = some t → Unfolds w mark' t) :
      Unfolds v mark (.node v mark ts)

variable {parts} {v w : V} {mark : M} {t t' : Rose V M}

/-- Walks from a vertex that unfolds come to an end. -/
theorem Unfolds.acc (h : Unfolds parts v mark t) : Acc (fun w v => Edge parts v w) v := by
  induction h with
  | @node v mark ts _ hlen _ ih =>
    refine Acc.intro v ?_
    rintro w ⟨mark', hmem⟩
    obtain ⟨i, hi⟩ := List.mem_iff_getElem?.mp hmem
    have hlt : i < ts.length := by
      rw [hlen]
      exact (List.getElem?_eq_some_iff.mp hi).1
    exact ih i w mark' _ hi (List.getElem?_eq_getElem hlt)

/-- **What unfolds reaches no cycle.** -/
theorem Unfolds.acyclic (h : Unfolds parts v mark t) (hw : Relation.ReflTransGen (Edge parts) v w) :
    ¬Relation.TransGen (Edge parts) w w := by
  have hacc : Acc (fun w v => Edge parts v w) w := by
    have hv := h.acc
    induction hw with
    | refl => exact hv
    | tail _ hedge ih => exact ih.inv hedge
  induction hacc with
  | intro w _ ih =>
    intro hcycle
    -- The cycle goes through its second vertex as well.
    obtain ⟨w', hedge, hback⟩ := Relation.TransGen.head'_iff.mp hcycle
    refine ih w' hedge (hw.tail hedge) ?_
    exact Relation.TransGen.tail' hback hedge

/-! ### Size -/

/-- A bound on the nodes of an unfolding of a given depth, when no vertex has more than
`width` children. -/
def weight (width : ℕ) : ℕ → ℕ
  | 0 => 1
  | depth + 1 => 1 + width * weight width depth

theorem mul_weight_lt {width count : ℕ} (h : count ≤ width) (depth : ℕ) :
    count * weight width depth < weight width (depth + 1) := by
  have hle := Nat.mul_le_mul_right (weight width depth) h
  rw [weight]
  omega

end Unfolding
