import CShell.Lexer.Words
import CShell.Expand.Word

/-!
# The shape of a word

The fragments of a word are a preorder list of ranges of its spelling.  While a
word is read some of them are still open: those of the frames.  A word has its
*shape* when its fragments are laid out as `prepare` expects, every closed one is
spelled as its kind demands, and every open one has its opening.

## Main definitions

* `Laid fragments stack` — a preorder list, with the stack `prepare` has behind it.
* `Sealed d f w`, `Opened kind quote text` — the spelling of a closed fragment, and
  the beginning of an open one.
* `Shape d raw fragments frames` — the shape of a word.

## Main results

* `Shape.leaf`, `Shape.join`, `Shape.push`, `Shape.pop` — what the lexer does to it.

## References

`src/lexer.c` (`add_fragment`, `push`, `pop`), `src/expand.c` (`prepare`).
-/

namespace CShell
namespace Lexical

open List
open Expand (specialParameter slice)

theorem modify_concat {α : Type*} (xs : List α) (x : α) (f : α → α) :
    (xs ++ [x]).modify xs.length f = xs ++ [f x] := by
  induction xs with
  | nil => rfl
  | cons y ys ih =>
    rw [cons_append, length_cons, modify_succ_cons, ih, cons_append]

theorem modify_append {α : Type*} {xs : List α} {j : ℕ} (h : j < xs.length) (ys : List α)
    (f : α → α) : (xs ++ ys).modify j f = xs.modify j f ++ ys := by
  induction xs generalizing j with
  | nil => cases h
  | cons x xs ih =>
    cases j with
    | zero => rfl
    | succ j =>
      rw [cons_append, modify_succ_cons, modify_succ_cons,
        ih (Nat.lt_of_succ_lt_succ h), cons_append]

/-! ### Preorder lists -/

/-- The end of the last root fragment, which is at the bottom of the stack. -/
def rootStop (fragments : List Fragment) (stack : List ℕ) : ℕ :=
  ((stack.getLast?.bind fun i => fragments[i]?).map Fragment.stop).getD 0

/-- Fragments in preorder, and the path from the last of them to its root. -/
inductive Laid : List Fragment → List ℕ → Prop
  | nil : Laid [] []
  | snoc {fragments : List Fragment} {popped kept : List ℕ} {f : Fragment}
      (h : Laid fragments (popped ++ kept)) (hp : f.parent = kept.head?)
      (hc : ∀ i g, fragments[i]? = some g → i ∉ kept → g.stop ≤ f.begin)
      (hb : ∀ g ∈ fragments, g.begin ≤ f.begin)
      (hr : kept = [] → rootStop fragments popped = f.begin) :
      Laid (fragments ++ [f]) (fragments.length :: kept)

variable {f : Fragment} {g : Fragment → Fragment} {w : Bytes}

namespace Laid

variable {fragments : List Fragment} {stack : List ℕ}

theorem lt (h : Laid fragments stack) : ∀ i ∈ stack, i < fragments.length := by
  induction h with
  | nil => simp
  | @snoc fragments popped kept f h hp hc hb hr ih =>
    intro i hi
    rw [length_append, length_singleton]
    rcases mem_cons.mp hi with rfl | hi
    · exact Nat.lt_succ_self _
    · exact (ih i (mem_append_right _ hi)).trans (Nat.lt_succ_self _)

theorem sorted (h : Laid fragments stack) : stack.Pairwise (· > ·) := by
  induction h with
  | nil => exact .nil
  | @snoc fragments popped kept f h hp hc hb hr ih =>
    rw [pairwise_cons]
    refine ⟨?_, (pairwise_append.mp ih).2.1⟩
    intro i hi
    exact h.lt i (mem_append_right _ hi)

/-- A parent comes before its fragments. -/
theorem parent_lt (h : Laid fragments stack) {i : ℕ} (hi : fragments[i]? = some f) :
    ∀ p, f.parent = some p → p < i := by
  induction h with
  | nil => cases hi
  | @snoc fragments popped kept g h hp hc hb hr ih =>
    rcases concat_cases hi with ⟨-, hi⟩ | ⟨rfl, rfl⟩
    · exact ih hi
    · intro p hparent
      rw [hp] at hparent
      exact h.lt p (mem_append_right _ (mem_of_mem_head? hparent))

/-- A fragment on the stack may be ended again. -/
theorem modify (h : Laid fragments stack) {j : ℕ} (hj : j ∈ stack)
    (hg : ∀ f, (g f).begin = f.begin ∧ (g f).parent = f.parent) :
    Laid (fragments.modify j g) stack := by
  induction h with
  | nil => cases hj
  | @snoc fragments popped kept f h hp hc hb hr ih =>
    rcases mem_cons.mp hj with rfl | hj
    · rw [modify_concat]
      refine .snoc h ((hg f).2.trans hp) ?_ ?_ ?_
      · rw [(hg f).1]
        exact hc
      · rw [(hg f).1]
        exact hb
      · rw [(hg f).1]
        exact hr
    · have hlt := h.lt j (mem_append_right _ hj)
      rw [modify_append hlt, ← length_modify g fragments j]
      refine .snoc (ih (mem_append_right _ hj)) hp ?_ ?_ ?_
      · intro i f' hi hkept
        have hne : j ≠ i := by
          rintro rfl
          exact hkept hj
        rw [getElem?_modify_ne g fragments hne] at hi
        exact hc i f' hi hkept
      · intro f' hmem
        rcases mem_modify hmem with hmem | ⟨f'', hmem'', rfl⟩
        · exact hb f' hmem
        · rw [(hg f'').1]
          exact hb f'' hmem''
      · intro hnil
        rw [hnil] at hj
        cases hj

/-- A fragment of the stack has its parent below it. -/
theorem parent_eq (h : Laid fragments stack) {above below : List ℕ} {k : ℕ}
    (hk : stack = above ++ k :: below) :
    ∃ f, fragments[k]? = some f ∧ f.parent = below.head? := by
  induction h generalizing above with
  | nil =>
    cases above <;> cases hk
  | @snoc fragments popped kept f h hp hc hb hr ih =>
    cases above with
    | nil =>
      cases hk
      refine ⟨f, ?_, hp⟩
      rw [getElem?_append_right (Nat.le_refl _), Nat.sub_self]
      rfl
    | cons a above =>
      have hkept : kept = above ++ k :: below := (cons.inj hk).2
      have hlt : k < fragments.length := by
        apply h.lt k
        rw [hkept]
        exact mem_append_right _ (mem_append_right _ mem_cons_self)
      obtain ⟨f', hget, hparent⟩ := @ih (popped ++ above) (by rw [hkept, append_assoc])
      exact ⟨f', by rw [getElem?_append_left hlt, hget], hparent⟩

/-- The last fragment is on top of the stack. -/
theorem top (h : Laid fragments stack) (hf : fragments.getLast? = some f) :
    ∃ kept, stack = (fragments.length - 1) :: kept ∧ f.parent = kept.head? := by
  cases h with
  | nil => cases hf
  | @snoc fragments popped kept g h hp hc hb hr =>
    rw [getLast?_concat] at hf
    cases hf
    refine ⟨kept, ?_, hp⟩
    rw [length_append, length_singleton, Nat.add_sub_cancel]

end Laid

/-! ### Spellings -/

/-- The closing delimiters of a candidate. -/
def closing : Bytes := [byteOf ')', byteOf ')']

/-- The spelling of a closed fragment. -/
def Sealed (d : Decoder) (f : Fragment) (w : Bytes) : Prop :=
  match f.kind with
  | .text => True
  | .continuation => w = [byteOf '\\', byteOf '\n']
  | .escape =>
    ∃ c, w = byteOf '\\' :: c ∧ 0 < c.length ∧ d.characterLength c true = c.length
  | .quoted =>
    match f.quote with
    | .dollarSingle => ∃ o v, w = o ++ v ++ [byteOf '\''] ∧ Spans [byteOf '$', byteOf '\''] o
    | .single => ∃ v, w = byteOf '\'' :: v ++ [byteOf '\'']
    | .double => ∃ v, w = byteOf '"' :: v ++ [byteOf '"']
    | .none => False
  | .backquote => ∃ v, w = byteOf '\x60' :: v ++ [byteOf '\x60']
  | .parameter =>
    (∃ o v, w = o ++ v ++ [byteOf '\x7d'] ∧ Spans [byteOf '$', byteOf '\x7b'] o) ∨
      ∃ o v byte, w = o ++ v ∧ Spans [byteOf '$', byte] o ∧
        (nameByte byte = true ∨ specialParameter byte = true)
  | .command => ∃ o v, w = o ++ v ++ [byteOf ')'] ∧ Spans [byteOf '$', byteOf '('] o
  | .arithmetic =>
    ∃ o v c, w = o ++ v ++ c ∧ Spans [byteOf '$', byteOf '(', byteOf '('] o ∧ Spans closing c

/-- The kind of the fragment of a frame. -/
def FrameKind.fragmentKind : FrameKind → FragmentKind
  | .single | .double | .dollarSingle => .quoted
  | .parameter | .simple => .parameter
  | .arithmetic => .arithmetic
  | .backquote => .backquote
  | .command => .command

/-- The opening delimiters of a frame. -/
def Openers (quote : Quote) (o : Bytes) : FrameKind → Prop
  | .single => quote = .single ∧ o = [byteOf '\'']
  | .double => quote = .double ∧ o = [byteOf '"']
  | .dollarSingle => quote = .dollarSingle ∧ Spans [byteOf '$', byteOf '\''] o
  | .parameter => Spans [byteOf '$', byteOf '\x7b'] o
  | .simple =>
    ∃ byte, (nameByte byte = true ∨ specialParameter byte = true) ∧ Spans [byteOf '$', byte] o
  | .arithmetic => Spans [byteOf '$', byteOf '(', byteOf '('] o
  | .backquote => o = [byteOf '\x60']
  | .command => Spans [byteOf '$', byteOf '('] o

/-- The text of an open fragment begins with its opening delimiters. -/
def Opened (kind : FrameKind) (quote : Quote) (text : Bytes) : Prop :=
  ∃ o, o <+: text ∧ Openers quote o kind

theorem Opened.append {kind : FrameKind} {quote : Quote} {text : Bytes}
    (h : Opened kind quote text) (more : Bytes) : Opened kind quote (text ++ more) := by
  obtain ⟨o, hstart, ho⟩ := h
  exact ⟨o, hstart.trans (prefix_append _ _), ho⟩

/-- The bytes that close a frame. -/
def Closers (c : Bytes) : FrameKind → Prop
  | .single | .dollarSingle => c = [byteOf '\'']
  | .double => c = [byteOf '"']
  | .parameter => c = [byteOf '\x7d']
  | .simple => c = []
  | .arithmetic => Spans closing c
  | .backquote => c = [byteOf '\x60']
  | .command => False

/-- An opening and a closing make a fragment. -/
theorem Opened.seal {d : Decoder} {kind : FrameKind} {text c : Bytes}
    (h : Opened kind f.quote text) (hk : f.kind = kind.fragmentKind) (hc : Closers c kind) :
    Sealed d f (text ++ c) := by
  obtain ⟨o, ⟨v, rfl⟩, ho⟩ := h
  unfold Sealed
  rw [hk]
  cases kind with
  | single =>
    obtain ⟨hq, rfl⟩ := ho
    rw [show c = _ from hc]
    simp only [FrameKind.fragmentKind, hq]
    exact ⟨v, rfl⟩
  | double =>
    obtain ⟨hq, rfl⟩ := ho
    rw [show c = _ from hc]
    simp only [FrameKind.fragmentKind, hq]
    exact ⟨v, rfl⟩
  | dollarSingle =>
    obtain ⟨hq, hspans⟩ := ho
    rw [show c = _ from hc]
    simp only [FrameKind.fragmentKind, hq]
    exact ⟨o, v, rfl, hspans⟩
  | parameter =>
    rw [show c = _ from hc]
    exact .inl ⟨o, v, rfl, ho⟩
  | simple =>
    obtain ⟨byte, hbyte, hspans⟩ := ho
    rw [show c = _ from hc, append_nil]
    exact .inr ⟨o, v, byte, rfl, hspans, hbyte⟩
  | arithmetic => exact ⟨o, v, c, rfl, ho, hc⟩
  | backquote =>
    rw [show o = _ from ho, show c = _ from hc]
    exact ⟨v, rfl⟩
  | command => exact hc.elim

/-! ### Words in the making -/

/-- A kind of fragment that has no fragments inside. -/
def isLeaf : FragmentKind → Bool
  | .text | .escape | .continuation => true
  | _ => false

/-- A fragment `f` inside the fragment `g`. -/
structure Inner (f g : Fragment) (closed : Prop) : Prop where
  branch : isLeaf g.kind = false
  stop : closed → f.stop ≤ g.stop
  command : g.kind = .command → f.kind = .continuation

/-- Fragments over a spelling, of which those in `opens` are still open and the others are
spelled as `S` demands. -/
structure Sketch (S : Fragment → Bytes → Prop) (raw : Bytes) (fragments : List Fragment)
    (opens : List ℕ) : Prop where
  laid : ∃ stack, Laid fragments stack ∧ opens <:+ stack ∧
    (opens = [] → rootStop fragments stack = raw.length)
  begins : ∀ f ∈ fragments, f.begin ≤ raw.length
  closed : ∀ (i : ℕ) (f : Fragment), fragments[i]? = some f → i ∉ opens →
    f.begin ≤ f.stop ∧ f.stop ≤ raw.length ∧ S f (slice raw f.begin f.stop)
  nested : ∀ (i : ℕ) (f : Fragment) (p : ℕ) (g : Fragment), fragments[i]? = some f → f.parent = some p → fragments[p]? = some g →
    Inner f g (p ∉ opens)

theorem slice_append {raw : Bytes} {begin stop : ℕ} (h : stop ≤ raw.length) (more : Bytes) :
    slice (raw ++ more) begin stop = slice raw begin stop := by
  unfold slice
  by_cases hle : begin ≤ raw.length
  · rw [drop_append_of_le_length hle, take_append_of_le_length]
    rw [length_drop]
    omega
  · rw [show stop - begin = 0 by omega, take_zero, take_zero]

namespace Sketch

variable {S : Fragment → Bytes → Prop} {raw : Bytes} {fragments : List Fragment} {opens : List ℕ}

section

variable (h : Sketch S raw fragments opens)
include h

theorem lt : ∀ i ∈ opens, i < fragments.length := by
  obtain ⟨stack, hlaid, hsuffix, -⟩ := h.laid
  intro i hi
  exact hlaid.lt i (hsuffix.subset hi)

/-- An open fragment reads on. -/
theorem read (hne : opens ≠ []) (more : Bytes) :
    Sketch S (raw ++ more) fragments opens where
  laid := by
    obtain ⟨stack, hlaid, hsuffix, -⟩ := h.laid
    exact ⟨stack, hlaid, hsuffix, fun hnil => absurd hnil hne⟩
  begins f hf := by
    rw [length_append]
    exact (h.begins f hf).trans (Nat.le_add_right _ _)
  closed i f hi hopen := by
    obtain ⟨hle, hstop, hsealed⟩ := h.closed i f hi hopen
    rw [length_append, slice_append hstop]
    exact ⟨hle, hstop.trans (Nat.le_add_right _ _), hsealed⟩
  nested := h.nested

/-- All fragments that are not open end before the spelling does. -/
theorem add (hp : f.parent = opens.head?) (hb : f.begin = raw.length) :
    ∃ stack, Laid (fragments ++ [f]) stack ∧ fragments.length :: opens = stack := by
  obtain ⟨stack, hlaid, ⟨popped, rfl⟩, hroot⟩ := h.laid
  refine ⟨_, .snoc hlaid hp ?_ ?_ ?_, rfl⟩
  · intro i g hi hopen
    rw [hb]
    exact (h.closed i g hi hopen).2.1
  · intro g hg
    rw [hb]
    exact h.begins g hg
  · intro hnil
    have := hroot hnil
    rw [hnil, append_nil] at this
    rw [hb, this]

/-- The parent of a new fragment is the innermost open one. -/
theorem add_nested (hp : f.parent = opens.head?)
    (hin : ∀ p g, opens.head? = some p → fragments[p]? = some g →
      isLeaf g.kind = false ∧ (g.kind = .command → f.kind = .continuation))
    {i p : ℕ} {f' g : Fragment} (hi : (fragments ++ [f])[i]? = some f') (hparent : f'.parent = some p)
    (hg : (fragments ++ [f])[p]? = some g) : Inner f' g (p ∉ opens) ∧ p < fragments.length := by
  have hold : ∀ {j : ℕ} {x : Fragment}, (fragments ++ [f])[j]? = some x → j < fragments.length →
      fragments[j]? = some x := by
    intro j x hj hlt
    rwa [getElem?_append_left hlt] at hj
  obtain ⟨stack, hlaid, hsuffix, -⟩ := h.laid
  have hbelow : ∀ {j : ℕ} {x : Fragment}, fragments[j]? = some x → ∀ q, x.parent = some q →
      q < fragments.length :=
    fun hj q hq => (hlaid.parent_lt hj q hq).trans (List.getElem?_eq_some_iff.mp hj).1
  rcases concat_cases hi with ⟨-, hi⟩ | ⟨rfl, rfl⟩
  · have hp' := hbelow hi p hparent
    exact ⟨h.nested i f' p g hi hparent (hold hg hp'), hp'⟩
  · rw [hp] at hparent
    have hmem : p ∈ opens := mem_of_mem_head? hparent
    have hlt' := h.lt p hmem
    obtain ⟨hbranch, hcommand⟩ := hin p g hparent (hold hg hlt')
    exact ⟨⟨hbranch, fun hclosed => absurd hmem hclosed, hcommand⟩, hlt'⟩

/-- A piece without fragments inside is read. -/
theorem leaf (hp : f.parent = opens.head?) (hb : f.begin = raw.length)
    (hstop : f.stop = (raw ++ w).length) (hs : S f w)
    (hin : ∀ p g, opens.head? = some p → fragments[p]? = some g →
      isLeaf g.kind = false ∧ (g.kind = .command → f.kind = .continuation)) :
    Sketch S (raw ++ w) (fragments ++ [f]) opens where
  laid := by
    obtain ⟨stack, hlaid, rfl⟩ := h.add hp hb
    refine ⟨_, hlaid, suffix_cons _ _, ?_⟩
    intro hnil
    subst hnil
    unfold rootStop
    simp [hstop]
  begins g hg := by
    rw [length_append]
    rcases mem_append.mp hg with hg | hg
    · exact (h.begins g hg).trans (Nat.le_add_right _ _)
    · cases mem_singleton.mp hg
      omega
  closed i g hi hopen := by
    rcases concat_cases hi with ⟨-, hi⟩ | ⟨rfl, rfl⟩
    · obtain ⟨hle, hend, hsealed⟩ := h.closed i g hi hopen
      rw [length_append, slice_append hend]
      exact ⟨hle, hend.trans (Nat.le_add_right _ _), hsealed⟩
    · have hslice : slice (raw ++ w) f.begin f.stop = w := by
        unfold slice
        rw [hb, hstop, drop_left, length_append, Nat.add_sub_cancel_left, take_length]
      rw [hslice]
      refine ⟨?_, Nat.le_of_eq hstop, hs⟩
      rw [hb, hstop, length_append]
      exact Nat.le_add_right _ _
  nested i f' p g hi hparent hg := (h.add_nested hp hin hi hparent hg).1

/-- A text goes on. -/
theorem join (hf : fragments.getLast? = some f) (hk : f.kind = .text) (hp : f.parent = opens.head?)
    (hg : ∀ x, (g x).begin = x.begin ∧ (g x).parent = x.parent ∧ (g x).kind = x.kind ∧
      (g x).stop = (raw ++ w).length) (ht : S (g f) (slice (raw ++ w) (g f).begin (g f).stop)) :
    Sketch S (raw ++ w) (fragments.modify (fragments.length - 1) g) opens := by
  obtain ⟨stack, hlaid, hsuffix, hroot⟩ := h.laid
  obtain ⟨kept, rfl, hparent⟩ := hlaid.top hf
  rw [getLast?_eq_getElem?] at hf
  have hlen : (raw ++ w).length = raw.length + w.length := length_append
  have hlaid' := hlaid.modify mem_cons_self fun x => ⟨(hg x).1, (hg x).2.1⟩
  refine ⟨⟨_, hlaid', hsuffix, ?_⟩, ?_, ?_, ?_⟩
  · intro hnil
    have hkept : kept = [] := by
      rw [hparent, hnil, head?_nil] at hp
      exact head?_eq_none_iff.mp hp
    unfold rootStop
    rw [hkept, getLast?_singleton, Option.bind_some, getElem?_modify_eq, hf]
    exact (hg f).2.2.2
  · intro x hx
    rcases mem_modify hx with hx | ⟨y, hy, rfl⟩
    · exact (h.begins x hx).trans (by omega)
    · rw [(hg y).1]
      exact (h.begins y hy).trans (by omega)
  · intro i x hi hclosed
    by_cases heq : fragments.length - 1 = i
    · subst heq
      rw [getElem?_modify_eq, hf] at hi
      cases hi
      have hbegin := h.begins f (mem_of_getElem? hf)
      refine ⟨?_, Nat.le_of_eq (hg f).2.2.2, ?_⟩
      · rw [(hg f).1, (hg f).2.2.2]
        omega
      · exact ht
    · rw [getElem?_modify_ne g fragments heq] at hi
      obtain ⟨hle, hend, hsealed⟩ := h.closed i x hi hclosed
      rw [slice_append hend]
      exact ⟨hle, hend.trans (by omega), hsealed⟩
  · intro i x p y hi hparent' hp'
    by_cases hpe : fragments.length - 1 = p
    · -- The last fragment is a text: nothing is inside it.
      subst hpe
      by_cases hie : fragments.length - 1 = i
      · subst hie
        have := hlaid'.parent_lt hi _ hparent'
        omega
      · rw [getElem?_modify_ne g fragments hie] at hi
        have := (h.nested i x _ f hi hparent' hf).branch
        rw [hk] at this
        cases this
    · rw [getElem?_modify_ne g fragments hpe] at hp'
      by_cases hie : fragments.length - 1 = i
      · subst hie
        rw [getElem?_modify_eq, hf] at hi
        cases hi
        rw [(hg f).2.1] at hparent'
        have hinner := h.nested _ f p y hf hparent' hp'
        refine ⟨hinner.branch, ?_, ?_⟩
        · intro hclosed
          rw [hp] at hparent'
          exact absurd (mem_of_mem_head? hparent') hclosed
        · intro hcommand
          exact (hg f).2.2.1.trans (hinner.command hcommand)
      · rw [getElem?_modify_ne g fragments hie] at hi
        exact h.nested i x p y hi hparent' hp'

end

/-- A fragment is opened. -/
theorem push (h : Sketch S raw fragments opens) (hp : f.parent = opens.head?)
    (hb : f.begin = raw.length)
    (hin : ∀ p g, opens.head? = some p → fragments[p]? = some g →
      isLeaf g.kind = false ∧ (g.kind = .command → f.kind = .continuation)) :
    Sketch S raw (fragments ++ [f]) (fragments.length :: opens) where
  laid := by
    obtain ⟨stack, hlaid, rfl⟩ := h.add hp hb
    exact ⟨_, hlaid, suffix_refl _, fun hnil => by cases hnil⟩
  begins g hg := by
    rcases mem_append.mp hg with hg | hg
    · exact h.begins g hg
    · cases mem_singleton.mp hg
      exact Nat.le_of_eq hb
  closed i g hi hopen := by
    rw [mem_cons, not_or] at hopen
    rcases concat_cases hi with ⟨-, hi⟩ | ⟨heq, -⟩
    · exact h.closed i g hi hopen.2
    · exact absurd heq hopen.1
  nested i f' p g hi hparent hg := by
    obtain ⟨hinner, hlt⟩ := h.add_nested hp hin hi hparent hg
    refine ⟨hinner.branch, ?_, hinner.command⟩
    intro hclosed
    exact hinner.stop fun hmem => hclosed (mem_cons_of_mem _ hmem)

/-- The innermost open fragment is closed. -/
theorem close {j : ℕ} (h : Sketch S raw fragments (j :: opens))
    (hf : fragments[j]? = some f)
    (hg : ∀ x, (g x).begin = x.begin ∧ (g x).parent = x.parent ∧ (g x).kind = x.kind ∧
      (g x).stop = raw.length)
    (hs : S (g f) (raw.drop f.begin)) : Sketch S raw (fragments.modify j g) opens := by
  obtain ⟨stack, hlaid, ⟨above, rfl⟩, -⟩ := h.laid
  have hmem : j ∈ above ++ j :: opens := mem_append_right _ mem_cons_self
  have hlaid' := hlaid.modify hmem fun x => ⟨(hg x).1, (hg x).2.1⟩
  obtain ⟨f', hf', hparent⟩ := hlaid.parent_eq rfl
  rw [hf] at hf'
  cases hf'
  have hbelow : ∀ i ∈ opens, i < j := by
    intro i hi
    exact (pairwise_cons.mp (pairwise_append.mp hlaid.sorted).2.1).1 i hi
  refine ⟨⟨_, hlaid', ⟨above ++ [j], by simp⟩, ?_⟩, ?_, ?_, ?_⟩
  · intro hnil
    subst hnil
    unfold rootStop
    rw [getLast?_concat, Option.bind_some, getElem?_modify_eq, hf]
    exact (hg f).2.2.2
  · intro x hx
    rcases mem_modify hx with hx | ⟨y, hy, rfl⟩
    · exact h.begins x hx
    · rw [(hg y).1]
      exact h.begins y hy
  · intro i x hi hclosed
    by_cases heq : j = i
    · subst heq
      rw [getElem?_modify_eq, hf] at hi
      cases hi
      have hbegin := h.begins f (mem_of_getElem? hf)
      refine ⟨?_, Nat.le_of_eq (hg f).2.2.2, ?_⟩
      · rw [(hg f).1, (hg f).2.2.2]
        exact hbegin
      · have hslice : slice raw (g f).begin (g f).stop = raw.drop f.begin := by
          unfold slice
          rw [(hg f).1, (hg f).2.2.2, ← length_drop, take_length]
        rw [hslice]
        exact hs
    · rw [getElem?_modify_ne g fragments heq] at hi
      refine h.closed i x hi ?_
      rw [mem_cons, not_or]
      exact ⟨fun h => heq h.symm, hclosed⟩
  · intro i x p y hi hparent' hp'
    have hlt := hlaid'.parent_lt hi p hparent'
    by_cases hpe : j = p
    · subst hpe
      have hie : j ≠ i := by omega
      rw [getElem?_modify_ne g fragments hie] at hi
      rw [getElem?_modify_eq, hf] at hp'
      cases hp'
      have hinner := h.nested i x j f hi hparent' hf
      refine ⟨by rw [(hg f).2.2.1]; exact hinner.branch, ?_, ?_⟩
      · intro _
        rw [(hg f).2.2.2]
        refine (h.closed i x hi ?_).2.1
        intro hmem
        rcases mem_cons.mp hmem with heq | hmem
        · exact hie heq.symm
        · have := hbelow i hmem
          omega
      · rw [(hg f).2.2.1]
        exact hinner.command
    · rw [getElem?_modify_ne g fragments hpe] at hp'
      by_cases hie : j = i
      · subst hie
        rw [getElem?_modify_eq, hf] at hi
        cases hi
        rw [(hg f).2.1] at hparent'
        have hinner := h.nested j f p y hf hparent' hp'
        refine ⟨hinner.branch, ?_, ?_⟩
        · intro hclosed
          rw [hparent] at hparent'
          exact absurd (mem_of_mem_head? hparent') hclosed
        · intro hcommand
          exact (hg f).2.2.1.trans (hinner.command hcommand)
      · rw [getElem?_modify_ne g fragments hie] at hi
        have hinner := h.nested i x p y hi hparent' hp'
        refine ⟨hinner.branch, ?_, hinner.command⟩
        intro hclosed
        refine hinner.stop ?_
        rw [mem_cons, not_or]
        exact ⟨fun h => hpe h.symm, hclosed⟩

end Sketch

/-- Fragments over a spelling, of which those in `opens` are still open. -/
structure Core (d : Decoder) (raw : Bytes) (fragments : List Fragment) (opens : List ℕ) : Prop where
  laid : ∃ stack, Laid fragments stack ∧ opens <:+ stack ∧
    (opens = [] → rootStop fragments stack = raw.length)
  begins : ∀ f ∈ fragments, f.begin ≤ raw.length
  closed : ∀ (i : ℕ) (f : Fragment), fragments[i]? = some f → i ∉ opens →
    f.begin ≤ f.stop ∧ f.stop ≤ raw.length ∧ Sealed d f (slice raw f.begin f.stop)
  nested : ∀ (i : ℕ) (f : Fragment) (p : ℕ) (g : Fragment), fragments[i]? = some f → f.parent = some p → fragments[p]? = some g →
    Inner f g (p ∉ opens)

theorem Core.sketch {d : Decoder} {raw : Bytes} {fragments : List Fragment} {opens : List ℕ}
    (h : Core d raw fragments opens) : Sketch (Sealed d) raw fragments opens :=
  ⟨h.laid, h.begins, h.closed, h.nested⟩

theorem Sketch.core {d : Decoder} {raw : Bytes} {fragments : List Fragment} {opens : List ℕ}
    (h : Sketch (Sealed d) raw fragments opens) : Core d raw fragments opens :=
  ⟨h.laid, h.begins, h.closed, h.nested⟩

theorem sealed_text (d : Decoder) (f : Fragment) (w : Bytes) (hk : f.kind = .text) : Sealed d f w := by
  unfold Sealed
  rw [hk]
  trivial

namespace Core

variable {d : Decoder} {raw : Bytes} {fragments : List Fragment} {opens : List ℕ}

section

variable (h : Core d raw fragments opens)
include h

theorem lt : ∀ i ∈ opens, i < fragments.length :=
  h.sketch.lt

/-- An open fragment reads on. -/
theorem read (hne : opens ≠ []) (more : Bytes) : Core d (raw ++ more) fragments opens :=
  (h.sketch.read hne more).core

/-- A piece without fragments inside is read. -/
theorem leaf (hp : f.parent = opens.head?) (hb : f.begin = raw.length)
    (hstop : f.stop = (raw ++ w).length) (hs : Sealed d f w)
    (hin : ∀ p g, opens.head? = some p → fragments[p]? = some g →
      isLeaf g.kind = false ∧ (g.kind = .command → f.kind = .continuation)) :
    Core d (raw ++ w) (fragments ++ [f]) opens :=
  (h.sketch.leaf hp hb hstop hs hin).core

/-- A text goes on. -/
theorem join (hf : fragments.getLast? = some f) (hk : f.kind = .text) (hp : f.parent = opens.head?)
    (hg : ∀ x, (g x).begin = x.begin ∧ (g x).parent = x.parent ∧ (g x).kind = x.kind ∧
      (g x).stop = (raw ++ w).length) :
    Core d (raw ++ w) (fragments.modify (fragments.length - 1) g) opens :=
  (h.sketch.join hf hk hp hg (sealed_text d _ _ ((hg f).2.2.1.trans hk))).core

end

/-- A fragment is opened. -/
theorem push (h : Core d raw fragments opens) (hp : f.parent = opens.head?)
    (hb : f.begin = raw.length)
    (hin : ∀ p g, opens.head? = some p → fragments[p]? = some g →
      isLeaf g.kind = false ∧ (g.kind = .command → f.kind = .continuation)) :
    Core d raw (fragments ++ [f]) (fragments.length :: opens) :=
  (h.sketch.push hp hb hin).core

/-- The innermost open fragment is closed. -/
theorem close {j : ℕ} (h : Core d raw fragments (j :: opens))
    (hf : fragments[j]? = some f)
    (hg : ∀ x, (g x).begin = x.begin ∧ (g x).parent = x.parent ∧ (g x).kind = x.kind ∧
      (g x).stop = raw.length)
    (hs : Sealed d (g f) (raw.drop f.begin)) : Core d raw (fragments.modify j g) opens :=
  (h.sketch.close hf hg hs).core

end Core

/-- The innermost frame may have a fragment inside; that of a command substitution only a
continuation. -/
theorem opened_top {fragments : List Fragment} {frames : List Frame} {kind : FragmentKind}
    (h : ∀ frame ∈ frames, ∃ f, fragments[frame.fragment]? = some f ∧
      f.kind = frame.kind.fragmentKind)
    (hc : (∀ frame ∈ frames.head?, frame.kind ≠ .command) ∨ kind = .continuation) :
    ∀ p g, (frames.map Frame.fragment).head? = some p → fragments[p]? = some g →
      isLeaf g.kind = false ∧ (g.kind = .command → kind = .continuation) := by
  intro p g hp hg
  rw [head?_map] at hp
  obtain ⟨frame, hframe, rfl⟩ := Option.map_eq_some_iff.mp hp
  obtain ⟨f, hf, hkind⟩ := h frame (mem_of_mem_head? hframe)
  rw [hg] at hf
  cases hf
  rw [hkind]
  rcases hc with hc | hc
  · have hne := hc frame hframe
    cases hk : frame.kind with
    | command => exact absurd hk hne
    | _ => exact ⟨rfl, fun h => by cases h⟩
  · refine ⟨?_, fun _ => hc⟩
    cases frame.kind <;> rfl

/-- The shape of a word: a command substitution has no frames inside, and a
continuation inside it lies in its opening. -/
structure Shape (d : Decoder) (raw : Bytes) (fragments : List Fragment) (frames : List Frame) :
    Prop where
  core : Core d raw fragments (frames.map Frame.fragment)
  single : ∀ frame ∈ frames.tail, frame.kind ≠ .command
  opened : ∀ frame ∈ frames, ∃ f, fragments[frame.fragment]? = some f ∧
    f.kind = frame.kind.fragmentKind ∧ Opened frame.kind f.quote (raw.drop f.begin)
  inside : ∀ (i : ℕ) (f : Fragment) (p : ℕ) (g : Fragment), fragments[i]? = some f →
    f.parent = some p → fragments[p]? = some g → g.kind = .command →
    ∃ o, o <+: raw.drop g.begin ∧ Spans [byteOf '$', byteOf '('] o ∧
      f.stop ≤ g.begin + o.length ∧
      (p ∉ frames.map Frame.fragment → g.begin + o.length ≤ g.stop)

namespace Shape

variable {d : Decoder} {raw : Bytes} {fragments : List Fragment} {frames : List Frame}

theorem nil (d : Decoder) : Shape d [] [] [] where
  core := ⟨⟨[], .nil, suffix_refl _, fun _ => rfl⟩, by simp, by simp, by simp⟩
  single := by simp
  opened := by simp
  inside := by simp

/-- What a spelling begins with it goes on to begin with. -/
theorem starts_append {o : Bytes} {begin : ℕ} (h : o <+: raw.drop begin) (hle : begin ≤ raw.length)
    (more : Bytes) : o <+: (raw ++ more).drop begin := by
  rw [drop_append_of_le_length hle]
  exact h.trans (prefix_append _ _)

section

variable (h : Shape d raw fragments frames)
include h

theorem begin_le {i : ℕ} (hf : fragments[i]? = some f) : f.begin ≤ raw.length :=
  h.core.begins f (mem_of_getElem? hf)

/-- The fragment of a frame is neither a text nor a continuation. -/
theorem branch {frame : Frame} (hframe : frame ∈ frames)
    (hf : fragments[frame.fragment]? = some f) : isLeaf f.kind = false := by
  obtain ⟨g, hg, hkind, -⟩ := h.opened frame hframe
  rw [hf] at hg
  cases hg
  rw [hkind]
  cases frame.kind <;> rfl

/-- The innermost frame may have a fragment inside. -/
theorem top (hc : ∀ frame ∈ frames.head?, frame.kind ≠ .command) (kind : FragmentKind) :
    ∀ p g, (frames.map Frame.fragment).head? = some p → fragments[p]? = some g →
      isLeaf g.kind = false ∧ (g.kind = .command → kind = .continuation) :=
  opened_top (fun frame hframe => (h.opened frame hframe).imp fun _ hf => ⟨hf.1, hf.2.1⟩) (.inl hc)

/-- Fragments and frames over a spelling that goes on: what the frames opened stays. -/
theorem grow {fragments' : List Fragment}
    (hcore : Core d (raw ++ w) fragments' (frames.map Frame.fragment))
    (hold : ∀ (i : ℕ) (f : Fragment), isLeaf f.kind = false →
      (fragments'[i]? = some f ↔ fragments[i]? = some f))
    (hnew : ∀ (i : ℕ) (f : Fragment) (p : ℕ) (g : Fragment), fragments'[i]? = some f →
      f.parent = some p → fragments[p]? = some g → g.kind = .command → fragments[i]? = some f) :
    Shape d (raw ++ w) fragments' frames := by
  refine ⟨hcore, h.single, ?_, ?_⟩
  · intro frame hframe
    obtain ⟨f, hf, hkind, hopened⟩ := h.opened frame hframe
    refine ⟨f, (hold _ f (h.branch hframe hf)).mpr hf, hkind, ?_⟩
    rw [drop_append_of_le_length (h.begin_le hf)]
    exact hopened.append w
  · intro i f p g hi hparent hg hk
    have hg' := (hold p g (by rw [hk]; rfl)).mp hg
    obtain ⟨o, ho, hspans, hend⟩ := h.inside i f p g (hnew i f p g hi hparent hg' hk) hparent hg' hk
    exact ⟨o, starts_append ho (h.begin_le hg') w, hspans, hend⟩

/-- An open fragment reads on. -/
theorem read (hne : frames ≠ []) (more : Bytes) : Shape d (raw ++ more) fragments frames :=
  h.grow (h.core.read (by simpa using hne) more) (fun _ _ _ => Iff.rfl) fun _ _ _ _ hi _ _ _ => hi

/-- A piece is read. -/
theorem leaf (hc : ∀ frame ∈ frames.head?, frame.kind ≠ .command)
    (hp : f.parent = frames.head?.map Frame.fragment) (hb : f.begin = raw.length)
    (hstop : f.stop = (raw ++ w).length) (hk : isLeaf f.kind = true) (hs : Sealed d f w) :
    Shape d (raw ++ w) (fragments ++ [f]) frames := by
  refine h.grow (h.core.leaf (by rw [hp, head?_map]) hb hstop hs (h.top hc _)) ?_ ?_
  · intro i g hg
    rcases Nat.lt_or_ge i fragments.length with hlt | hge
    · rw [getElem?_append_left hlt]
    · rw [getElem?_append_right hge, getElem?_eq_none hge]
      constructor
      · intro hi
        have := mem_of_getElem? hi
        rw [mem_singleton.mp this, hk] at hg
        cases hg
      · intro hi
        cases hi
  · intro i x p g hi hparent hg hcommand
    rcases Nat.lt_or_ge i fragments.length with hlt | hge
    · rwa [getElem?_append_left hlt] at hi
    · rw [getElem?_append_right hge] at hi
      cases mem_singleton.mp (mem_of_getElem? hi)
      rw [hp] at hparent
      have htop := h.top hc .text p g (by rw [head?_map, hparent]) hg
      have := htop.2 hcommand
      cases this

/-- A text goes on. -/
theorem join (hc : ∀ frame ∈ frames.head?, frame.kind ≠ .command)
    (hf : fragments.getLast? = some f) (hk : f.kind = .text)
    (hp : f.parent = frames.head?.map Frame.fragment)
    (hg : ∀ x, (g x).begin = x.begin ∧ (g x).parent = x.parent ∧ (g x).kind = x.kind ∧
      (g x).stop = (raw ++ w).length) :
    Shape d (raw ++ w) (fragments.modify (fragments.length - 1) g) frames := by
  refine h.grow (h.core.join hf hk (by rw [hp, head?_map]) hg) ?_ ?_
  · -- The changed fragment is a text, so it is neither open nor around others.
    intro i x hx
    by_cases heq : fragments.length - 1 = i
    · subst heq
      rw [getElem?_modify_eq, ← getLast?_eq_getElem?, hf]
      constructor
      · intro hi
        cases hi
        rw [(hg f).2.2.1, hk] at hx
        cases hx
      · intro hi
        cases hi
        rw [hk] at hx
        cases hx
    · rw [getElem?_modify_ne g fragments heq]
  · intro i x p y hi hparent hy hcommand
    by_cases heq : fragments.length - 1 = i
    · subst heq
      rw [getElem?_modify_eq, ← getLast?_eq_getElem?, hf] at hi
      cases hi
      rw [(hg f).2.1, hp] at hparent
      have htop := h.top hc .text p y (by rw [head?_map, hparent]) hy
      have := htop.2 hcommand
      cases this
    · rwa [getElem?_modify_ne g fragments heq] at hi

end

/-- The fragment of a frame is opened; `Core` has followed the bytes of its opening,
which may be interrupted by continuations. -/
theorem push (h : Shape d raw fragments frames)
    (hc : ∀ frame ∈ frames.head?, frame.kind ≠ .command) {frame : Frame}
    {fragments' : List Fragment} (hn : frame.fragment = fragments.length)
    (hk : f.kind = frame.kind.fragmentKind) (hp : f.parent = frames.head?.map Frame.fragment)
    (hb : f.begin = raw.length) (ho : Openers f.quote w frame.kind)
    (hcore : Core d (raw ++ w) fragments' (fragments.length :: frames.map Frame.fragment))
    (hfirst : fragments ++ [f] <+: fragments')
    (hnew : ∀ i g, fragments'[i]? = some g → fragments.length < i →
      g.parent = some fragments.length) :
    Shape d (raw ++ w) fragments' (frame :: frames) := by
  obtain ⟨more, rfl⟩ := hfirst
  have hold : ∀ {i : ℕ} {g : Fragment}, fragments[i]? = some g →
      (fragments ++ [f] ++ more)[i]? = some g := by
    intro i g hi
    have hlt := (List.getElem?_eq_some_iff.mp hi).1
    rw [append_assoc, getElem?_append_left hlt, hi]
  have hself : (fragments ++ [f] ++ more)[fragments.length]? = some f := by
    rw [append_assoc, getElem?_append_right (Nat.le_refl _), Nat.sub_self]
    rfl
  have hback : ∀ {i : ℕ} {g : Fragment}, (fragments ++ [f] ++ more)[i]? = some g →
      i < fragments.length → fragments[i]? = some g := by
    intro i g hi hlt
    rwa [append_assoc, getElem?_append_left hlt] at hi
  have htext : (raw ++ w).drop f.begin = w := by rw [hb, drop_left]
  refine ⟨by rw [map_cons, hn]; exact hcore, ?_, ?_, ?_⟩
  · intro frame' hframe
    rw [tail_cons] at hframe
    cases frames with
    | nil => cases hframe
    | cons first rest =>
      rcases mem_cons.mp hframe with rfl | hframe
      · exact hc _ rfl
      · exact h.single frame' hframe
  · intro frame' hframe
    rcases mem_cons.mp hframe with rfl | hframe
    · refine ⟨f, by rw [hn]; exact hself, hk, ?_⟩
      rw [htext]
      exact ⟨w, prefix_refl _, ho⟩
    · obtain ⟨g, hg, hkind, hopened⟩ := h.opened frame' hframe
      refine ⟨g, hold hg, hkind, ?_⟩
      rw [drop_append_of_le_length (h.begin_le hg)]
      exact hopened.append w
  · intro i x p g hi hparent hg hcommand
    obtain ⟨stack, hlaid, -⟩ := hcore.laid
    have hless := hlaid.parent_lt hi p hparent
    rcases Nat.lt_trichotomy i fragments.length with hi' | rfl | hi'
    · have hg' := hback hg (hless.trans hi')
      obtain ⟨o, hstart, hspans, hend, hclosed⟩ :=
        h.inside i x p g (hback hi hi') hparent hg' hcommand
      refine ⟨o, starts_append hstart (h.begin_le hg') w, hspans, hend, ?_⟩
      intro hmem
      rw [map_cons, mem_cons, not_or] at hmem
      exact hclosed hmem.2
    · rw [hself] at hi
      cases hi
      rw [hp] at hparent
      have htop := h.top hc .text p g (by rw [head?_map, hparent]) (hback hg hless)
      have := htop.2 hcommand
      cases this
    · have heq : p = fragments.length := by
        have := hnew i x hi hi'
        rw [hparent] at this
        exact Option.some.inj this
      subst heq
      rw [hself] at hg
      cases hg
      rw [hk] at hcommand
      have hkind : frame.kind = .command := by
        cases hkind : frame.kind <;> rw [hkind] at hcommand <;> first | rfl | cases hcommand
      rw [hkind] at ho
      refine ⟨w, by rw [htext], ho, ?_, ?_⟩
      · have hclosed : i ∉ fragments.length :: frames.map Frame.fragment := by
          intro hmem
          rcases mem_cons.mp hmem with heq | hmem
          · omega
          · have := h.core.lt i hmem
            omega
        have := (hcore.closed i x hi hclosed).2.1
        rw [length_append] at this
        omega
      · intro hmem
        rw [map_cons, hn] at hmem
        exact absurd mem_cons_self hmem

/-- What is known of the innermost frame apart from its kind does not matter. -/
theorem relabel {frame frame' : Frame} (h : Shape d raw fragments (frame :: frames))
    (hk : frame'.kind = frame.kind) (hf : frame'.fragment = frame.fragment) :
    Shape d raw fragments (frame' :: frames) where
  core := by
    have := h.core
    rwa [map_cons, ← hf, ← map_cons] at this
  single := h.single
  opened x hx := by
    rcases mem_cons.mp hx with rfl | hx
    · rw [hk, hf]
      exact h.opened frame mem_cons_self
    · exact h.opened x (mem_cons_of_mem _ hx)
  inside := by
    have := h.inside
    rwa [map_cons, ← hf, ← map_cons] at this

/-- The innermost frame is popped. -/
theorem pop {frame : Frame} (h : Shape d raw fragments (frame :: frames))
    (hg : ∀ x, (g x).begin = x.begin ∧ (g x).parent = x.parent ∧ (g x).kind = x.kind ∧
      (g x).stop = raw.length ∧ (g x).quote = x.quote)
    (hs : ∀ f, fragments[frame.fragment]? = some f → f.kind = frame.kind.fragmentKind →
      Sealed d (g f) (raw.drop f.begin)) :
    Shape d raw (fragments.modify frame.fragment g) frames := by
  obtain ⟨f, hf, hkind, -⟩ := h.opened frame mem_cons_self
  have hcore := h.core.close hf
    (fun x => ⟨(hg x).1, (hg x).2.1, (hg x).2.2.1, (hg x).2.2.2.1⟩) (hs f hf hkind)
  obtain ⟨stack, hlaid, ⟨above, rfl⟩, -⟩ := h.core.laid
  have hbelow : ∀ i ∈ frames.map Frame.fragment, frame.fragment ≠ i := by
    intro i hi
    have hsorted := (pairwise_append.mp hlaid.sorted).2.1
    exact Nat.ne_of_gt ((pairwise_cons.mp hsorted).1 i hi)
  have hget : ∀ {i : ℕ} {x : Fragment}, (fragments.modify frame.fragment g)[i]? = some x →
      ∃ y, fragments[i]? = some y ∧ x.begin = y.begin ∧ x.parent = y.parent ∧ x.kind = y.kind ∧
        (x = y ∧ i ≠ frame.fragment ∨ i = frame.fragment ∧ x.stop = raw.length) := by
    intro i x hi
    by_cases heq : frame.fragment = i
    · subst heq
      rw [getElem?_modify_eq, hf] at hi
      cases hi
      exact ⟨f, hf, (hg f).1, (hg f).2.1, (hg f).2.2.1, .inr ⟨rfl, (hg f).2.2.2.1⟩⟩
    · rw [getElem?_modify_ne g fragments heq] at hi
      exact ⟨x, hi, rfl, rfl, rfl, .inl ⟨rfl, Ne.symm heq⟩⟩
  have houter : ∀ {frame' : Frame}, frame' ∈ frames →
      (fragments.modify frame.fragment g)[frame'.fragment]? = fragments[frame'.fragment]? :=
    fun hframe => getElem?_modify_ne g fragments (hbelow _ (mem_map_of_mem hframe))
  refine ⟨hcore, fun frame' hframe => h.single frame' (mem_of_mem_tail hframe), ?_, ?_⟩
  · intro frame' hframe
    obtain ⟨x, hx, hkind', hopened⟩ := h.opened frame' (mem_cons_of_mem _ hframe)
    exact ⟨x, (houter hframe).trans hx, hkind', hopened⟩
  · intro i x p y hi hparent hy hcommand
    obtain ⟨x', hx', -, hxparent, hxkind, hxstop⟩ := hget hi
    obtain ⟨y', hy', hybegin, -, hykind, hystop⟩ := hget hy
    rw [hxparent] at hparent
    rw [hykind] at hcommand
    obtain ⟨o, hstart, hspans, hend, hclosed⟩ := h.inside i x' p y' hx' hparent hy' hcommand
    rw [hybegin]
    refine ⟨o, hstart, hspans, ?_, ?_⟩
    · rcases hxstop with ⟨rfl, -⟩ | ⟨rfl, -⟩
      · exact hend
      · -- A frame inside a command substitution would have to be a continuation.
        rw [hf] at hx'
        cases hx'
        have := (h.core.nested _ f p y' hf hparent hy').command hcommand
        rw [hkind] at this
        cases hk : frame.kind <;> rw [hk] at this <;> cases this
    · intro hmem
      rcases hystop with ⟨rfl, hne⟩ | ⟨rfl, hstop⟩
      · refine hclosed ?_
        rw [map_cons, mem_cons, not_or]
        exact ⟨hne, hmem⟩
      · have hlen := hstart.length_le
        rw [length_drop] at hlen
        have := h.begin_le hy'
        omega

end Shape

end Lexical
end CShell
