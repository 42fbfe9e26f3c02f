import CShell.Lexer.Physical

/-!
# Reading words of the input

The operations of the scanner keep a machine in the input: fragments are marked
at the positions of the bytes they cover, frames are pushed and popped together
with their fragments, and a candidate leaves a checkpoint from which it can be
replayed.

## References

`src/lexer.c` (`add_fragment`, `piece`, `delimiter`, `push`, `pop`,
`checkpoint_arithmetic`, `csh_lexer_replay_arithmetic`).
-/

namespace CShell
namespace Lexical

open Machine List

variable {origin : Position} {J fed : Bytes} {n low limit : ℕ} {starts : List (Option ℕ)}
  {l : Lexer} {m : Machine}

theorem OnTape.le_input {s : Source} (h : OnTape origin J fed n s) : n ≤ J.length :=
  h.le.trans h.input.length_le

theorem Held.length_raw {a : ℕ} (h : Held origin J a n limit l) (hn : n ≤ J.length) :
    l.raw.length = n - a := by
  rw [h.raw, extract_eq_take_drop, length_take, length_drop]
  omega

theorem Held.add_length {a : ℕ} (h : Held origin J a n limit l) (hn : n ≤ J.length) :
    a + l.raw.length = n := by
  have := h.length_raw hn
  have := h.start_le
  have := h.limit_le
  omega

theorem mem_modify {α : Type*} {f : α → α} {x : α} :
    ∀ {xs : List α} {i : ℕ}, x ∈ xs.modify i f → x ∈ xs ∨ ∃ y ∈ xs, x = f y
  | [], i, h => by simp at h
  | y :: ys, 0, h => by
    rw [modify_zero_cons] at h
    rcases mem_cons.mp h with rfl | h
    · exact .inr ⟨y, mem_cons_self, rfl⟩
    · exact .inl (mem_cons_of_mem _ h)
  | y :: ys, i + 1, h => by
    rw [modify_succ_cons] at h
    rcases mem_cons.mp h with rfl | h
    · exact .inl mem_cons_self
    · rcases mem_modify h with h | ⟨z, hz, rfl⟩
      · exact .inl (mem_cons_of_mem _ h)
      · exact .inr ⟨z, mem_cons_of_mem _ hz, rfl⟩

/-- A change at an index leaves what is before it. -/
theorem take_modify {α : Type*} {xs : List α} {i k : ℕ} (h : k ≤ i) (f : α → α) :
    (xs.modify i f).take k = xs.take k := by
  apply ext_getElem?
  intro j
  by_cases hj : j < k
  · have hne : ¬i = j := by omega
    rw [getElem?_take_of_lt hj, getElem?_take_of_lt hj, getElem?_modify]
    simp [hne]
  · rw [getElem?_take_eq_none (by omega), getElem?_take_eq_none (by omega)]

/-! ### Fragments -/

theorem Word.addFragment (h : Word origin J fed n low n starts l) (hn : n ≤ J.length)
    (hi : l.active = true) (kind : FragmentKind) (quote : Quote) :
    Word origin J fed n low n starts (l.addFragment kind quote) where
  held a ha := by
    obtain ⟨hlow, hheld⟩ := h.held a ha
    refine ⟨hlow, hheld.start, hheld.start_le, hheld.limit_le, hheld.raw, hheld.spelling, ?_⟩
    intro f hf
    rcases mem_append.mp hf with hf | hf
    · exact hheld.fragments f hf
    · rw [mem_singleton] at hf
      subst hf
      have hsum := hheld.add_length hn
      refine ⟨Nat.le_refl _, Nat.le_of_eq hsum, ?_, ?_⟩
      · show l.spellingPosition = _
        rw [hsum, hheld.spelling]
      · show l.spellingPosition = _
        rw [hsum, hheld.spelling]
  candidates := by
    refine (h.candidates.congr ?_).mono ?_ (Nat.le_refl _)
    · intro k hk
      exact take_append_of_le_length hk.le
    · show l.fragments.length ≤ (l.fragments ++ _).length
      rw [length_append]
      exact Nat.le_add_right _ _
  operator := h.operator
  command := h.command
  idle hi' := by
    have : l.active = false := hi'
    rw [hi] at this
    cases this
  comment := h.comment

/-- The spelling read so far ends a fragment. -/
theorem Held.finishFragment {a : ℕ} (h : Held origin J a n n l) (hn : n ≤ J.length) (index : ℕ) :
    Held origin J a n n (l.finishFragment index) := by
  refine ⟨h.start, h.start_le, h.limit_le, h.raw, h.spelling, ?_⟩
  intro f hf
  rcases mem_modify hf with hf | ⟨g, hg, rfl⟩
  · exact h.fragments f hf
  · have hmark := h.fragments g hg
    have hsum := h.add_length hn
    have hinside := hmark.inside
    have hordered := hmark.ordered
    refine ⟨?_, Nat.le_of_eq hsum, hmark.start, ?_⟩
    · show g.begin ≤ l.raw.length
      omega
    · show l.spellingPosition = _
      rw [hsum, h.spelling]

theorem Word.finishFragment (h : Word origin J fed n low n starts l) (hn : n ≤ J.length)
    (hi : l.active = true) {index : ℕ} (hindex : l.fragments.length ≤ index + 1) :
    Word origin J fed n low n starts (l.finishFragment index) where
  held a ha := ⟨(h.held a ha).1, (h.held a ha).2.finishFragment hn index⟩
  candidates := by
    show Candidates origin J fed _ (l.fragments.modify index _) low l.frames l.arithmetic
      (l.fragments.modify index _).length n
    rw [length_modify]
    refine h.candidates.congr ?_
    intro k hk
    exact take_modify (by omega) _
  operator := h.operator
  command := h.command
  idle hi' := by
    have : l.active = false := hi'
    rw [hi] at this
    cases this
  comment := h.comment

variable {frame : Frame} {c : Checkpoint} {cs previous : List Checkpoint} {count : ℕ}
  {quote : Quote}

/-- Pop a frame that is not a candidate, and end its fragment. -/
theorem Word.popFrame (h : Word origin J fed n low n starts l) (hn : n ≤ J.length)
    (hi : l.active = true) (hc : l.command = false) {frames : List Frame}
    (hf : l.frames = frame :: frames) (hk : frame.kind ≠ .arithmetic) :
    Word origin J fed n low n starts
      { l.finishFragment frame.fragment with frames := frames } where
  held a ha := ⟨(h.held a ha).1,
    ((h.held a ha).2.finishFragment hn frame.fragment).congr rfl rfl rfl rfl⟩
  candidates := by
    have hcand := h.candidates
    rw [hf] at hcand
    obtain ⟨hlt, hrest⟩ := hcand.tail hk
    show Candidates origin J fed _ (l.fragments.modify frame.fragment _) low frames l.arithmetic
      (l.fragments.modify frame.fragment _).length n
    rw [length_modify]
    refine (hrest.congr ?_).mono hlt.le (Nat.le_refl _)
    intro k hk
    exact take_modify hk.le _
  operator hkind := by
    have := h.operator hkind
    rw [hf] at this
    cases this
  command hc' := by
    have : l.command = true := hc'
    rw [hc] at this
    cases this
  idle hi' := by
    have : l.active = false := hi'
    rw [hi] at this
    cases this
  comment := h.comment

/-- Pop a candidate with its checkpoint. -/
theorem Word.popCandidate (h : Word origin J fed n low n starts l) (hn : n ≤ J.length)
    (hi : l.active = true) (hc : l.command = false) {frames : List Frame}
    (hf : l.frames = frame :: frames) (hk : frame.kind = .arithmetic)
    (ha : l.arithmetic = c :: cs) :
    Word origin J fed n low n starts
      { l.finishFragment frame.fragment with frames := frames, arithmetic := cs } where
  held a ha := ⟨(h.held a ha).1,
    ((h.held a ha).2.finishFragment hn frame.fragment).congr rfl rfl rfl rfl⟩
  candidates := by
    have hcand := h.candidates
    rw [hf, ha] at hcand
    obtain ⟨c', cs', k, heq, hlt, -, -, -, -, hle, hrest⟩ := hcand.checkpoint hk
    cases heq
    show Candidates origin J fed _ (l.fragments.modify frame.fragment _) low frames cs
      (l.fragments.modify frame.fragment _).length n
    rw [length_modify]
    refine (hrest.congr ?_).mono hlt.le hle
    intro k hk
    exact take_modify hk.le _
  operator hkind := by
    have := h.operator hkind
    rw [hf] at this
    cases this
  command hc' := by
    have : l.command = true := hc'
    rw [hc] at this
    cases this
  idle hi' := by
    have : l.active = false := hi'
    rw [hi] at this
    cases this
  comment := h.comment

/-! ### What the operations leave alone -/

/-- A machine whose deepest lexer read bytes of its token: only the tape, the
spellings and the fragments changed. -/
structure Reads (m m' : Machine) : Prop where
  failure : m'.source.failure = m.source.failure
  final : m'.source.final = m.source.final
  parents : m'.parents.length = m.parents.length
  lexer : ∃ raw position fragments, m.lexer.fragments.length ≤ fragments.length ∧
    m'.lexer = { m.lexer with raw, spellingPosition := position, fragments }

namespace Reads

variable {m m' m'' : Machine}

theorem refl (m : Machine) : Reads m m := ⟨rfl, rfl, rfl, _, _, _, Nat.le_refl _, rfl⟩

theorem trans (h : Reads m m') (h' : Reads m' m'') : Reads m m'' := by
  obtain ⟨raw, position, fragments, hle, heq⟩ := h.lexer
  obtain ⟨raw', position', fragments', hle', heq'⟩ := h'.lexer
  rw [heq] at hle' heq'
  exact ⟨h'.failure.trans h.failure, h'.final.trans h.final, h'.parents.trans h.parents,
    raw', position', fragments', hle.trans hle', heq'⟩

theorem active (h : Reads m m') : m'.lexer.active = m.lexer.active := by
  obtain ⟨_, _, _, -, heq⟩ := h.lexer
  rw [heq]

theorem command (h : Reads m m') : m'.lexer.command = m.lexer.command := by
  obtain ⟨_, _, _, -, heq⟩ := h.lexer
  rw [heq]

theorem kind (h : Reads m m') : m'.lexer.kind = m.lexer.kind := by
  obtain ⟨_, _, _, -, heq⟩ := h.lexer
  rw [heq]

theorem frames (h : Reads m m') : m'.lexer.frames = m.lexer.frames := by
  obtain ⟨_, _, _, -, heq⟩ := h.lexer
  rw [heq]

theorem arithmetic (h : Reads m m') : m'.lexer.arithmetic = m.lexer.arithmetic := by
  obtain ⟨_, _, _, -, heq⟩ := h.lexer
  rw [heq]

theorem addFragment (m : Machine) (kind : FragmentKind) (quote : Quote) :
    Reads m (m.onLexer fun l => l.addFragment kind quote) := by
  refine ⟨rfl, rfl, rfl, _, _, _, ?_, rfl⟩
  rw [length_append]
  exact Nat.le_add_right _ _

theorem finishFragment (m : Machine) (index : ℕ) :
    Reads m (m.onLexer fun l => l.finishFragment index) :=
  ⟨rfl, rfl, rfl, _, _, _, Nat.le_of_eq (length_modify _ _ _).symm, rfl⟩

end Reads

@[simp] theorem leaveAliases_failure (as : List AliasSource) (s : Source) :
    (Source.leaveAliases as s).failure = s.failure := by
  induction as generalizing s with
  | nil => rfl
  | cons a as ih =>
    rw [Source.leaveAliases]
    split
    · rw [ih]
    · rfl

@[simp] theorem leaveAliases_final (as : List AliasSource) (s : Source) :
    (Source.leaveAliases as s).final = s.final := by
  induction as generalizing s with
  | nil => rfl
  | cons a as ih =>
    rw [Source.leaveAliases]
    split
    · rw [ih]
    · rfl

theorem advance_reads (m : Machine) (byte : UInt8) : Reads m (m.advance byte) := by
  refine ⟨leaveAliases_failure _ _, leaveAliases_final _ _, length_captureParents, ?_⟩
  show ∃ raw position fragments, _ ∧
    (if m.lexer.active then m.lexer.capture byte else m.lexer) = _
  split
  · exact ⟨_, _, _, Nat.le_refl _, rfl⟩
  · exact ⟨_, _, _, Nat.le_refl _, rfl⟩

theorem consume_reads {m m' : Machine} (h : m.consume count = .ok m') :
    Reads m m' := by
  induction count generalizing m with
  | zero =>
    cases h
    exact ⟨rfl, rfl, rfl, _, _, _, Nat.le_refl _, rfl⟩
  | succ count ih =>
    unfold consume at h
    dsimp only at h
    split at h
    · cases h
    · have hlook : Reads m m.forgetLook := ⟨rfl, rfl, rfl, _, _, _, Nat.le_refl _, rfl⟩
      exact (hlook.trans (advance_reads _ _)).trans (ih h)

theorem piece_reads {m m' : Machine} {kind : FragmentKind}
    (h : m.piece kind quote count = .ok m') : Reads m m' := by
  unfold piece at h
  dsimp only at h
  split at h
  · cases h
  · rename_i m₁ hconsume
    cases h
    have hreads : ∀ b : Bool, Reads m
        (if b = true then m else m.onLexer fun l => l.addFragment kind quote) := by
      intro b
      cases b with
      | true => exact .refl _
      | false => exact .addFragment _ _ _
    exact ((hreads _).trans (consume_reads hconsume)).trans (.finishFragment _ _)

theorem delimiter_reads {m m' : Machine}
    (h : m.delimiter quote count = .ok m') : Reads m m' := by
  fun_induction Machine.delimiter m quote count generalizing m' with
  | case1 m =>
    cases h
    exact .refl _
  | case2 m => exact consume_reads h
  | case3 m count hcont m₁ hpiece => cases h
  | case4 m count hcont m₁ hpiece ih => exact (piece_reads hpiece).trans (ih h)
  | case5 m count hcont m₁ hconsume => cases h
  | case6 m count hcont m₁ hconsume ih => exact (consume_reads hconsume).trans (ih h)

/-- A piece that is not text leaves the fragments before it. -/
theorem piece_grows {m m' : Machine} {kind : FragmentKind} (hk : kind ≠ .text)
    (h : m.piece kind quote count = .ok m') :
    m.lexer.fragments <+: m'.lexer.fragments := by
  unfold piece at h
  simp only [hk, decide_false, Bool.false_and, Bool.false_eq_true, if_false] at h
  split at h
  · cases h
  · rename_i m₁ hconsume
    cases h
    obtain ⟨raw, position, heq⟩ := consume_lexer count hconsume
    show m.lexer.fragments <+: m₁.lexer.fragments.modify m.lexer.fragments.length _
    rw [heq]
    show m.lexer.fragments <+: (m.lexer.fragments ++ [_]).modify m.lexer.fragments.length _
    rw [prefix_iff_eq_take, take_modify (Nat.le_refl _), take_left]

theorem delimiter_grows {m m' : Machine}
    (h : m.delimiter quote count = .ok m') : m.lexer.fragments <+: m'.lexer.fragments := by
  have hgrows : ∀ {m m' : Machine} {count : ℕ}, m.consume count = .ok m' →
      m.lexer.fragments <+: m'.lexer.fragments := by
    intro m m' count hconsume
    obtain ⟨raw, position, heq⟩ := consume_lexer count hconsume
    rw [heq]
  fun_induction Machine.delimiter m quote count generalizing m' with
  | case1 m =>
    cases h
    exact prefix_refl _
  | case2 m => exact hgrows h
  | case3 m count hcont m₁ hpiece => cases h
  | case4 m count hcont m₁ hpiece ih => exact (piece_grows (by decide) hpiece).trans (ih h)
  | case5 m count hcont m₁ hconsume => cases h
  | case6 m count hcont m₁ hconsume ih => exact (hgrows hconsume).trans (ih h)

/-! ### Bytes that can be read -/

theorem leaveAliases_unread (as : List AliasSource) (s : Source) :
    (Source.leaveAliases as s).unread = s.unread := by
  induction as generalizing s with
  | nil => rfl
  | cons a as ih =>
    rw [Source.leaveAliases]
    split
    · rw [ih]
      rfl
    · rfl

theorem advance_unread (m : Machine) (byte : UInt8) :
    (m.advance byte).source.unread = m.source.unread.tail := by
  show (Source.leaveAliases _ _).unread = _
  rw [leaveAliases_unread]
  show m.source.data.drop (m.source.cursor + 1) = (m.source.data.drop m.source.cursor).tail
  rw [tail_drop]

/-- Bytes without a NUL are read. -/
theorem consume_total {m : Machine} {w rest : Bytes} (hb : m.source.unread = w ++ rest)
    (h0 : (0 : UInt8) ∉ w) :
    ∃ m', m.consume w.length = .ok m' ∧ m'.source.unread = rest := by
  induction w generalizing m with
  | nil => exact ⟨_, rfl, hb⟩
  | cons byte w ih =>
    rw [mem_cons, not_or] at h0
    have hbyte : m.forgetLook.source.data.getD m.forgetLook.source.cursor 0 = byte := by
      have hhead : m.source.data[m.source.cursor]? = some byte := by
        rw [← head?_drop]
        exact congrArg head? hb
      show m.source.data.getD m.source.cursor 0 = byte
      rw [getD_eq_getElem?_getD, hhead]
      rfl
    have hrest : (m.forgetLook.advance byte).source.unread = w ++ rest := by
      rw [advance_unread]
      exact congrArg tail hb
    rw [length_cons]
    unfold consume
    dsimp only
    rw [hbyte, if_neg (Ne.symm h0.1)]
    exact ih hrest h0.2

theorem piece_total {m : Machine} {kind : FragmentKind} {quote : Quote} {w rest : Bytes}
    (hb : m.source.unread = w ++ rest) (h0 : (0 : UInt8) ∉ w) :
    ∃ m', m.piece kind quote w.length = .ok m' ∧ m'.source.unread = rest := by
  unfold piece
  dsimp only
  generalize (decide (kind = .text) && m.lexer.extendsText quote) = joins
  have hunread : (if joins = true then m else m.onLexer fun l => l.addFragment kind quote).source.unread
      = w ++ rest := by
    split <;> exact hb
  obtain ⟨m', hconsume, heq⟩ := consume_total hunread h0
  rw [hconsume]
  exact ⟨_, rfl, heq⟩

theorem delimiter_total {m : Machine} {quote : Quote} {w rest : Bytes}
    (hb : m.source.unread = w ++ rest) (h0 : (0 : UInt8) ∉ w) :
    ∃ m', m.delimiter quote w.length = .ok m' ∧ m'.source.unread = rest := by
  generalize hcount : w.length = count
  fun_induction Machine.delimiter m quote count generalizing w with
  | case1 m =>
    rw [length_eq_zero_iff.mp hcount] at hb
    exact ⟨m, rfl, hb⟩
  | case2 m =>
    rw [← hcount]
    exact consume_total hb h0
  | case3 m count hcont m₁ hpiece =>
    obtain ⟨w₁, w₂, rfl, hlen⟩ : ∃ w₁ w₂, w = w₁ ++ w₂ ∧ w₁.length = 2 :=
      ⟨w.take 2, w.drop 2, (take_append_drop _ _).symm, by rw [length_take]; omega⟩
    rw [append_assoc] at hb
    obtain ⟨m', hpiece', -⟩ := @piece_total m .continuation quote _ _ hb
      fun hmem => h0 (mem_append_left _ hmem)
    rw [hlen, hpiece] at hpiece'
    cases hpiece'
  | case4 m count hcont m₁ hpiece ih =>
    obtain ⟨w₁, w₂, rfl, hlen⟩ : ∃ w₁ w₂, w = w₁ ++ w₂ ∧ w₁.length = 2 :=
      ⟨w.take 2, w.drop 2, (take_append_drop _ _).symm, by rw [length_take]; omega⟩
    rw [append_assoc] at hb
    rw [length_append, hlen] at hcount
    obtain ⟨m', hpiece', hrest⟩ := @piece_total m .continuation quote _ _ hb
      fun hmem => h0 (mem_append_left _ hmem)
    rw [hlen, hpiece] at hpiece'
    cases hpiece'
    exact ih hrest (fun hmem => h0 (mem_append_right _ hmem)) (by omega)
  | case5 m count hcont m₁ hconsume =>
    obtain ⟨w₁, w₂, rfl, hlen⟩ : ∃ w₁ w₂, w = w₁ ++ w₂ ∧ w₁.length = 1 :=
      ⟨w.take 1, w.drop 1, (take_append_drop _ _).symm, by rw [length_take]; omega⟩
    rw [append_assoc] at hb
    obtain ⟨m', hconsume', -⟩ := consume_total hb fun hmem => h0 (mem_append_left _ hmem)
    rw [hlen, hconsume] at hconsume'
    cases hconsume'
  | case6 m count hcont m₁ hconsume ih =>
    obtain ⟨w₁, w₂, rfl, hlen⟩ : ∃ w₁ w₂, w = w₁ ++ w₂ ∧ w₁.length = 1 :=
      ⟨w.take 1, w.drop 1, (take_append_drop _ _).symm, by rw [length_take]; omega⟩
    rw [append_assoc] at hb
    rw [length_append, hlen] at hcount
    obtain ⟨m', hconsume', hrest⟩ := consume_total hb fun hmem => h0 (mem_append_left _ hmem)
    rw [hlen, hconsume] at hconsume'
    cases hconsume'
    exact ih hrest (fun hmem => h0 (mem_append_right _ hmem)) (by omega)

/-! ### Reading bytes -/

theorem onLexer_tracks {f : Lexer → Lexer} (h : Tracks origin J fed m)
    (hs : startOf origin (f m.lexer) = startOf origin m.lexer)
    (hw : ∀ {n low starts}, n ≤ J.length → low ≤ n → Word origin J fed n low n starts m.lexer →
      Word origin J fed n low n starts (f m.lexer)) :
    Tracks origin J fed (m.onLexer f) := by
  obtain ⟨n, h⟩ := h
  exact ⟨n, h.onLexer hs fun hlow hword => hw h.tape.le_input hlow hword⟩

/-- The bytes of a fragment: a joined text ends in the last fragment, a new piece in the
one just added. -/
theorem pieceBytes_tracks (h : Tracks origin J fed m) (hi : m.lexer.active = true) {index : ℕ}
    (hindex : m.lexer.fragments.length ≤ index + 1) (count : ℕ) :
    Keeps (Tracks origin J fed) (match m.consume count with
      | .error m => .error m
      | .ok m => .ok (m.onLexer fun l => l.finishFragment index)) := by
  have hkeep := consume_tracks h count
  split
  · rename_i hconsume
    rw [hconsume] at hkeep
    exact hkeep
  · rename_i m₂ hconsume
    rw [hconsume] at hkeep
    obtain ⟨raw, position, heq⟩ := consume_lexer count hconsume
    refine onLexer_tracks hkeep rfl fun hn _ hword => hword.finishFragment hn ?_ ?_
    · rw [heq, hi]
    · rw [heq]
      exact hindex

theorem piece_tracks (h : Tracks origin J fed m) (hi : m.lexer.active = true)
    (kind : FragmentKind) (quote : Quote) (count : ℕ) :
    Keeps (Tracks origin J fed) (m.piece kind quote count) := by
  unfold piece
  dsimp only
  cases hjoin : (decide (kind = .text) && m.lexer.extendsText quote) with
  | true => exact pieceBytes_tracks h hi (by simp only [if_true]; omega) count
  | false =>
    have hadd : Tracks origin J fed (m.onLexer fun l => l.addFragment kind quote) :=
      onLexer_tracks h rfl fun hn _ hword => hword.addFragment hn hi kind quote
    refine pieceBytes_tracks hadd hi ?_ count
    show (m.lexer.fragments ++ _).length ≤ _
    rw [length_append, length_singleton]
    exact Nat.le_refl _

theorem delimiter_tracks (h : Tracks origin J fed m) (hi : m.lexer.active = true)
    (quote : Quote) (count : ℕ) : Keeps (Tracks origin J fed) (m.delimiter quote count) := by
  fun_induction Machine.delimiter m quote count with
  | case1 m => exact h
  | case2 m => exact consume_tracks h 1
  | case3 m count hcont m₁ hpiece =>
    have := piece_tracks h hi .continuation quote 2
    rwa [hpiece] at this
  | case4 m count hcont m₁ hpiece ih =>
    have := piece_tracks h hi .continuation quote 2
    rw [hpiece] at this
    exact ih this ((piece_reads hpiece).active.trans hi)
  | case5 m count hcont m₁ hconsume =>
    have := consume_tracks h 1
    rwa [hconsume] at this
  | case6 m count hcont m₁ hconsume ih =>
    have := consume_tracks h 1
    rw [hconsume] at this
    exact ih this ((consume_reads hconsume).active.trans hi)

/-! ### Frames -/

/-- The frame that `push` puts on the stack. -/
def Machine.opened (m : Machine) (kind : FrameKind) (fragment : FragmentKind) (quote : Quote) :
    Machine :=
  m.onLexer fun l =>
    { l.addFragment fragment quote with
      frames := { kind, quote, fragment := l.fragments.length } :: l.frames }

theorem push_eq (kind : FrameKind) (fragment : FragmentKind) (quote : Quote) (count : ℕ) :
    m.push kind fragment quote count = (m.opened kind fragment quote).delimiter quote count := rfl

theorem Word.open (h : Word origin J fed n low n starts l) (hn : n ≤ J.length)
    (hi : l.active = true) (hw : l.kind = .word) (hc : l.command = false) {kind : FrameKind}
    (hk : kind ≠ .arithmetic) (fragment : FragmentKind) (quote : Quote) :
    Word origin J fed n low n starts
      { l.addFragment fragment quote with
        frames := { kind, quote, fragment := l.fragments.length } :: l.frames } where
  held a ha :=
    ⟨(h.held a ha).1, ((h.addFragment hn hi fragment quote).held a ha).2.congr rfl rfl rfl rfl⟩
  candidates := by
    refine .frame hk ?_ ?_
    · show l.fragments.length < (l.fragments ++ _).length
      rw [length_append, length_singleton]
      exact Nat.lt_succ_self _
    · refine h.candidates.congr ?_
      intro k hk
      exact take_append_of_le_length hk.le
  operator hkind := absurd hw hkind
  command hc' := by
    have : l.command = true := hc'
    rw [hc] at this
    cases this
  idle hi' := by
    have : l.active = false := hi'
    rw [hi] at this
    cases this
  comment := h.comment

theorem push_tracks (h : Tracks origin J fed m) (hi : m.lexer.active = true)
    (hw : m.lexer.kind = .word) (hc : m.lexer.command = false) {kind : FrameKind}
    (hk : kind ≠ .arithmetic) (fragment : FragmentKind) (quote : Quote) (count : ℕ) :
    Keeps (Tracks origin J fed) (m.push kind fragment quote count) := by
  have hopen : Tracks origin J fed (m.opened kind fragment quote) :=
    onLexer_tracks h rfl fun hn _ hword => hword.open hn hi hw hc hk fragment quote
  rw [push_eq]
  exact delimiter_tracks hopen hi quote count

/-- What an opened frame leaves alone. -/
theorem push_reads {m m' : Machine} {kind : FrameKind} {fragment : FragmentKind}
    (h : m.push kind fragment quote count = .ok m') :
    Reads (m.opened kind fragment quote) m' := by
  rw [push_eq] at h
  exact delimiter_reads h

theorem pop_eq {frame : Frame} {frames : List Frame} (hf : m.lexer.frames = frame :: frames)
    (count : ℕ) :
    m.pop count = match m.delimiter frame.quote count with
      | .error m => .error m
      | .ok m => .ok (m.onLexer fun l =>
          { l.finishFragment frame.fragment with frames := l.frames.tail }) := by
  unfold pop
  rw [hf]
  rfl

/-- What a closed frame leaves alone. -/
theorem pop_reads {m m' : Machine} {frames : List Frame}
    (hf : m.lexer.frames = frame :: frames) (h : m.pop count = .ok m') :
    m'.source.failure = m.source.failure ∧ m'.lexer.command = m.lexer.command ∧
      m'.lexer.active = m.lexer.active ∧ m'.lexer.kind = m.lexer.kind ∧
      m'.lexer.frames = frames ∧ m'.lexer.arithmetic = m.lexer.arithmetic := by
  rw [pop_eq hf] at h
  split at h
  · cases h
  · rename_i m₁ hdelimiter
    cases h
    have hreads := delimiter_reads hdelimiter
    refine ⟨hreads.failure, hreads.command, hreads.active, hreads.kind, ?_, hreads.arithmetic⟩
    show m₁.lexer.frames.tail = frames
    rw [hreads.frames, hf, tail_cons]

theorem pop_tracks (h : Tracks origin J fed m) (hi : m.lexer.active = true)
    (hc : m.lexer.command = false) {frames : List Frame}
    (hf : m.lexer.frames = frame :: frames) (hk : frame.kind ≠ .arithmetic) (count : ℕ) :
    Keeps (Tracks origin J fed) (m.pop count) := by
  have hkeep := delimiter_tracks h hi frame.quote count
  rw [pop_eq hf]
  split
  · rename_i hdelimiter
    rwa [hdelimiter] at hkeep
  · rename_i m₁ hdelimiter
    rw [hdelimiter] at hkeep
    have hreads := delimiter_reads hdelimiter
    have hf₁ : m₁.lexer.frames = frame :: frames := hreads.frames.trans hf
    refine onLexer_tracks hkeep rfl ?_
    intro n low starts hn _ hword
    rw [hf₁, tail_cons]
    exact hword.popFrame hn (hreads.active.trans hi) (hreads.command.trans hc) hf₁ hk

/-! ### Saving the tape -/

/-- Dropping the consumed bytes moves the ends of the aliases. -/
theorem OnTape.compact {s s' : Source} (h : OnTape origin J fed n s) (hd : s'.data = s.unread)
    (hc : s'.cursor = 0)
    (ha : s'.aliases = s.aliases.map fun a => { a with stop := a.stop - s.cursor })
    (hp : s'.position = s.position) : OnTape origin J fed n s' := by
  have hstops := pairwise_cons.mp h.stops
  have hlow : ∀ a ∈ s.aliases, s.cursor < a.stop := by
    intro a hmem
    exact hstops.1 _ (mem_map_of_mem hmem)
  have hlast : s'.aliases.getLast? =
      s.aliases.getLast?.map fun a => { a with stop := a.stop - s.cursor } := by
    rw [ha, getLast?_map]
  have hcursor : s'.physicalCursor = s.physicalCursor - s.cursor := by
    unfold Source.physicalCursor
    rw [hlast, hc]
    cases s.aliases.getLast? with
    | none => exact (Nat.sub_self _).symm
    | some a => rfl
  have hle : s.cursor ≤ s.physicalCursor := by
    unfold Source.physicalCursor
    cases hget : s.aliases.getLast? with
    | none => exact Nat.le_refl _
    | some a => exact (hlow a (mem_of_getLast? hget)).le
  refine ⟨h.input, h.le, ?_, ?_, ?_, ?_, by rw [hc]; exact Nat.zero_le _⟩
  · rw [hd, hcursor, Source.unread, drop_drop, Nat.add_sub_cancel' hle, h.tape]
  · rw [← h.position]
    unfold Source.physicalPosition
    rw [hlast, hp]
    cases s.aliases.getLast? <;> rfl
  · rw [hc, ha, map_map, pairwise_cons]
    constructor
    · intro stop hmem
      obtain ⟨a, hin, rfl⟩ := mem_map.mp hmem
      have := hlow a hin
      show 0 < a.stop - s.cursor
      omega
    · rw [pairwise_map]
      refine (pairwise_map.mp hstops.2).imp_of_mem ?_
      intro a b ha hb hlt
      have := hlow a ha
      show a.stop - s.cursor < b.stop - s.cursor
      omega
  · rw [ha, hd]
    intro a hmem
    obtain ⟨b, hin, rfl⟩ := mem_map.mp hmem
    have := h.within b hin
    show b.stop - s.cursor ≤ (s.data.drop s.cursor).length
    rw [length_drop]
    omega

/-- Shielding is about the owners of the aliases. -/
theorem Shielded.map {aliases : List AliasSource} {starts : List (Option ℕ)}
    {f : AliasSource → AliasSource} (hf : ∀ a, (f a).ownerDepth = a.ownerDepth)
    (h : Shielded aliases starts) : Shielded (aliases.map f) starts := by
  induction starts with
  | nil => trivial
  | cons start starts ih =>
    refine ⟨?_, ih h.2⟩
    intro hsome a ha
    obtain ⟨b, hb, rfl⟩ := mem_map.mp ha
    rw [hf]
    exact h.1 hsome b hb

/-- The captures of a chain. -/
theorem Chain.captured {ls : List Lexer} (h : Chain origin J fed n limit ls) (hle : limit ≤ n)
    (hn : n ≤ J.length) :
    Captured origin J n (ls.map (startOf origin))
      (ls.map fun l => (l.raw.length, l.spellingPosition)) := by
  induction ls generalizing limit with
  | nil => trivial
  | cons l ls ih =>
    obtain ⟨low, hlow, hword, hrest⟩ := h
    refine ⟨?_, ih hrest (hlow.trans hle)⟩
    intro a ha
    have hheld := (hword.held a ha).2
    refine ⟨hheld.start_le.trans hheld.limit_le, ?_⟩
    show (l.raw.length, l.spellingPosition) = _
    rw [hheld.length_raw hn, hheld.spelling]

/-- The machine in which a candidate was opened: its checkpoint is made before its
fragment. -/
theorem Traced.openCandidate (h : Traced origin J fed n m) (hfail : m.source.failure = none)
    (hi : m.lexer.active = true) (hw : m.lexer.kind = .word) (hc : m.lexer.command = false)
    {commandLength : ℕ}
    (ho : Ahead m.source.unread [byteOf '$', byteOf '('] commandLength) (quote : Quote) :
    Traced origin J fed n
      ((m.checkpointArithmetic commandLength quote).opened .arithmetic .arithmetic quote) := by
  have hn := h.tape.le_input
  obtain ⟨low, hlow, hword, hrest⟩ := h.chain
  have hsaved : ∀ c : Checkpoint, c.fragmentCount = m.lexer.fragments.length →
      c.commandLength = commandLength → c.captures = m.chain.map (fun l => (l.raw.length, l.spellingPosition)) →
      c.source = { m.source with
        data := m.source.unread, cursor := 0, look := none,
        aliases := m.source.aliases.map fun a => { a with stop := a.stop - m.source.cursor } } →
      ∀ f, Saved origin J fed (startOf origin m.lexer :: m.parents.map (startOf origin))
        (m.lexer.fragments ++ [f]) c n := by
    intro c hcount hlength hcaptures hsource f
    refine ⟨?_, ?_, ?_, ?_, ?_, ?_, ?_, ?_⟩
    · rw [hsource]
      exact h.tape.compact rfl rfl rfl rfl
    · rw [hsource]
      exact hfail
    · rw [hsource]
      intro a ha
      obtain ⟨b, hb, rfl⟩ := mem_map.mp ha
      have := h.owners b hb
      simp only [length_cons, length_map]
      exact Nat.lt_succ_of_le this
    · rw [hsource]
      exact h.shielded.map fun _ => rfl
    · rw [hcaptures]
      exact h.chain.captured (Nat.le_refl _) hn
    · intro a ha g hg
      rw [hcount, take_left] at hg
      simp only [head?_cons, Option.some.injEq] at ha
      exact (hword.held a ha).2.fragments g hg
    · rw [hsource]
    · rw [hsource, hlength]
      exact ho
  refine ⟨h.tape, h.owners, h.shielded, ⟨low, hlow, ?_, hrest⟩, h.look⟩
  have hadd := hword.addFragment hn hi .arithmetic quote
  exact {
    held := fun a ha => ⟨(hword.held a ha).1, (hadd.held a ha).2.congr rfl rfl rfl rfl⟩
    candidates := by
      refine .candidate rfl ?_ rfl rfl (hsaved _ rfl rfl rfl rfl _) hlow (Nat.le_refl _) ?_
      · show m.lexer.fragments.length < (m.lexer.fragments ++ _).length
        rw [length_append, length_singleton]
        exact Nat.lt_succ_self _
      · refine hword.candidates.congr ?_
        intro k hk
        exact take_append_of_le_length hk.le
    operator := fun hkind => absurd hw hkind
    command := fun hc' => by
      have : m.lexer.command = true := hc'
      rw [hc] at this
      cases this
    idle := fun hi' => by
      have : m.lexer.active = false := hi'
      rw [hi] at this
      cases this
    comment := hword.comment }

/-! ### Replaying a candidate -/

theorem Candidates.frameCount_lt {fragments : List Fragment} {frames : List Frame}
    {index : ℕ}
    (h : Candidates origin J fed starts fragments low frames (c :: cs) index limit) :
    c.frameCount < frames.length := by
  generalize hcs : c :: cs = checkpoints at h
  induction h with
  | nil => cases hcs
  | frame _ _ _ ih => exact (ih hcs).trans (Nat.lt_succ_self _)
  | candidate _ _ _ hc _ _ _ _ =>
    cases hcs
    rw [hc]
    exact Nat.lt_succ_self _

/-- The innermost checkpoint, and what is left of the frames without its candidate. -/
theorem Candidates.innermost {fragments : List Fragment} {frames : List Frame}
    {index : ℕ}
    (h : Candidates origin J fed starts fragments low frames (c :: cs) index limit) :
    ∃ n, Saved origin J fed starts fragments c n ∧ low ≤ n ∧ n ≤ limit ∧ c.fragmentCount < index ∧
      Candidates origin J fed starts fragments low (frames.drop (frames.length - c.frameCount)) cs
        c.fragmentCount n := by
  generalize hcs : c :: cs = checkpoints at h
  induction h with
  | nil => cases hcs
  | @frame f frames cs' index limit hk hi hrest ih =>
    obtain ⟨n, hs, hlow, hn, hlt, hcand⟩ := ih hcs
    refine ⟨n, hs, hlow, hn, hlt.trans hi, ?_⟩
    -- The candidate lies below this frame.
    have hcount : c.frameCount ≤ frames.length := by
      rw [← hcs] at hrest
      exact hrest.frameCount_lt.le
    rw [length_cons, Nat.succ_sub hcount, drop_succ_cons]
    exact hcand
  | @candidate f frames c' cs' index limit n hk hi hf hc hs hlow hn hrest ih =>
    cases hcs
    refine ⟨n, hs, hlow, hn, hf ▸ hi, ?_⟩
    rw [hc, length_cons, Nat.add_sub_cancel_left, drop_one, tail_cons, hf]
    exact hrest

/-- Truncated to a checkpoint, a word that starts in the input holds what it held
then. -/
theorem Held.restore {a n' : ℕ} (h : Held origin J a n limit l) (hle : limit ≤ n') (hn : n' ≤ n)
    {c : ℕ × Position} (hc : c = (n' - a, posAt origin J n')) :
    Held origin J a n' limit (restoreCapture l c) := by
  subst hc
  refine ⟨h.start, h.start_le, hle, ?_, rfl, h.fragments⟩
  show l.raw.take (n' - a) = _
  rw [h.raw, take_extract (h.start_le.trans hle) hn]

theorem Chain.restore {n' : ℕ} {ls : List Lexer} {cs : List (ℕ × Position)}
    (h : Chain origin J fed n limit ls) (hle : limit ≤ n') (hn : n' ≤ n)
    (hc : Captured origin J n' (ls.map (startOf origin)) cs) :
    Chain origin J fed n' limit (ls.zipWith restoreCapture cs) ∧
      (ls.zipWith restoreCapture cs).map (startOf origin) = ls.map (startOf origin) := by
  induction ls generalizing limit cs with
  | nil => exact ⟨trivial, rfl⟩
  | cons l ls ih =>
    cases cs with
    | nil => exact hc.elim
    | cons c cs =>
      obtain ⟨low, hlow, hword, hrest⟩ := h
      obtain ⟨hhead, hc⟩ := hc
      obtain ⟨hchain, hmap⟩ := ih hrest (hlow.trans hle) hc
      refine ⟨⟨low, hlow, ?_, hchain⟩, ?_⟩
      · rw [show zipWith restoreCapture ls cs = ls.zipWith restoreCapture cs from rfl, hmap]
        exact {
          held := fun a ha =>
            ⟨(hword.held a ha).1, (hword.held a ha).2.restore hle hn (hhead a ha).2⟩
          candidates := hword.candidates
          operator := hword.operator
          command := hword.command
          idle := fun hi => by
            obtain ⟨hraw, hrest⟩ := hword.idle hi
            refine ⟨?_, hrest⟩
            show l.raw.take c.1 = []
            rw [hraw, take_nil]
          comment := hword.comment }
      · rw [zipWith_cons_cons, map_cons, map_cons, hmap]
        rfl

/-- The machine of `restore` before it opens the command substitution. -/
def Machine.rewound (m : Machine) (c : Checkpoint) (previous : List Checkpoint) : Machine :=
  let l := restoreCapture m.lexer (c.captures.headD (0, {}))
  { source := c.source,
    lexer := { l with
      fragments := l.fragments.take c.fragmentCount,
      frames := l.frames.drop (l.frames.length - c.frameCount),
      command := false, arithmetic := previous },
    parents := m.parents.zipWith restoreCapture c.captures.tail }

theorem restore_eq (m : Machine) (c : Checkpoint) (previous : List Checkpoint) :
    m.restore c previous =
      match (m.rewound c previous).push .command .command c.quote c.commandLength with
      | .error m => .error m
      | .ok m => .ok (m.onLexer fun l => { l with command := true }) := rfl

theorem Chain.rewound (h : Chain origin J fed n limit m.chain) (hle : limit ≤ n)
    (ha : m.lexer.arithmetic = c :: previous) :
    Tracks origin J fed (m.rewound c previous) ∧ m.lexer.active = true ∧
      m.lexer.kind = .word ∧ c.source.failure = none := by
  obtain ⟨low, hlow, hword, hrest⟩ := h
  have hi : m.lexer.active = true := by
    by_contra hi
    rw [(hword.idle (by simpa using hi)).2.2.2.1] at ha
    cases ha
  have hcand := hword.candidates
  rw [ha] at hcand
  have hw : m.lexer.kind = .word := by
    by_contra hk
    rw [hword.operator hk] at hcand
    cases hcand
  obtain ⟨k, hs, hk, hklimit, hcount, hcand⟩ := hcand.innermost
  have hkn : k ≤ n := hklimit.trans hle
  have hcaptures := hs.captures
  cases hcs : c.captures with
  | nil =>
    rw [hcs] at hcaptures
    exact hcaptures.elim
  | cons first captures =>
    rw [hcs] at hcaptures
    obtain ⟨hfirst, hcaptures⟩ := hcaptures
    obtain ⟨hchain, hmap⟩ := hrest.restore hk hkn hcaptures
    refine ⟨⟨k, ?_, ?_, ?_, ?_, lookOk_none hs.look⟩, hi, hw, hs.failure⟩
    · exact hs.tape
    · intro a hmem
      have := hs.owners a hmem
      simp only [length_cons, length_map] at this
      have hlen : (m.rewound c previous).depth = m.parents.length := by
        have := congrArg length hmap
        simp only [length_map] at this
        simp only [depth, Machine.rewound, hcs, tail_cons]
        exact this
      omega
    · have hstarts : (m.rewound c previous).chain.map (startOf origin) =
          startOf origin m.lexer :: m.parents.map (startOf origin) := by
        rw [← hmap]
        simp only [Machine.rewound, Machine.chain, hcs, tail_cons, map_cons]
        rfl
      rw [hstarts]
      exact hs.shielded
    · refine ⟨low, hk, ?_, ?_⟩
      · have hparents : (m.rewound c previous).parents.map (startOf origin) =
            m.parents.map (startOf origin) := by
          rw [← hmap]
          simp only [Machine.rewound, hcs, tail_cons]
        rw [hparents]
        have hlen : (m.lexer.fragments.take c.fragmentCount).length = c.fragmentCount := by
          rw [length_take]
          omega
        exact {
          held := fun a hstart => by
            have hstart' : startOf origin m.lexer = some a := hstart
            obtain ⟨hlow', hheld⟩ := hword.held a hstart'
            obtain ⟨hak, hcap⟩ := hfirst a hstart'
            refine ⟨hlow', hheld.start, hak, Nat.le_refl _, ?_, ?_, ?_⟩
            · show m.lexer.raw.take (c.captures.headD (0, {})).1 = _
              rw [hcs, headD_cons, hcap, hheld.raw, take_extract hak hkn]
            · show (c.captures.headD (0, {})).2 = _
              rw [hcs, headD_cons, hcap]
            · exact hs.fragments a (by rw [head?_cons, hstart'])
          candidates := by
            show Candidates origin J fed _ (m.lexer.fragments.take c.fragmentCount) low _ previous
              (m.lexer.fragments.take c.fragmentCount).length k
            rw [hlen]
            refine hcand.congr ?_
            intro j hj
            rw [take_take, Nat.min_eq_left hj.le]
          operator := fun hkind => absurd hw hkind
          command := fun hc => by cases hc
          idle := fun hi' => by
            have : m.lexer.active = false := hi'
            rw [hi] at this
            cases this
          comment := hword.comment }
      · simp only [Machine.rewound, hcs, tail_cons]
        exact hchain

/-- A replay keeps the machine in the input. -/
theorem restore_tracks (h : Chain origin J fed n limit m.chain) (hle : limit ≤ n)
    (ha : m.lexer.arithmetic = c :: previous) :
    Keeps (Tracks origin J fed) (m.restore c previous) := by
  obtain ⟨htracks, hi, hw, -⟩ := h.rewound hle ha
  have hkeep := @push_tracks _ _ _ _ htracks hi hw rfl .command (by decide) .command c.quote
    c.commandLength
  rw [restore_eq]
  split
  · rename_i hpush
    rwa [hpush] at hkeep
  · rename_i m₁ hpush
    rw [hpush] at hkeep
    rw [push_eq] at hpush
    have hframes := (delimiter_reads hpush).frames
    refine onLexer_tracks hkeep rfl ?_
    intro n low starts _ _ hword
    exact hword.congr rfl hword.operator (fun _ => inFrame_iff.mpr ⟨_, _, hframes, rfl⟩)
      hword.comment

theorem restore_failure {m m' : Machine}
    (h : m.restore c previous = .ok m') : m'.source.failure = c.source.failure := by
  rw [restore_eq] at h
  split at h
  · cases h
  · rename_i m₁ hpush
    cases h
    exact (push_reads hpush).failure

/-! ### Leaving lexers -/

theorem unwind_chain (m : Machine) (depth : ℕ) :
    (m.unwind depth).chain = m.chain.drop (m.depth - depth) ∧
      (m.unwind depth).lexer = m.lexerAt depth := by
  have hlt : m.depth - depth < m.chain.length :=
    Nat.lt_of_le_of_lt (Nat.sub_le _ _) (Nat.lt_succ_self _)
  unfold unwind lexerAt
  rw [getD_eq_getElem?_getD, ← head?_drop]
  split
  · rename_i l rest heq
    rw [heq]
    exact ⟨rfl, rfl⟩
  · rename_i heq
    have := drop_eq_nil_iff.mp heq
    omega

/-- Nothing of a machine that gave up can be replayed. -/
theorem Dead.lexerAt (h : Dead m) (depth : ℕ) : (m.lexerAt depth).arithmetic = [] := by
  obtain ⟨hchain, hlexer⟩ := unwind_chain m depth
  have hmem : m.lexerAt depth ∈ m.chain := by
    rw [← hlexer]
    refine mem_of_mem_drop (i := m.depth - depth) ?_
    rw [← hchain]
    exact mem_cons_self
  exact (h.2 _ hmem).2

theorem Chain.drop {ls : List Lexer} (h : Chain origin J fed n limit ls) (i : ℕ) :
    ∃ limit' ≤ limit, Chain origin J fed n limit' (ls.drop i) := by
  induction i generalizing ls limit with
  | zero => exact ⟨limit, Nat.le_refl _, h⟩
  | succ i ih =>
    cases ls with
    | nil => exact ⟨limit, Nat.le_refl _, h⟩
    | cons l ls =>
      obtain ⟨low, hlow, -, hrest⟩ := h
      obtain ⟨limit', hle, hchain⟩ := ih hrest
      exact ⟨limit', hle.trans hlow, hchain⟩

theorem failAt_tracks (h : Tracks origin J fed m) (l : Lexer) (message : Bytes) (number : ℕ)
    (position : Position) : Tracks origin J fed (m.failAt l message number position) ∨
      Dead (m.failAt l message number position) := by
  obtain ⟨n, h⟩ := h
  rcases failAt_cases m l message number position with ⟨failure, heq⟩ | hdead
  · rw [heq]
    exact .inl ⟨n, h.onSource rfl rfl rfl rfl h.look⟩
  · exact .inr hdead

variable (origin J) in
/-- What a replay leaves. -/
def ReplayOk (fed : Bytes) : Replay × Machine → Prop
  | (.replayed, m) => Tracks origin J fed m ∧ m.source.failure = none
  | (.refused, m) => Tracks origin J fed m ∨ Dead m
  | (.failed, m) => Tracks origin J fed m ∨ Dead m

/-- A replay on any lexer of the chain keeps the machine in the input. -/
theorem replayArithmetic_tracks (h : Tracks origin J fed m) (depth : ℕ) (error : Option Failure) :
    ReplayOk origin J fed (m.replayArithmetic depth error) := by
  obtain ⟨n, htraced⟩ := h
  unfold replayArithmetic
  dsimp only
  split
  · exact .inl ⟨n, htraced⟩
  · rename_i c previous ha
    split
    · exact .inl ⟨n, htraced⟩
    · split
      · have hcleared : Tracks origin J fed
            { m with source := { m.source with failure := none } } :=
          ⟨n, htraced.onSource rfl rfl rfl rfl htraced.look⟩
        exact failAt_tracks hcleared _ _ _ _
      · exact .inl ⟨n, htraced⟩
      · obtain ⟨hchain, hlexer⟩ := unwind_chain m depth
        obtain ⟨limit, hle, hdrop⟩ := htraced.chain.drop (m.depth - depth)
        rw [← hchain] at hdrop
        rw [← hlexer] at ha
        have hkeep := restore_tracks hdrop hle ha
        have hnone := (hdrop.rewound hle ha).2.2.2
        split
        · rename_i m₁ hrestore
          rw [hrestore] at hkeep
          exact ⟨hkeep, (restore_failure hrestore).trans hnone⟩
        · rename_i m₁ hrestore
          rw [hrestore] at hkeep
          exact hkeep

end Lexical
end CShell
