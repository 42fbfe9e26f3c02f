import CShell.Lexer.Drafting

/-!
# What every call keeps

The calls of the interface are long, and they do few things to the tape: they look
ahead, consume bytes, start a token, save the tape for a candidate and restore it, and
give it back after a failure.  A property of the machine that each of these keeps, and
that does not depend on what the lexers hold besides their candidates, is kept by every
call that neither feeds nor substitutes.

## Main definitions

* `savedTapes ls` — the tapes that the candidates of a chain saved.
* `Steady d P` — each of the few things keeps `P`.

## Main results

* `Steady.step` — so does a round of the scanner.
* `Steady.perform` — and every call but a feed and a substitution.

## References

`src/lexer.c`.
-/

namespace CShell
namespace Lexical

open Machine List

/-- The tapes that the candidates of a chain saved. -/
def savedTapes (ls : List Lexer) : List Source :=
  ls.flatMap fun l => l.arithmetic.map Checkpoint.source

/-- A helper that leaves a property, failed or not. -/
def Either (P : Machine → Prop) : Except Machine Machine → Prop
  | .ok m => P m
  | .error m => P m

/-- What a round leaves. -/
def Step.machine : Step → Machine
  | .again m => m
  | .done _ m => m

variable {m m' : Machine} {d : Decoder}

/-! ### Saved tapes -/

theorem savedTapes_cons (l : Lexer) (ls : List Lexer) :
    savedTapes (l :: ls) = l.arithmetic.map Checkpoint.source ++ savedTapes ls :=
  flatMap_cons

theorem mem_savedTapes {s : Source} {ls : List Lexer} :
    s ∈ savedTapes ls ↔ ∃ l ∈ ls, ∃ c ∈ l.arithmetic, c.source = s := by
  unfold savedTapes
  rw [mem_flatMap]
  simp only [mem_map]

theorem mem_savedTapes_of_mem {ls : List Lexer} {l : Lexer} {c : Checkpoint} (hl : l ∈ ls)
    (hc : c ∈ l.arithmetic) : c.source ∈ savedTapes ls := mem_savedTapes.mpr ⟨l, hl, c, hc, rfl⟩

theorem savedTapes_of_arithmetic {ls ls' : List Lexer}
    (h : ls'.map Lexer.arithmetic = ls.map Lexer.arithmetic) : savedTapes ls' = savedTapes ls := by
  have hmap : ∀ ls : List Lexer, savedTapes ls =
      (ls.map Lexer.arithmetic).flatMap fun cs => cs.map Checkpoint.source := by
    intro ls
    rw [savedTapes, flatMap_map]
  rw [hmap, hmap, h]

@[simp] theorem arithmetic_captureParents (s : Source) (byte : UInt8) (ls : List Lexer) :
    (captureParents s byte ls).map Lexer.arithmetic = ls.map Lexer.arithmetic := by
  induction ls with
  | nil => rfl
  | cons l ls ih =>
    rw [captureParents, map_cons, map_cons, ih]
    congr 1
    split <;> rfl

theorem savedTapes_advance (m : Machine) (byte : UInt8) :
    savedTapes (m.advance byte).chain = savedTapes m.chain := by
  refine savedTapes_of_arithmetic ?_
  unfold Machine.chain
  rw [map_cons, map_cons]
  congr 1
  · show (if m.lexer.active then m.lexer.capture byte else m.lexer).arithmetic = _
    split <;> rfl
  · exact arithmetic_captureParents _ _ _

theorem savedTapes_release (m : Machine) : savedTapes m.release.chain = [] := by
  rw [eq_nil_iff_forall_not_mem]
  intro s hs
  obtain ⟨l, hl, c, hc, -⟩ := mem_savedTapes.mp hs
  rcases mem_cons.mp hl with rfl | hl
  · cases hc
  · obtain ⟨l', -, rfl⟩ := mem_map.mp hl
    cases hc

/-- Leaving lexers drops their candidates. -/
theorem savedTapes_subset {ls ls' : List Lexer} (h : ∀ l ∈ ls', ∃ l' ∈ ls, l.arithmetic = l'.arithmetic) :
    savedTapes ls' ⊆ savedTapes ls := by
  intro s hmem
  obtain ⟨l, hin, c, hc, rfl⟩ := mem_savedTapes.mp hmem
  obtain ⟨l', hmem', heq⟩ := h l hin
  rw [heq] at hc
  exact mem_savedTapes_of_mem hmem' hc

/-- What a replay goes on with was saved. -/
theorem savedTapes_rewound {c : Checkpoint} {previous : List Checkpoint}
    (ha : m.lexer.arithmetic = c :: previous) :
    c.source ∈ savedTapes m.chain ∧ savedTapes (m.rewound c previous).chain ⊆ savedTapes m.chain := by
  have hmem : ∀ c' ∈ c :: previous, c'.source ∈ savedTapes m.chain := by
    intro c' hc'
    rw [← ha] at hc'
    exact mem_savedTapes_of_mem mem_cons_self hc'
  have hparents : ∀ (ls : List Lexer) (cs : List (ℕ × Position)),
      ∀ l ∈ ls.zipWith restoreCapture cs, ∃ l' ∈ ls, l.arithmetic = l'.arithmetic := by
    intro ls cs l hl
    rw [← map_uncurry_zip_eq_zipWith] at hl
    obtain ⟨⟨l', capture⟩, hin, rfl⟩ := mem_map.mp hl
    exact ⟨l', (of_mem_zip hin).1, rfl⟩
  refine ⟨hmem c mem_cons_self, ?_⟩
  intro s hs
  obtain ⟨l, hl, c', hc', rfl⟩ := mem_savedTapes.mp hs
  rcases mem_cons.mp hl with rfl | hl
  · exact hmem c' (mem_cons_of_mem _ hc')
  · obtain ⟨l', hl', heq⟩ := hparents _ _ l hl
    rw [heq] at hc'
    exact mem_savedTapes_of_mem (mem_cons_of_mem _ hl') hc'

/-- What a candidate saves is added to what was saved. -/
theorem mem_savedTapes_checkpoint {s : Source} {commandLength : ℕ} {quote : Quote}
    (h : s ∈ savedTapes (m.checkpointArithmetic commandLength quote).chain) :
    s = { m.source with
        data := m.source.unread, cursor := 0, look := none,
        aliases := m.source.aliases.map fun a => { a with stop := a.stop - m.source.cursor } } ∨
      s ∈ savedTapes m.chain := by
  obtain ⟨l, hl, c, hc, rfl⟩ := mem_savedTapes.mp h
  rcases mem_cons.mp hl with rfl | hl
  · rcases mem_cons.mp hc with rfl | hc
    · exact .inl rfl
    · exact .inr (mem_savedTapes_of_mem mem_cons_self hc)
  · exact .inr (mem_savedTapes_of_mem (mem_cons_of_mem _ hl) hc)

/-! ### The few things -/

/-- A property of the tapes that what the calls are made of keeps. -/
structure Steady (d : Decoder) (P : Machine → Prop) : Prop where
  chain : ∀ {m m' : Machine}, P m → m'.source = m.source → savedTapes m'.chain ⊆ savedTapes m.chain → P m'
  peek : ∀ {m : Machine}, P m → ∀ wanted, P (m.peek d wanted).2
  startToken : ∀ {m : Machine}, P m → P m.startToken
  failAt : ∀ {m : Machine}, P m → ∀ l message number position, P (m.failAt l message number position)
  /-- A failure that is not about the syntax gives the tape back, whatever came before. -/
  release : ∀ {m : Machine}, m.source.failure.isSome = true → P m.release
  consume : ∀ {m : Machine}, P m → ∀ count, Either P (m.consume count)
  checkpoint : ∀ {m : Machine}, P m → m.source.failure = none → ∀ commandLength quote,
    P (m.checkpointArithmetic commandLength quote)
  rewound : ∀ {m : Machine} {c : Checkpoint} {previous : List Checkpoint}, P m → m.lexer.arithmetic = c :: previous → P (m.rewound c previous)

namespace Steady

variable {P : Machine → Prop}

/-- The deepest lexer goes on with the candidates it has, or with fewer. -/
theorem onLexer (hp : Steady d P) (h : P m) {f : Lexer → Lexer}
    (hf : (f m.lexer).arithmetic.map Checkpoint.source ⊆
      m.lexer.arithmetic.map Checkpoint.source) : P (m.onLexer f) := by
  refine hp.chain h rfl ?_
  show savedTapes (f m.lexer :: m.parents) ⊆ savedTapes (m.lexer :: m.parents)
  rw [savedTapes_cons, savedTapes_cons]
  intro s hs
  rcases mem_append.mp hs with hs | hs
  · exact mem_append_left _ (hf hs)
  · exact mem_append_right _ hs

theorem piece (hp : Steady d P) (h : P m) (kind : FragmentKind) (quote : Quote) (count : ℕ) :
    Either P (m.piece kind quote count) := by
  have hadd : ∀ joins : Bool, P (if joins then m else m.onLexer fun l => l.addFragment kind quote) := by
    intro joins
    cases joins with
    | true => exact h
    | false =>
      show P (m.onLexer fun l => l.addFragment kind quote)
      exact hp.onLexer h (List.Subset.refl _)
  unfold Machine.piece
  dsimp only
  have hconsume := hp.consume (hadd (decide (kind = .text) && m.lexer.extendsText quote)) count
  split
  · rename_i heq
    rw [heq] at hconsume
    exact hconsume
  · rename_i heq
    rw [heq] at hconsume
    exact hp.onLexer hconsume (List.Subset.refl _)

theorem delimiter (hp : Steady d P) (h : P m) (quote : Quote) (count : ℕ) :
    Either P (m.delimiter quote count) := by
  fun_induction Machine.delimiter m quote count with
  | case1 m => exact h
  | case2 m => exact hp.consume h 1
  | case3 m count hcont m₁ hpiece =>
    have hkeep := hp.piece h .continuation quote 2
    rw [hpiece] at hkeep
    exact hkeep
  | case4 m count hcont m₁ hpiece ih =>
    have hkeep := hp.piece h .continuation quote 2
    rw [hpiece] at hkeep
    exact ih hkeep
  | case5 m count hcont m₁ hconsume =>
    have hkeep := hp.consume h 1
    rw [hconsume] at hkeep
    exact hkeep
  | case6 m count hcont m₁ hconsume ih =>
    have hkeep := hp.consume h 1
    rw [hconsume] at hkeep
    exact ih hkeep

theorem push (hp : Steady d P) (h : P m) (kind : FrameKind) (fragment : FragmentKind) (quote : Quote)
    (count : ℕ) : Either P (m.push kind fragment quote count) := by
  have hadd : P (m.onLexer fun l => l.addFragment fragment quote) := hp.onLexer h (List.Subset.refl _)
  exact hp.delimiter (hp.onLexer hadd (List.Subset.refl _)) quote count

theorem pop (hp : Steady d P) (h : P m) (count : ℕ) : Either P (m.pop count) := by
  unfold Machine.pop
  split
  · exact h
  · rename_i frame frames hframes
    have hkeep := hp.delimiter h frame.quote count
    dsimp only
    split
    · rename_i heq
      rw [heq] at hkeep
      exact hkeep
    · rename_i heq
      rw [heq] at hkeep
      exact hp.onLexer hkeep (List.Subset.refl _)

/-! ### Candidates -/

theorem unwind (hp : Steady d P) (h : P m) (depth : ℕ) : P (m.unwind depth) := by
  refine hp.chain h ?_ (savedTapes_subset ?_)
  · unfold Machine.unwind
    split <;> rfl
  · intro l hl
    rw [(unwind_chain m depth).1] at hl
    exact ⟨l, mem_of_mem_drop hl, rfl⟩

/-- A replay goes on with a tape that was saved. -/
theorem restore (hp : Steady d P) (h : P m) {c : Checkpoint} {previous : List Checkpoint}
    (ha : m.lexer.arithmetic = c :: previous) : Either P (m.restore c previous) := by
  have hkeep := hp.push (hp.rewound h ha) .command .command c.quote c.commandLength
  rw [restore_eq]
  split
  · rename_i heq
    rw [heq] at hkeep
    exact hkeep
  · rename_i heq
    rw [heq] at hkeep
    exact hp.onLexer hkeep (List.Subset.refl _)

theorem replayArithmetic (hp : Steady d P) (h : P m) (depth : ℕ) (error : Option Failure) :
    P (m.replayArithmetic depth error).2 := by
  unfold Machine.replayArithmetic
  dsimp only
  split
  · exact h
  · rename_i c previous ha
    split
    · exact h
    · split
      · -- The failure that is recorded here is not about the syntax.
        exact hp.release rfl
      · exact h
      · rw [← (unwind_chain m depth).2] at ha
        have hkeep := hp.restore (hp.unwind h depth) ha
        split
        · rename_i heq
          rw [heq] at hkeep
          exact hkeep
        · rename_i heq
          rw [heq] at hkeep
          exact hkeep

theorem giveUp (hp : Steady d P) (h : P m) : P m.giveUp.machine := by
  have hreplay := hp.replayArithmetic h m.depth none
  unfold Machine.giveUp
  split
  · rename_i heq
    rw [heq] at hreplay
    exact hreplay
  · rename_i heq
    rw [heq] at hreplay
    exact hreplay

/-! ### Rounds -/

theorem attempt {r : Except Machine Machine} (h : Either P r) : P (Step.attempt r).machine := by
  cases r with
  | ok m => exact h
  | error m => exact h

/-- A helper that succeeded goes on, one that failed ends the round. -/
theorem andThen {r : Except Machine Machine} (h : Either P r) {f : Machine → Step}
    (hf : ∀ m', P m' → P (f m').machine) :
    P (match r with
      | .error m => Step.done .error m
      | .ok m => f m).machine := by
  cases r with
  | ok m => exact hf m h
  | error m => exact h

theorem publish (hp : Steady d P) (h : P m) : P m.publish.machine := by
  unfold Machine.publish
  rw [Step.machine]
  exact hp.onLexer h (List.Subset.refl _)

theorem readies (hp : Steady d P) {m₁ : Machine} (hr : Readies d m m₁) (h : P m) : P m₁ := by
  induction hr with
  | refl => exact h
  | look wanted _ ih => exact hp.peek ih wanted
  | clear _ _ ih => exact hp.onLexer ih (List.Subset.refl _)
  | @frame m₁ f hf _ ih =>
    refine hp.onLexer ih ?_
    obtain ⟨frames, heq⟩ := onFrame_eq m₁.lexer f
    rw [heq]
    exact List.Subset.refl _
  | start _ _ _ ih => exact hp.onLexer (hp.startToken ih) (List.Subset.refl _)

theorem operatorRound (hp : Steady d P) (h : P m) {s : Step} (hround : OperatorRound d m s) :
    P s.machine := by
  cases hround with
  | more hr => exact hp.readies hr h
  | publish hr hl => exact hp.publish (hp.readies hr h)
  | @extend m₁ hr hl byte count hpeeked kind hx ho =>
    have hset : P (m₁.onLexer fun l => { l with kind }) :=
      hp.onLexer (hp.readies hr h) (List.Subset.refl _)
    refine andThen (hp.delimiter hset .none count) ?_
    intro m' h'
    rw [Step.machine]
    exact hp.onLexer h' (List.Subset.refl _)

/-- A round keeps the tapes, whatever the word it is in the middle of. -/
theorem round (hp : Steady d P) (h : P m) (hn : m.source.failure = none) {s : Step}
    (hround : Round d m s) : P s.machine := by
  cases hround with
  | more hr => exact hp.readies hr h
  | fail hr l message number position => exact hp.failAt (hp.readies hr h) l message number position
  | stuck hr hf ha => exact hp.readies hr h
  | skip hr hi count hs => exact attempt (hp.consume (hp.readies hr h) count)
  | @comment m₁ hr hi hc rest hb =>
    rw [Step.machine]
    exact hp.onLexer (hp.readies hr h) (List.Subset.refl _)
  | piece hr hi kind quote count hc => exact attempt (hp.piece (hp.readies hr h) kind quote count)
  | name hr hf value quote count hpeeked hv => exact attempt (hp.delimiter (hp.readies hr h) quote count)
  | push hr hi kind fragment quote count ho =>
    exact attempt (hp.push (hp.readies hr h) kind fragment quote count)
  | parameter hr hi rest hb quote value count hpeeked hv =>
    refine andThen (hp.push (hp.readies hr h) .simple .parameter quote count) ?_
    intro m' h'
    exact attempt (hp.pop h' 0)
  | pop hr frame rest hf count hc => exact attempt (hp.pop (hp.readies hr h) count)
  | candidate hr hi rest hb quote second third h₂ h₃ =>
    have hsaved := hp.checkpoint (hp.readies hr h) (hr.alike.failure.trans hn) second quote
    refine andThen (hp.push hsaved .arithmetic .arithmetic quote third) ?_
    intro m' h'
    rw [Step.machine]
    refine hp.onLexer h' ?_
    -- Where the body begins is not part of the tape.
    cases m'.lexer.arithmetic with
    | nil => exact List.Subset.refl _
    | cons c previous => exact List.Subset.refl _
  | @expression m₁ hr hf c previous ha rest hb count hpeeked =>
    obtain ⟨frame, frames, hframes, -⟩ := inFrame_iff.mp hf
    have hkeep := hp.delimiter (hp.readies hr h) frame.quote count
    unfold popArithmetic
    rw [pop_eq hframes]
    cases hdelimiter : m₁.delimiter frame.quote count with
    | error m₂ =>
      rw [hdelimiter] at hkeep
      exact hkeep
    | ok m₂ =>
      rw [hdelimiter] at hkeep
      have harithmetic := (delimiter_reads hdelimiter).arithmetic.trans ha
      show P (m₂.onLexer fun l =>
        { l.finishFragment frame.fragment with frames := l.frames.tail, arithmetic := previous })
      refine hp.onLexer hkeep ?_
      rw [harithmetic]
      exact map_subset _ (subset_cons_self _ _)
  | command hr hi rest hb quote count hpeeked =>
    refine andThen (hp.push (hp.readies hr h) .command .command quote count) ?_
    intro m' h'
    rw [Step.machine]
    exact hp.onLexer h' (List.Subset.refl _)
  | giveUp hr hf => exact hp.giveUp (hp.readies hr h)
  | publish hr hi hf => exact hp.publish (hp.readies hr h)
  | @operator m₁ hr hi hc byte rest hb ho kind hk =>
    have hset : P (m₁.startToken.onLexer fun l => { l with operatorText := [byte], kind := kind l }) :=
      hp.onLexer (hp.startToken (hp.readies hr h)) (List.Subset.refl _)
    exact attempt (hp.consume hset 1)
  | @newline m₁ hr hi hc rest hb =>
    have hset : P (m₁.startToken.onLexer fun l => { l with kind := .newline }) :=
      hp.onLexer (hp.startToken (hp.readies hr h)) (List.Subset.refl _)
    refine andThen (hp.consume hset 1) ?_
    intro m' h'
    exact hp.publish h'
  | eof hf hi hparents => exact h

variable {root : Bool} {bases : List ℕ}

/-- A round keeps the property; the drafts say which cases it has. -/
theorem step (hp : Steady d P) (h : P m) (hd : Drafted d root m bases) (hn : m.source.failure = none) :
    P (m.step d).machine := by
  rcases step_round (fun hi => (hd.idle hi).2.2) hd.comment with ⟨-, -, hround⟩ | ⟨-, hround⟩
  · exact hp.operatorRound h hround
  · exact hp.round h hn hround

theorem scanLoop (hp : Steady d P) (h : P m) (hd : Drafted d root m bases)
    (hn : m.source.failure = none) (hc : m.lexer.command = false) (fuel : ℕ) {result : LexResult}
    (hloop : scanLoop d fuel m = some (result, m')) : P m' := by
  induction fuel generalizing m with
  | zero => cases hloop
  | succ fuel ih =>
    have hstep := hp.step h hd hn
    obtain ⟨hdrafted, hagain⟩ := step_drafted hd hn hc
    unfold Machine.scanLoop at hloop
    cases hround : m.step d with
    | again m₁ =>
      rw [hround] at hloop hstep hdrafted
      obtain ⟨hn₁, hc₁⟩ := hagain m₁ hround
      exact ih hstep hdrafted hn₁ hc₁ hloop
    | done result₁ m₁ =>
      rw [hround] at hloop hstep
      cases hloop
      exact hstep

/-! ### The interface -/

theorem nextToken (hp : Steady d P) (h : P m) (hs : Survives d root m) (depth : ℕ) :
    P (m.nextToken d depth).2 := by
  unfold Machine.nextToken
  split
  · exact h
  · rename_i hfailure
    have hn : m.source.failure = none := by simpa using hfailure
    split
    · exact hp.failAt h _ _ _ _
    · split
      · exact h
      · rename_i hcommand
        rcases hs with ⟨bases, hrested⟩ | hdead
        · cases hloop : Machine.scanLoop d m.rounds m with
          | none => exact h
          | some answer =>
            exact hp.scanLoop h (hrested.2 hn) hn (by simpa using hcommand) _ hloop
        · exact absurd hdead.1 hfailure

theorem lexerNext (hp : Steady d P) (h : P m) (hs : Survives d root m) (depth : ℕ) :
    P (m.lexerNext d depth).2 := by
  have hnext := hp.nextToken h hs depth
  unfold Machine.lexerNext
  split
  · exact h
  · generalize m.nextToken d depth = answer at hnext
    obtain ⟨result, m₁⟩ := answer
    cases result with
    | error =>
      dsimp only
      split
      · exact hnext
      · have hreplay := hp.replayArithmetic hnext depth m₁.source.failure
        split
        · rename_i heq
          rw [heq] at hreplay
          exact hreplay
        · rename_i heq
          rw [heq] at hreplay
          exact hreplay
    | eof => exact hnext
    | token t => exact hnext
    | more => exact hnext
    | command => exact hnext
    | replay => exact hnext

theorem refuses (hp : Steady d P) (h : P m) (hr : Refuses m m') : P m' := by
  rcases hr with rfl | ⟨l, message, number, position, rfl⟩
  · exact h
  · exact hp.failAt h _ _ _ _

theorem commandEnd (hp : Steady d P) (h : P m) {parent : Lexer} {rest : List Lexer}
    (hparents : m.parents = parent :: rest) :
    Either P (Machine.pop { m with lexer := { parent with command := false }, parents := rest } 0) := by
  have hleft : P { m with lexer := { parent with command := false }, parents := rest } := by
    refine hp.chain h rfl (savedTapes_subset ?_)
    intro l hl
    have hin : ∀ l ∈ parent :: rest, l ∈ m.chain := by
      intro l hl
      rw [← hparents] at hl
      exact mem_cons_of_mem _ hl
    rcases mem_cons.mp hl with rfl | hl
    · exact ⟨parent, hin _ mem_cons_self, rfl⟩
    · exact ⟨l, hin l (mem_cons_of_mem _ hl), rfl⟩
  exact hp.pop hleft 0

theorem skipRaw (hp : Steady d P) (h : P m) (depth length : ℕ) : P (m.skipRaw depth length).2 := by
  unfold Machine.skipRaw
  split
  · exact h
  · split
    · exact hp.failAt h _ _ _ _
    · have hforgot : P (m.onLexer fun l => { l with last := none }) :=
        hp.onLexer h (List.Subset.refl _)
      have hkeep := hp.consume hforgot length
      split
      · rename_i heq
        rw [heq] at hkeep
        exact hkeep
      · rename_i heq
        rw [heq] at hkeep
        exact hkeep

/-- Only a feed adds to the input. -/
theorem fed_perform (s : Session) {call : Call} (hfeed : ∀ bytes final, call ≠ .feed bytes final) :
    (s.perform d call).fed = s.fed := by
  cases call with
  | feed bytes final => exact absurd rfl (hfeed bytes final)
  | next depth =>
    rw [Session.perform]
    split <;> rfl
  | commandBegin depth =>
    rw [Session.perform]
    split <;> rfl
  | commandEnd depth closing =>
    rw [Session.perform]
    split <;> rfl
  | replay depth error =>
    rw [Session.perform]
    split <;> rfl
  | aliasPush depth token name value => rfl
  | skipRaw depth length =>
    rw [Session.perform]
    split <;> rfl
  | followsRedirection => rfl

/-- A call that neither feeds nor substitutes keeps the property. -/
theorem perform (hp : Steady d P) {s : Session} (h : P s.machine) (hs : Survives d root s.machine)
    {call : Call} (hfeed : ∀ bytes final, call ≠ .feed bytes final)
    (hpush : ∀ depth token name value, call ≠ .aliasPush depth token name value) :
    P (s.perform d call).machine := by
  cases call with
  | feed bytes final => exact absurd rfl (hfeed bytes final)
  | aliasPush depth token name value => exact absurd rfl (hpush depth token name value)
  | next depth =>
    have hnext := hp.lexerNext h hs depth
    rw [Session.perform]
    generalize s.machine.lexerNext d depth = answer at hnext ⊢
    obtain ⟨result, m⟩ := answer
    cases result <;> exact hnext
  | commandBegin depth =>
    rw [Session.perform]
    rcases commandBegin_cases s.machine depth with ⟨m', heq, hrefuse⟩ | ⟨-, -, -, heq⟩
    · rw [heq]
      exact hp.refuses h hrefuse
    · rw [heq]
      exact hp.chain h rfl (List.Subset.refl _)
  | commandEnd depth closing =>
    rw [Session.perform]
    rcases commandEnd_cases s.machine depth closing with
      ⟨m', heq, hrefuse⟩ | ⟨parent, rest, m', -, hparents, -, -, -, hpop, heq⟩
    · rw [heq]
      exact hp.refuses h hrefuse
    · rw [heq]
      have hkeep := hp.commandEnd h hparents
      rw [hpop] at hkeep
      exact hkeep
  | replay depth error =>
    have hreplay := hp.replayArithmetic h depth error
    rw [Session.perform]
    generalize s.machine.replayArithmetic depth error = answer at hreplay ⊢
    obtain ⟨replay, m⟩ := answer
    cases replay <;> exact hreplay
  | skipRaw depth length =>
    have hskip := hp.skipRaw h depth length
    rw [Session.perform]
    generalize s.machine.skipRaw depth length = answer at hskip ⊢
    obtain ⟨success, m⟩ := answer
    cases success <;> exact hskip
  | followsRedirection =>
    rw [Session.perform, Session.followsRedirection_eq]
    exact hp.peek h 0

end Steady

end Lexical
end CShell
