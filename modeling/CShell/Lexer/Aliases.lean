import CShell.Lexer.Steady

/-!
# The stack of aliases

The marks where the aliases end are absolute places on the tape.  A substitution
shifts the marks below it, a feed and a checkpoint count them from the cursor
again, and the aliases that end at the cursor are left in the middle of a token.
Whatever is called in whatever order, the marks stay nested on the tape, and
behind them goes on the physical input.

All calls act on a few tapes, the shared one and those the candidates saved, so
the invariant is about each of them and not about the words that are read.

## Main definitions

* `Nested` — the names and the marks of one stack.
* `Machine.tapes` — the tapes that a call may read, now or after a replay.
* `Stacked` — every tape is nested and somewhere in the input, unless a failure
  let go of all of them.

## Main results

* `aliases_nested` — every run keeps the stacks.

## References

`src/lexer.c` (`csh_lexer_feed`, `consume`, `checkpoint_arithmetic`,
`csh_lexer_alias_push`).
-/

namespace CShell
namespace Lexical

open Machine List

/-- The names and the end marks of a stack of aliases, its top first. -/
structure Nested (s : Source) : Prop where
  names : (s.aliases.map AliasSource.name).Nodup
  stops : (s.cursor :: s.aliases.map AliasSource.stop).Pairwise (· < ·)
  within : ∀ a ∈ s.aliases, a.stop ≤ s.data.length
  cursor : s.cursor ≤ s.data.length

/-- The shared tape and those that a replay may restore. -/
def Machine.tapes (m : Machine) : List Source := m.source :: savedTapes m.chain

/-- A failure was recorded and the tape given back. -/
structure Released (s : Source) : Prop where
  failure : s.failure.isSome = true
  data : s.data = []
  aliases : s.aliases = []
  cursor : s.cursor = 0

variable (origin : Position) (J : Bytes)

/-- A tape in the input on which no alias is active twice. -/
structure Sound (fed : Bytes) (s : Source) : Prop where
  tape : ∃ n, OnTape origin J fed n s
  names : (s.aliases.map AliasSource.name).Nodup

/-- All tapes are sound, or the failure that gave the shared one back gave back the
saved ones too. -/
structure Stacked (fed : Bytes) (m : Machine) : Prop where
  source : Sound origin J fed m.source ∨ Released m.source ∧ savedTapes m.chain = []
  saved : ∀ s ∈ savedTapes m.chain, Sound origin J fed s

variable {origin J} {fed : Bytes} {n : ℕ} {s s' : Source} {m m' : Machine} {d : Decoder}

/-! ### One tape -/

theorem Sound.nested (h : Sound origin J fed s) : Nested s := by
  obtain ⟨n, htape⟩ := h.tape
  exact ⟨h.names, htape.stops, htape.within, htape.cursor⟩

theorem Released.nested (h : Released s) : Nested s := by
  refine ⟨?_, ?_, ?_, ?_⟩
  · rw [h.aliases]
    exact nodup_nil
  · rw [h.aliases]
    exact pairwise_singleton _ _
  · rw [h.aliases]
    intro a ha
    cases ha
  · rw [h.cursor]
    exact Nat.zero_le _

theorem Sound.congr (h : Sound origin J fed s) (hd : s'.data = s.data) (hc : s'.cursor = s.cursor)
    (ha : s'.aliases = s.aliases) (hp : s'.position = s.position) : Sound origin J fed s' := by
  obtain ⟨n, htape⟩ := h.tape
  refine ⟨⟨n, htape.congr hd hc ha hp⟩, ?_⟩
  rw [ha]
  exact h.names

/-- Only aliases at the top of a stack are left. -/
theorem leaveAliases_suffix (as : List AliasSource) (s : Source) :
    (Source.leaveAliases as s).aliases <:+ as := by
  induction as generalizing s with
  | nil => exact suffix_refl _
  | cons top as ih =>
    rw [Source.leaveAliases]
    split
    · exact (ih _).trans (suffix_cons _ _)
    · exact suffix_refl _

theorem Sound.advance (h : Sound origin J fed s) {byte : UInt8} {rest : Bytes}
    (hb : s.unread = byte :: rest) : Sound origin J fed (s.advance byte) := by
  obtain ⟨n, htape⟩ := h.tape
  refine ⟨?_, ?_⟩
  · cases ha : s.aliases with
    | nil => exact ⟨n + 1, htape.advance_physical ha hb⟩
    | cons top rest => exact ⟨n, (htape.advance_alias ha byte).1⟩
  · have hsuffix := leaveAliases_suffix s.aliases
      { s with sequence := s.sequence + 1, position := s.position.advance byte,
               cursor := s.cursor + 1 }
    exact h.names.sublist (hsuffix.sublist.map AliasSource.name)

/-- Marks that are counted from the cursor. -/
theorem Sound.compact (h : Sound origin J fed s) (hd : s'.data = s.unread) (hc : s'.cursor = 0)
    (ha : s'.aliases = s.aliases.map fun a => { a with stop := a.stop - s.cursor })
    (hp : s'.position = s.position) : Sound origin J fed s' := by
  obtain ⟨n, htape⟩ := h.tape
  refine ⟨⟨n, htape.compact hd hc ha hp⟩, ?_⟩
  rw [ha, map_map]
  exact h.names

theorem Sound.append (h : Sound origin J fed s) {bytes : Bytes} (hj : fed ++ bytes <+: J)
    (final : Bool) : Sound origin J (fed ++ bytes) (s.append bytes final) := by
  obtain ⟨n, htape⟩ := h.tape
  exact ⟨⟨n, htape.append hj final⟩, h.names⟩

/-! ### The tapes of a machine -/

namespace Stacked

section

variable (h : Stacked origin J fed m)
include h

/-- A change of anything but the tape, which may also drop candidates. -/
theorem congr (hd : m'.source.data = m.source.data)
    (hc : m'.source.cursor = m.source.cursor) (ha : m'.source.aliases = m.source.aliases)
    (hp : m'.source.position = m.source.position)
    (hf : m.source.failure.isSome = true → m'.source.failure.isSome = true)
    (hs : savedTapes m'.chain ⊆ savedTapes m.chain) : Stacked origin J fed m' := by
  refine ⟨?_, fun s hmem => h.saved s (hs hmem)⟩
  rcases h.source with hsound | ⟨hreleased, hnil⟩
  · exact .inl (hsound.congr hd hc ha hp)
  · right
    refine ⟨⟨hf hreleased.failure, ?_, ?_, ?_⟩, ?_⟩
    · rw [hd, hreleased.data]
    · rw [ha, hreleased.aliases]
    · rw [hc, hreleased.cursor]
    · rw [hnil] at hs
      exact subset_nil.mp hs

theorem forgetLook : Stacked origin J fed m.forgetLook :=
  h.congr rfl rfl rfl rfl id (List.Subset.refl _)

theorem peek (wanted : ℕ) : Stacked origin J fed (m.peek d wanted).2 := by
  obtain ⟨c, heq⟩ := peek_eq (d := d) m wanted
  rw [heq]
  exact h.congr rfl rfl rfl rfl id (List.Subset.refl _)

theorem startToken : Stacked origin J fed m.startToken := by
  refine h.congr rfl rfl rfl rfl id ?_
  show savedTapes (m.startToken.lexer :: m.parents) ⊆ savedTapes (m.lexer :: m.parents)
  rw [savedTapes_cons, savedTapes_cons, (startToken_lexer m).2.2.2.2.2.1]
  exact List.Subset.refl _

end

/-- A released machine has nothing left to read and nothing to replay. -/
theorem release {m : Machine} (h : m.source.failure.isSome = true) :
    Stacked origin J fed m.release := by
  have hnil := savedTapes_release m
  refine ⟨.inr ⟨⟨h, rfl, rfl, rfl⟩, hnil⟩, ?_⟩
  rw [hnil]
  intro s hs
  cases hs

section

variable (h : Stacked origin J fed m)
include h

theorem failAt (l : Lexer) (message : Bytes) (number : ℕ)
    (position : Position) : Stacked origin J fed (m.failAt l message number position) := by
  unfold Machine.failAt
  split
  · exact h
  · generalize (⟨message, number, if number = enomem then 1 else 2,
      diagnosticPosition m.source l position⟩ : Failure) = failure
    dsimp only
    split
    · exact h.congr rfl rfl rfl rfl (fun _ => rfl) (List.Subset.refl _)
    · exact .release rfl

/-- A tape from which a byte is read has not been given back. -/
theorem advance {byte : UInt8} {rest : Bytes}
    (hb : m.source.unread = byte :: rest) : Stacked origin J fed (m.advance byte) := by
  refine ⟨?_, ?_⟩
  · rcases h.source with hsound | ⟨hreleased, -⟩
    · exact .inl (hsound.advance hb)
    · rw [Source.unread, hreleased.data, drop_nil] at hb
      cases hb
  · rw [savedTapes_advance]
    exact h.saved

theorem consume (count : ℕ) : Either (Stacked origin J fed) (m.consume count) := by
  induction count generalizing m with
  | zero => exact h.forgetLook
  | succ count ih =>
    have hforgot := h.forgetLook
    unfold Machine.consume
    dsimp only
    split
    · exact hforgot.failAt _ _ _ _
    · rename_i hbyte
      exact ih (hforgot.advance (head_unread (unread_ne_nil hbyte)))

/-- A tape without a failure has not been given back. -/
theorem sound (hn : m.source.failure = none) : Sound origin J fed m.source := by
  rcases h.source with hsound | ⟨hreleased, -⟩
  · exact hsound
  · have hsome := hreleased.failure
    rw [hn] at hsome
    cases hsome

end

/-! ### Candidates -/

/-- A candidate saves the tape as it is. -/
theorem checkpointArithmetic (h : Stacked origin J fed m) (hn : m.source.failure = none)
    (commandLength : ℕ) (quote : Quote) :
    Stacked origin J fed (m.checkpointArithmetic commandLength quote) := by
  have hsound := h.sound hn
  refine ⟨.inl hsound, ?_⟩
  intro s hs
  rcases mem_savedTapes_checkpoint hs with rfl | hs
  · exact hsound.compact rfl rfl rfl rfl
  · exact h.saved s hs

/-- A replay goes on with a tape that was saved. -/
theorem rewound (h : Stacked origin J fed m) {c : Checkpoint} {previous : List Checkpoint}
    (ha : m.lexer.arithmetic = c :: previous) : Stacked origin J fed (m.rewound c previous) := by
  obtain ⟨hsource, hsubset⟩ := savedTapes_rewound ha
  exact ⟨.inl (h.saved _ hsource), fun s hs => h.saved s (hsubset hs)⟩

/-- The stacks are kept by all that the calls are made of. -/
theorem steady : Steady d (Stacked origin J fed) where
  chain h hs hsubset := by
    refine h.congr ?_ ?_ ?_ ?_ ?_ hsubset
    all_goals rw [hs]
    exact id
  peek h wanted := h.peek wanted
  startToken h := h.startToken
  failAt h := h.failAt
  release := .release
  consume h count := h.consume count
  checkpoint h hn commandLength quote := h.checkpointArithmetic hn commandLength quote
  rewound h ha := h.rewound ha

end Stacked

variable {root : Bool}

/-! ### The interface -/

namespace Stacked

/-- A feed goes to the end of every tape. -/
theorem feed (h : Stacked origin J fed m) (hn : m.source.failure = none) {bytes : Bytes}
    (hj : fed ++ bytes <+: J) (final : Bool) :
    Stacked origin J (fed ++ bytes)
      { source := m.source.compact.append bytes final, lexer := m.lexer.feed bytes final,
        parents := m.parents.map (Lexer.feed bytes final) } := by
  have hcompact : Sound origin J fed m.source.compact := (h.sound hn).compact rfl rfl rfl rfl
  refine ⟨.inl (hcompact.append hj final), ?_⟩
  intro s hs
  obtain ⟨l, hl, c, hc, rfl⟩ := mem_savedTapes.mp hs
  have hl' : l ∈ m.chain.map (Lexer.feed bytes final) := hl
  obtain ⟨l', hmem, rfl⟩ := mem_map.mp hl'
  obtain ⟨c', hc', rfl⟩ := mem_map.mp hc
  exact (h.saved _ (mem_savedTapes_of_mem hmem hc')).append hj final

/-- An alias is substituted only while no alias of its name is active. -/
theorem aliasPush (h : Stacked origin J fed m) (depth : ℕ) (token : Token) (name value : Bytes) :
    Stacked origin J fed (m.aliasPush depth token name value).2 := by
  unfold Machine.aliasPush
  split
  · exact h
  · rename_i hfailure
    split
    · exact h.failAt _ _ _ _
    · rename_i hguard
      simp only [not_or] at hguard
      have hsound := h.sound (by simpa using hfailure)
      obtain ⟨n, htape⟩ := hsound.tape
      have hne : value ++ [byteOf ' '] ≠ [] :=
        append_ne_nil_of_right_ne_nil value (cons_ne_nil _ _)
      have hlength : (value ++ [byteOf ' ']).length = value.length + 1 := by
        rw [length_append, length_singleton]
      rw [← hlength]
      refine ⟨.inl ⟨⟨n, htape.insert hne ?_ rfl rfl rfl rfl⟩, ?_⟩, ?_⟩
      · show _ ++ value ++ [byteOf ' '] ++ m.source.unread = _
        rw [append_assoc (m.source.data.take m.source.cursor)]
      · have hfresh : name ∉ m.source.aliases.map AliasSource.name := by
          intro hmem
          obtain ⟨a, ha, heq⟩ := mem_map.mp hmem
          apply hguard.2.2.2
          unfold aliasActive
          rw [any_eq_true]
          exact ⟨a, ha, by rw [heq]; exact beq_self_eq_true _⟩
        show (name :: (m.source.aliases.map _).map AliasSource.name).Nodup
        rw [map_map]
        exact nodup_cons.mpr ⟨hfresh, hsound.names⟩
      · exact h.saved

end Stacked

/-! ### Runs -/

namespace Session

variable {s : Session}

/-- A call keeps the tapes; only a feed adds to the input. -/
theorem perform_stacked (hs : Survives d root s.machine)
    (h : ∀ J, s.fed <+: J → Stacked s.origin J s.fed s.machine) (call : Call) :
    ∀ J, (s.perform d call).fed <+: J →
      Stacked s.origin J (s.perform d call).fed (s.perform d call).machine := by
  intro J hj
  have hstacked := h J ((perform_fed s call).trans hj)
  by_cases hfeed : ∃ bytes final, call = .feed bytes final
  · obtain ⟨bytes, final, rfl⟩ := hfeed
    rw [Session.perform] at hj ⊢
    rcases feed_cases s.machine bytes final with ⟨m', heq, hrefuse⟩ | ⟨hnone, -, heq⟩
    · rw [heq]
      exact (Stacked.steady (d := d)).refuses hstacked hrefuse
    · rw [heq] at hj ⊢
      exact hstacked.feed hnone hj final
  · have hother : ∀ bytes final, call ≠ .feed bytes final :=
      fun bytes final heq => hfeed ⟨bytes, final, heq⟩
    rw [Steady.fed_perform s hother]
    cases call with
    | aliasPush depth token name value => exact hstacked.aliasPush depth token name value
    | _ => exact Stacked.steady.perform hstacked hs hother (by simp)

theorem run_stacked (hs : Survives d root s.machine)
    (h : ∀ J, s.fed <+: J → Stacked s.origin J s.fed s.machine) (calls : List Call) :
    ∀ J, (s.run d calls).fed <+: J →
      Stacked s.origin J (s.run d calls).fed (s.run d calls).machine := by
  induction calls generalizing s with
  | nil => exact h
  | cons call calls ih =>
    have hrun := ih (perform_survives hs call)
    rw [perform_origin] at hrun
    exact hrun (perform_stacked hs h call)

theorem start_stacked (name : Bytes) (origin : Position) (document : Bool) (J : Bytes) :
    Stacked origin J [] (Machine.create name origin document) := by
  obtain ⟨n, htraced⟩ := start_tracks name origin document J
  refine ⟨.inl ⟨⟨n, htraced.tape⟩, nodup_nil⟩, ?_⟩
  intro s hs
  cases hs

end Session

/-- **The aliases are a stack.**  In every state that a run reaches, whatever is fed,
read, begun, ended, substituted, replayed and skipped, on the shared tape and on each
tape that a candidate saved: the active names differ, the end marks lie behind the
cursor, each before the one below it and none beyond the tape.  Behind the lowest
alias goes on the input that was fed, and outside every alias the position is the one
behind the bytes consumed, as if none had been substituted.  A lexer that gave its
tape back after a failure has no stack, and keeps the position at which it failed. -/
theorem aliases_nested (d : Decoder) (name : Bytes) (origin : Position) (document : Bool)
    (calls : List Call) :
    (∀ s ∈ ((Session.start name origin document).run d calls).machine.tapes, Nested s) ∧
      (Released ((Session.start name origin document).run d calls).machine.source ∨
        ∀ s ∈ ((Session.start name origin document).run d calls).machine.tapes,
          ∃ n ≤ ((Session.start name origin document).run d calls).fed.length,
            s.data.drop s.physicalCursor =
                ((Session.start name origin document).run d calls).fed.drop n ∧
              (s.aliases = [] → s.position =
                posAt origin ((Session.start name origin document).run d calls).fed n)) := by
  have hrun := Session.run_stacked (Session.start_survives d name origin document)
    (fun J _ => Session.start_stacked name origin document J) calls
  generalize (Session.start name origin document).run d calls = s at hrun ⊢
  have hstacked : Stacked origin s.fed s.fed s.machine := hrun s.fed (prefix_refl _)
  have hplace : ∀ t, Sound origin s.fed s.fed t → ∃ n ≤ s.fed.length,
      t.data.drop t.physicalCursor = s.fed.drop n ∧
        (t.aliases = [] → t.position = posAt origin s.fed n) := by
    intro t ht
    obtain ⟨n, htape⟩ := ht.tape
    refine ⟨n, htape.le, htape.tape, ?_⟩
    intro hnil
    rw [← htape.position, Source.physicalPosition, hnil]
    rfl
  refine ⟨?_, ?_⟩
  · intro t ht
    rcases mem_cons.mp ht with rfl | ht
    · rcases hstacked.source with hsound | ⟨hreleased, -⟩
      · exact hsound.nested
      · exact hreleased.nested
    · exact (hstacked.saved t ht).nested
  · rcases hstacked.source with hsound | ⟨hreleased, -⟩
    · right
      intro t ht
      rcases mem_cons.mp ht with rfl | ht
      · exact hplace _ hsound
      · exact hplace t (hstacked.saved t ht)
    · exact .inl hreleased

/-- A substitution that is refused while the value `cccc` is read leaves no stack, and
a position that lies nowhere in the input. -/
theorem aliases_nested_failed :
    ¬ ∀ calls : List Call,
      ((Session.start [] { line := 1, column := 1 } false).run .posix calls).machine.source.aliases
          = [] →
        ∃ n ≤ ((Session.start [] { line := 1, column := 1 } false).run .posix calls).fed.length,
          ((Session.start [] { line := 1, column := 1 } false).run .posix
              calls).machine.source.position =
            posAt { line := 1, column := 1 }
              ((Session.start [] { line := 1, column := 1 } false).run .posix calls).fed n := by
  intro h
  have hfailed := h
    [.feed (ascii "a\n") true, .next 0,
      .aliasPush 0
        { kind := .word, raw := ascii "a", start := { line := 1, column := 1 },
          stop := { offset := 1, line := 1, column := 2 } } (ascii "a") (ascii "cccc"),
      .next 0,
      .aliasPush 0 { kind := .word, raw := ascii "a" } (ascii "a") []] (by decide +kernel)
  obtain ⟨n, hn, hposition⟩ := hfailed
  revert n
  decide +kernel

end Lexical
end CShell
