import CShell.Lexer.Forming
import CShell.Lexer.Lossless

/-!
# The words a lexer returns

Runs of the interface keep the shapes, so every word a run returns is accepted by
the expander.  Aliases are the exception that has a condition: a command
substitution must not be closed by a parenthesis that an alias substituted inside it
supplies, since the word around it does not capture that byte.

## Main definitions

* `Session.Clean d s calls` — every command substitution is closed after the aliases
  substituted inside it.

## Main results

* `words_prepared` — without aliases every word passes the checks of `prepare`.
* `words_spelled` — in a clean run every word does, and one that starts in the input
  is the input between its positions.

## References

`src/lexer.c`, `src/expand.c` (`prepare`), `docs/aliases.md`.
-/

namespace CShell
namespace Lexical

open Machine List

variable {d : Decoder} {m m' : Machine} {bases : List ℕ} {origin : Position} {J fed : Bytes} {n : ℕ}

/-! ### Feeding -/

theorem Spaced.append {s : Source} (h : Spaced s) (bytes : Bytes) (final : Bool) :
    Spaced (s.append bytes final) := by
  intro a ha
  have hget := h a ha
  show (s.data ++ bytes)[a.stop - 1]? = _
  rw [List.getElem?_append_left (List.getElem?_eq_some_iff.mp hget).1, hget]

theorem Pinned.feed {l : Lexer} {cs : List Checkpoint} {bound : ℕ}
    (h : Pinned d bases l cs bound) (bytes : Bytes) (final : Bool) :
    Pinned d bases (l.feed bytes final)
      (cs.map fun c => { c with source := c.source.append bytes final }) bound := by
  induction h with
  | nil => exact .nil _
  | cons hs hc hle hb hshape hscans h ih =>
    exact .cons (hs.append bytes final) hc hle hb hshape hscans ih

theorem Waiting.feed {ls : List Lexer} (h : Waiting d ls bases) (bytes : Bytes) (final : Bool) :
    Waiting d (ls.map (Lexer.feed bytes final)) bases := by
  induction h with
  | nil => exact .nil
  | cons hi hc hle hs h0 hp h ih => exact .cons hi hc hle hs h0 (hp.feed bytes final) ih

theorem Formed.feed (h : Formed d m bases) (ht : Traced origin J fed n m) (bytes : Bytes)
    (final : Bool) :
    Formed d
      { source := m.source.compact.append bytes final, lexer := m.lexer.feed bytes final,
        parents := m.parents.map (Lexer.feed bytes final) } bases where
  waiting := h.waiting.feed bytes final
  pinned := h.pinned.feed bytes final
  nonzero := h.nonzero
  spaced := by
    have hcompact : Spaced m.source.compact := h.spaced.compact ht.tape rfl rfl
    exact hcompact.append bytes final
  word := h.word
  scans := h.scans
  operator := h.operator
  last := h.last
  closes hp := by
    intro parent rest base hparents hbase hclean
    obtain ⟨l, ls, hls, rfl, rfl⟩ := map_eq_cons_iff.mp hparents
    refine h.closes hp l ls base hls hbase ?_
    intro a ha
    have := hclean _ (mem_map_of_mem ha)
    rwa [length_map] at this

/-! ### Command substitutions -/

/-- A lexer that opened a command substitution is in a word. -/
theorem Traced.commanding (h : Traced origin J fed n m) (hc : m.lexer.command = true) :
    m.lexer.active = true ∧ m.lexer.kind = .word := by
  obtain ⟨low, -, hword, -⟩ := h.chain
  obtain ⟨frame, frames, hframes, -⟩ := inFrame_iff.mp (hword.command hc)
  constructor
  · by_contra hi
    rw [(hword.idle (by simpa using hi)).2.2.1] at hframes
    cases hframes
  · by_contra hk
    rw [hword.operator hk] at hframes
    cases hframes

theorem Formed.commandBegin (h : Formed d m bases) (ht : Traced origin J fed n m)
    (hc : m.lexer.command = true) :
    Formed d { m with lexer := {}, parents := m.lexer :: m.parents }
      (m.lexer.raw.length :: bases) := by
  obtain ⟨hi, hk⟩ := ht.commanding hc
  refine ⟨⟨.cons hi hc (Nat.le_refl _) ?_ h.nonzero h.pinned h.waiting, .nil _, not_mem_nil⟩,
    h.spaced, ?_, ?_, ?_, ?_, ?_⟩
  · rw [take_length]
    exact h.word hi hk
  · intro hactive
    cases hactive
  · intro _ frame hframe
    cases hframe
  · intro hactive
    cases hactive
  · intro _ last hlast
    cases hlast
  · rintro (⟨hactive, -⟩ | ⟨-, last, hlast, -⟩)
    · cases hactive
    · cases hlast

/-- The spelling of a command substitution that is closed. -/
theorem sealed_command {f : Fragment} {raw v : Bytes} {base : ℕ} (hk : f.kind = .command)
    (hraw : raw = v ++ [byteOf ')']) (hle : base ≤ v.length) (hbegin : f.begin ≤ base)
    (ho : Opened .command f.quote ((raw.take base).drop f.begin)) : Sealed d f (raw.drop f.begin) := by
  obtain ⟨o, hstart, hspans⟩ := ho
  have htake : raw.take base = v.take base := by rw [hraw, List.take_append_of_le_length hle]
  rw [htake] at hstart
  obtain ⟨v', hv'⟩ : o <+: v.drop f.begin := by
    rw [List.drop_take] at hstart
    exact hstart.trans (List.take_prefix _ _)
  unfold Sealed
  rw [hk]
  refine ⟨o, v', ?_, hspans⟩
  rw [hraw, List.drop_append_of_le_length (hbegin.trans hle), hv']

theorem Formed.commandEnd (h : Formed d m bases) (ht : Traced origin J fed n m) {parent : Lexer}
    {rest : List Lexer} (hp : m.parents = parent :: rest) {closing : Token}
    (hc : m.closes closing = true) (hclean : CleanAt m.source rest.length)
    (hpop : pop { m with lexer := { parent with command := false }, parents := rest } 0 = .ok m') :
    ∃ bases, Formed d m' bases := by
  have hparen : AtParen m := by
    unfold Machine.closes at hc
    rw [Bool.and_eq_true] at hc
    obtain ⟨hi, hc⟩ := hc
    right
    refine ⟨by simpa using hi, ?_⟩
    split at hc
    · cases hc
    · rename_i last hlast
      have := of_decide_eq_true hc
      exact ⟨last, hlast, this.2.1, this.2.2.2.2⟩
  have hwaiting := h.waiting
  rw [hp] at hwaiting
  cases hwaiting with
  | @cons _ _ base bs hi hcommand hle hs h0 hpinned hrest =>
    obtain ⟨v, hraw, hbase⟩ := h.closes hparen parent rest base hp rfl hclean
    obtain ⟨low, -, -, hchain⟩ := ht.chain
    rw [hp] at hchain
    obtain ⟨low', -, hword, -⟩ := hchain
    obtain ⟨frame, frames, hframes, hkind⟩ := inFrame_iff.mp (hword.command hcommand)
    have hcand := hword.candidates
    have hbased : Lexer.Based { parent with command := false } :=
      fun c hc => (hcand.counts c hc).1
    rw [hframes] at hcand
    have hk : parent.kind = .word := by
      by_contra hk
      rw [hword.operator hk] at hframes
      cases hframes
    have hbroken : Broken d { m with lexer := { parent with command := false }, parents := rest } bs :=
      ⟨hrest, (hpinned.mono hle).congr (fun _ _ => rfl) fun _ _ => ⟨rfl, rfl⟩, h0⟩
    have hkeep := @pop_extends { m with lexer := { parent with command := false }, parents := rest }
      hbased frame frames hframes hcand.counts_top 0
    rw [hpop] at hkeep
    have hspaced : Spaced m'.source := by
      refine Spaced.grows ?_ hkeep
      exact h.spaced
    have hbroken' := hbroken.grows hkeep
    have hshape : Shape d parent.raw parent.fragments parent.frames := by
      have hne : parent.frames ≠ [] := by
        rw [hframes]
        exact cons_ne_nil _ _
      have := hs.read hne (parent.raw.drop base)
      rwa [take_append_drop] at this
    rw [hframes] at hshape
    rw [pop_eq hframes] at hpop
    cases hpop
    refine ⟨bs, hbroken'.formed hspaced hi hk ?_ ?_⟩
    · show Shape d parent.raw (parent.fragments.modify frame.fragment _) parent.frames.tail
      rw [hframes, tail_cons]
      refine hshape.pop (fun x => ⟨rfl, rfl, rfl, rfl, rfl⟩) ?_
      intro f hf hfk
      obtain ⟨f', hf', -, hopened⟩ := hs.opened frame (by rw [hframes]; exact mem_cons_self)
      rw [hf] at hf'
      cases hf'
      have hbegin := hs.begin_le hf
      rw [length_take, Nat.min_eq_left hle] at hbegin
      rw [hkind] at hopened hfk
      exact sealed_command hfk hraw hbase hbegin hopened
    · intro _ x hx
      have hx' : x ∈ parent.frames.tail.head? := hx
      rw [hframes, tail_cons] at hx'
      exact hshape.single x (mem_of_mem_head? hx')

/-! ### Aliases and raw input -/

theorem Spaced.insert {s s' : Source} (h : Spaced s) (ht : OnTape origin J fed n s) {value : Bytes}
    {entry : AliasSource} (hd : s'.data = s.data.take s.cursor ++ value ++ [byteOf ' '] ++ s.unread)
    (hstop : entry.stop = s.cursor + (value.length + 1))
    (ha : s'.aliases =
      entry :: s.aliases.map fun a => { a with stop := a.stop + (value.length + 1) }) :
    Spaced s' := by
  have hcursor : (s.data.take s.cursor).length = s.cursor := by
    rw [length_take, Nat.min_eq_left ht.cursor]
  intro a hmem
  rw [ha] at hmem
  rw [hd]
  rcases mem_cons.mp hmem with rfl | hmem
  · rw [getElem?_append_left, getElem?_append_right]
    · rw [hstop, length_append, hcursor,
        show s.cursor + (value.length + 1) - 1 - (s.cursor + value.length) = 0 by omega]
      rfl
    · rw [hstop, length_append, hcursor]
      omega
    · rw [hstop, length_append, length_append, hcursor, length_singleton]
      omega
  · obtain ⟨b, hb, rfl⟩ := mem_map.mp hmem
    have hlt := (pairwise_cons.mp ht.stops).1 b.stop (mem_map_of_mem hb)
    rw [getElem?_append_right]
    · rw [length_append, length_append, hcursor, length_singleton, Source.unread,
        getElem?_drop]
      have heq : s.cursor + (b.stop + (value.length + 1) - 1 - (s.cursor + value.length + 1)) =
          b.stop - 1 := by omega
      rw [heq]
      exact h b hb
    · rw [length_append, length_append, hcursor, length_singleton]
      show _ ≤ b.stop + (value.length + 1) - 1
      omega

/-- A lexer between tokens that forgot the last one. -/
theorem Formed.forget (h : Formed d m bases) (hi : m.lexer.active = false) {s : Source}
    (hs : Spaced s) :
    Formed d { m with source := s, lexer := { m.lexer with last := none } } bases where
  waiting := h.waiting
  pinned := h.pinned.congr (fun _ _ => rfl) fun _ _ => ⟨rfl, rfl⟩
  nonzero := h.nonzero
  spaced := hs
  word := h.word
  scans := h.scans
  operator := h.operator
  last _ last hlast := by cases hlast
  closes hp := by
    rcases hp with ⟨hactive, -⟩ | ⟨-, last, hlast, -⟩
    · have hactive' : m.lexer.active = true := hactive
      rw [hi] at hactive'
      cases hactive'
    · cases hlast

theorem aliasPush_formed (h : Settled d m bases) (ht : Tracks origin J fed m) (depth : ℕ)
    (token : Token) (name value : Bytes) :
    Settled d (m.aliasPush depth token name value).2 bases ∨
      Dead (m.aliasPush depth token name value).2 := by
  unfold aliasPush
  split
  · exact .inl h
  · rename_i hfailure
    split
    · exact h.1.failAt _ _ _ _
    · rename_i hguard
      have hdelimited : m.delimited token = true := by
        by_contra hne
        exact hguard (.inr (.inr (.inl (by simpa using hne))))
      have hi : m.lexer.active = false := by
        unfold delimited at hdelimited
        rw [Bool.and_eq_true] at hdelimited
        simpa using hdelimited.1
      have hformed := h.2 (by simpa using hfailure)
      obtain ⟨n, htraced⟩ := ht
      refine .inl (hformed.forget hi ?_).settled
      exact hformed.spaced.insert htraced.tape rfl rfl rfl

theorem skipRaw_formed (h : Settled d m bases) (depth length : ℕ) :
    Settled d (m.skipRaw depth length).2 bases ∨ Dead (m.skipRaw depth length).2 := by
  unfold skipRaw
  split
  · exact .inl h
  · rename_i hfailure
    split
    · exact h.1.failAt _ _ _ _
    · rename_i hguard
      simp only [not_or] at hguard
      have hi : m.lexer.active = false := by simpa using hguard.2.1
      have hformed := h.2 (by simpa using hfailure)
      have hforgot := hformed.forget hi hformed.spaced
      have hkeep := consume_extends (m.onLexer fun l => { l with last := none }) length
      cases hconsume : (m.onLexer fun l => { l with last := none }).consume length with
      | error m₁ =>
        rw [hconsume] at hkeep
        exact hkeep.imp
          (fun hgrows => (hforgot.toBroken.grows hgrows).settled (consume_failure hconsume)) id
      | ok m₁ =>
        rw [hconsume] at hkeep
        obtain ⟨raw, position, heq⟩ := consume_lexer length hconsume
        have hi₁ : m₁.lexer.active = false := by
          rw [heq]
          exact hi
        have hspaced : Spaced m₁.source := hforgot.spaced.grows hkeep
        refine .inl (Formed.settled ⟨hforgot.toBroken.grows hkeep, hspaced, ?_, ?_, ?_, ?_, ?_⟩)
        · intro hactive
          rw [hi₁] at hactive
          cases hactive
        · show m₁.lexer.command = false → ∀ frame ∈ m₁.lexer.frames.head?, frame.kind ≠ .command
          rw [heq]
          exact hformed.scans
        · intro hactive
          rw [hi₁] at hactive
          cases hactive
        · intro _ last hlast
          rw [heq] at hlast
          cases hlast
        · rintro (⟨hactive, -⟩ | ⟨-, last, hlast, -⟩)
          · rw [hi₁] at hactive
            cases hactive
          · rw [heq] at hlast
            cases hlast

/-! ### Runs -/

/-- A call does not close a command substitution while an alias substituted inside it
is being read. -/
def Call.Clean (m : Machine) : Call → Prop
  | .commandEnd depth closing =>
    (m.commandEnd depth closing).1 = true → CleanAt m.source depth
  | _ => True

namespace Session

variable (d) in
/-- Every command substitution of a run is closed after the aliases substituted
inside it. -/
def Clean (s : Session) : List Call → Prop
  | [] => True
  | call :: calls => call.Clean s.machine ∧ Clean (s.perform d call) calls

variable (d J) in
/-- A session over the input `J` whose pending words have their shape. -/
def Sound (s : Session) : Prop :=
  (Tracks s.origin J s.fed s.machine ∧ ∃ bases, Settled d s.machine bases) ∨ Dead s.machine

variable {s : Session}

/-- A call that leaves the session as it is, but for the machine. -/
theorem Sound.machine (ht : Tracks s.origin J s.fed m ∨ Dead m)
    (h : (∃ bases, Settled d m bases) ∨ Dead m) : Sound d J { s with machine := m } := by
  rcases ht with ht | hdead
  · rcases h with h | hdead
    · exact .inl ⟨ht, h⟩
    · exact .inr hdead
  · exact .inr hdead

theorem Sound.refuse (ht : Tracks s.origin J s.fed s.machine) (h : Settled d s.machine bases)
    (hr : Refuses s.machine m) : Sound d J { s with machine := m } := by
  refine .machine (hr.tracks ht) ?_
  rcases hr with rfl | ⟨l, message, number, position, rfl⟩
  · exact .inl ⟨bases, h⟩
  · exact (h.1.failAt l message number position).imp (fun h => ⟨bases, h⟩) id

theorem Sound.perform (hd : d.Prompt) {call : Call} (hc : call.Clean s.machine)
    (h : ∀ J, s.fed <+: J → Sound d J s) :
    ∀ J, (s.perform d call).fed <+: J → Sound d J (s.perform d call) := by
  intro J hj
  rcases h J ((perform_fed s call).trans hj) with ⟨ht, bases, hs⟩ | hdead
  · cases call with
    | feed bytes final =>
      rw [Session.perform] at hj ⊢
      rcases feed_cases s.machine bytes final with ⟨m', heq, hrefuse⟩ | ⟨hnone, -, heq⟩
      · rw [heq]
        exact .refuse ht hs hrefuse
      · rw [heq] at hj ⊢
        obtain ⟨n, htraced⟩ := ht
        exact .inl ⟨⟨n, htraced.feed hj final⟩, bases,
          ((hs.2 hnone).feed htraced bytes final).settled⟩
    | next depth =>
      have hok := lexerNext_ok (d := d) ht depth
      have hformed := lexerNext_formed hd hs ht depth
      rw [Session.perform]
      generalize s.machine.lexerNext d depth = answer at hok hformed ⊢
      obtain ⟨result, m⟩ := answer
      cases result with
      | error => exact .machine hok hformed
      | eof => exact .inl ⟨hok.1, bases, hformed.settled⟩
      | token t => exact .inl ⟨hok.1, bases, hformed.1.settled⟩
      | more => exact .inl ⟨hok.1, bases, hformed.settled⟩
      | command => exact .inl ⟨hok.1, bases, hformed.settled⟩
      | replay =>
        obtain ⟨bases', hformed⟩ := hformed
        exact .inl ⟨hok.1, bases', hformed.settled⟩
    | commandBegin depth =>
      rw [Session.perform]
      rcases commandBegin_cases s.machine depth with ⟨m', heq, hrefuse⟩ | ⟨hnone, -, hcommand, heq⟩
      · rw [heq]
        exact .refuse ht hs hrefuse
      · rw [heq]
        obtain ⟨n, htraced⟩ := ht
        exact .inl ⟨⟨n, htraced.commandBegin⟩, _,
          ((hs.2 hnone).commandBegin htraced hcommand).settled⟩
    | commandEnd depth closing =>
      rw [Session.perform]
      rcases commandEnd_cases s.machine depth closing with
        ⟨m', heq, hrefuse⟩ | ⟨parent, rest, m', hnone, hp, hdepth, hcommand, hcloses, hpop, heq⟩
      · rw [heq]
        exact .refuse ht hs hrefuse
      · have hclean : CleanAt s.machine.source rest.length := by
          rw [← hdepth]
          exact hc (by rw [heq])
        obtain ⟨n, htraced⟩ := ht
        have htracks := htraced.commandEnd hp hcommand hclean
        obtain ⟨bases', hformed⟩ :=
          (hs.2 hnone).commandEnd htraced hp hcloses hclean hpop
        rw [hpop] at htracks
        rw [heq]
        exact .inl ⟨htracks, bases', hformed.settled⟩
    | replay depth error =>
      have hok := replayArithmetic_tracks ht depth error
      have hformed := replayArithmetic_formed hs ht depth error
      rw [Session.perform]
      generalize s.machine.replayArithmetic depth error = answer at hok hformed ⊢
      obtain ⟨replay, m⟩ := answer
      cases replay with
      | replayed =>
        obtain ⟨bases', hformed⟩ := hformed
        exact .inl ⟨hok.1, bases', hformed.settled⟩
      | refused => exact .machine hok hformed
      | failed => exact .machine hok hformed
    | aliasPush depth token name value =>
      exact .machine (aliasPush_tracks ht depth token name value)
        ((aliasPush_formed hs ht depth token name value).imp (Exists.intro bases) id)
    | skipRaw depth length =>
      have hok := skipRaw_tracks ht depth length
      have hformed : (∃ bases, Settled d (s.machine.skipRaw depth length).2 bases) ∨ _ :=
        (skipRaw_formed hs depth length).imp (Exists.intro bases) id
      rw [Session.perform]
      generalize s.machine.skipRaw depth length = answer at hok hformed ⊢
      obtain ⟨success, m⟩ := answer
      cases success with
      | true => exact .machine hok hformed
      | false => exact .machine hok hformed
    | followsRedirection =>
      obtain ⟨n, htraced⟩ := ht
      have hlook := htraced.look.peek (d := d) 0
      obtain ⟨c, heq⟩ := peek_eq (d := d) s.machine 0
      rw [Session.perform, followsRedirection_eq, heq]
      rw [heq] at hlook
      refine .inl ⟨⟨n, htraced.onSource rfl rfl rfl rfl hlook⟩, bases,
        ⟨hs.1.waiting, hs.1.pinned, hs.1.nonzero⟩, ?_⟩
      intro hnone
      exact (hs.2 hnone).source rfl rfl rfl
  · obtain ⟨m, heq, hdead'⟩ := perform_dead (d := d) hdead call
    rw [heq]
    exact .inr hdead'

/-- A clean run keeps the shapes. -/
theorem Sound.run (hd : d.Prompt) {calls : List Call} (hc : s.Clean d calls)
    (h : ∀ J, s.fed <+: J → Sound d J s) :
    (s.run d calls).origin = s.origin ∧
      ∀ J, (s.run d calls).fed <+: J → Sound d J (s.run d calls) := by
  induction calls generalizing s with
  | nil => exact ⟨rfl, h⟩
  | cons call calls ih =>
    obtain ⟨horigin, hsound⟩ := ih hc.2 (Sound.perform hd hc.1 h)
    exact ⟨horigin.trans (perform_origin s call), hsound⟩

theorem Sound.start (d : Decoder) (name : Bytes) (origin : Position) (document : Bool) (J : Bytes) :
    Sound d J (start name origin document) := by
  refine .inl ⟨start_tracks name origin document J, [], Formed.settled ?_⟩
  refine ⟨⟨.nil, .nil _, not_mem_nil⟩, ?_, ?_, ?_, ?_, ?_, ?_⟩
  · intro a ha
    cases ha
  · intro hi
    cases hi
  · intro _ frame hframe
    cases hframe
  · intro hi
    cases hi
  · intro _ last hlast
    cases hlast
  · rintro (⟨hi, -⟩ | ⟨-, last, hlast, -⟩)
    · cases hi
    · cases hlast

/-- Without aliases every run is clean. -/
theorem Kept.clean {calls : List Call} (hc : ∀ call ∈ calls, call.substitutes = false)
    (h : ∀ J, s.fed <+: J → Kept J s) : s.Clean d calls := by
  induction calls generalizing s with
  | nil => trivial
  | cons call calls ih =>
    refine ⟨?_, ih (fun other hmem => hc other (mem_cons_of_mem _ hmem))
      (Kept.perform (d := d) (hc call mem_cons_self) h)⟩
    cases call with
    | commandEnd depth closing =>
      intro hend
      cases h s.fed (prefix_refl _) with
      | live r rs hr ht h => exact cleanAt_nil h.level.1.1 depth
      | dead hd h =>
        unfold Machine.commandEnd at hend
        rw [if_pos hd.1] at hend
        cases hend
    | _ => trivial

/-- A word that a clean run returns. -/
theorem Clean.word (hd : d.Prompt) {name : Bytes} {document : Bool} {calls : List Call}
    (hc : (start name origin document).Clean d calls) {depth : ℕ} {t : Token}
    (hn : (((start name origin document).run d calls).machine.lexerNext d depth).1 = .token t) :
    (t.aliasName = none →
      ∃ a b, TokenAt origin ((start name origin document).run d calls).fed a b t) ∧
      (t.kind = .word → Shape d t.raw t.fragments [] ∧ NulFree t.raw) := by
  obtain ⟨horigin, hsound⟩ := Sound.run hd hc fun J _ => Sound.start d name origin document J
  generalize (start name origin document).run d calls = s at hn horigin hsound ⊢
  have horigin' : s.origin = origin := horigin
  subst horigin'
  rcases hsound s.fed (prefix_refl _) with ⟨ht, bases, hs⟩ | hdead
  · have hok := lexerNext_ok (d := d) ht depth
    have hformed := lexerNext_formed hd hs ht depth
    rw [hn] at hok hformed
    exact ⟨hok.2.2, hformed.2⟩
  · unfold lexerNext at hn
    rw [if_pos hdead.1] at hn
    cases hn

end Session

/-- Without aliases, every word a lexer returns passes the checks of `prepare`, and
its root fragments are its spelling from beginning to end. -/
theorem words_prepared (d : Decoder) (hd : d.Prompt) (name : Bytes) (origin : Position)
    (document : Bool) (calls : List Call) (hcalls : ∀ call ∈ calls, call.substitutes = false)
    (depth : ℕ) (t : Token)
    (hnext : (((Session.start name origin document).run d calls).machine.lexerNext d depth).1 =
      .token t) (hk : t.kind = .word) :
    (∃ nesting, Expand.prepareLoop d t t.fragments 0 {} = .ok nesting) ∧
      Contiguous 0 (roots t.fragments) t.raw.length ∧
      ∀ env : ExpandEnv, env.lexical = d → (∃ prepared, Expand.prepare env t = .ok prepared) ∨
        ∃ i, Expand.prepare env t =
          .error (some (i, ascii "dollar-single-quote decoding failed")) := by
  have hclean := Session.Kept.clean (d := d) hcalls
    fun J _ => Session.Kept.start name origin document J
  obtain ⟨hshape, h0⟩ := (Session.Clean.word hd hclean hnext).2 hk
  refine ⟨hshape.accepted, hshape.tiled, ?_⟩
  rintro env rfl
  exact hshape.prepared hk h0

/-- The word `'c'` has a quoted fragment with a text inside. -/
theorem words_prepared_quoted :
    Contiguous 0
      (roots [⟨.quoted, .single, none, 0, 3, ⟨0, 1, 1⟩, ⟨3, 1, 4⟩⟩,
        ⟨.text, .single, some 0, 1, 2, ⟨1, 1, 2⟩, ⟨2, 1, 3⟩⟩]) (ascii "'c'").length :=
  (words_prepared .posix Decoder.posix_prompt [] ⟨0, 1, 1⟩ false [.feed (ascii "'c'") true]
    (by decide) 0
    { kind := .word, raw := ascii "'c'", start := ⟨0, 1, 1⟩, stop := ⟨3, 1, 4⟩,
      fragments := [⟨.quoted, .single, none, 0, 3, ⟨0, 1, 1⟩, ⟨3, 1, 4⟩⟩,
        ⟨.text, .single, some 0, 1, 2, ⟨1, 1, 2⟩, ⟨2, 1, 3⟩⟩] }
    (by decide +kernel) rfl).2.1

/-- In a clean run every word passes the checks of `prepare`, the command
substitutions in it are spelled with their delimiters, and one that starts outside
aliases is the input between its positions. -/
theorem words_spelled (d : Decoder) (hd : d.Prompt) (name : Bytes) (origin : Position)
    (document : Bool) (calls : List Call)
    (hclean : (Session.start name origin document).Clean d calls) (depth : ℕ) (t : Token)
    (hnext : (((Session.start name origin document).run d calls).machine.lexerNext d depth).1 =
      .token t) (hk : t.kind = .word) :
    (t.aliasName = none →
      ∃ a b, TokenAt origin ((Session.start name origin document).run d calls).fed a b t) ∧
      (∀ f ∈ t.fragments, f.kind = .command →
        ∃ opening body, Expand.slice t.raw f.begin f.stop = opening ++ body ++ [byteOf ')'] ∧
          Spans [byteOf '$', byteOf '('] opening) ∧
      (∃ nesting, Expand.prepareLoop d t t.fragments 0 {} = .ok nesting) ∧
      ∀ env : ExpandEnv, env.lexical = d → (∃ prepared, Expand.prepare env t = .ok prepared) ∨
        ∃ i, Expand.prepare env t =
          .error (some (i, ascii "dollar-single-quote decoding failed")) := by
  obtain ⟨hplace, hword⟩ := Session.Clean.word hd hclean hnext
  obtain ⟨hshape, h0⟩ := hword hk
  refine ⟨hplace, ?_, hshape.accepted, fun env henv => ?_⟩
  swap
  · subst henv
    exact hshape.prepared hk h0
  intro f hf hcommand
  obtain ⟨i, hi⟩ := mem_iff_getElem?.mp hf
  obtain ⟨-, -, hsealed⟩ := hshape.core.closed i f hi not_mem_nil
  unfold Sealed at hsealed
  rw [hcommand] at hsealed
  exact hsealed

/-- In `$(e)` with the alias `e=b` the alias has been read when the substitution is
closed, and the word keeps the spelling of the input. -/
theorem words_spelled_alias_inside :
    ∃ a b, TokenAt ⟨0, 1, 1⟩ (ascii "$(e)") a b
      { kind := .word, raw := ascii "$(e)", start := ⟨0, 1, 1⟩, stop := ⟨4, 1, 5⟩,
        fragments := [⟨.command, .none, none, 0, 4, ⟨0, 1, 1⟩, ⟨4, 1, 5⟩⟩] } :=
  (words_spelled .posix Decoder.posix_prompt [] ⟨0, 1, 1⟩ false
    [.feed (ascii "$(e)") true, .next 0, .commandBegin 0, .next 1,
      .aliasPush 1 { kind := .word, raw := ascii "e", start := ⟨2, 1, 3⟩, stop := ⟨3, 1, 4⟩ }
        (ascii "e") (ascii "b"),
      .next 1, .next 1,
      .commandEnd 0 { kind := .rparen, raw := ascii ")", start := ⟨3, 1, 4⟩, stop := ⟨4, 1, 5⟩ }]
    ⟨trivial, trivial, trivial, trivial, trivial, trivial, trivial, fun _ => by decide +kernel,
      trivial⟩ 0
    { kind := .word, raw := ascii "$(e)", start := ⟨0, 1, 1⟩, stop := ⟨4, 1, 5⟩,
      fragments := [⟨.command, .none, none, 0, 4, ⟨0, 1, 1⟩, ⟨4, 1, 5⟩⟩] }
    (by decide +kernel) rfl).1 rfl

/-- `x=$(end` with the alias `end='echo )'`, whose parenthesis closes the
substitution. -/
def aliasClosing : List Call :=
  [.feed (ascii "x=$(end\n") true, .next 0, .commandBegin 0, .next 1,
    .aliasPush 1 { kind := .word, raw := ascii "end", start := ⟨4, 1, 5⟩, stop := ⟨7, 1, 8⟩ }
      (ascii "end") (ascii "echo )"),
    .next 1, .next 1,
    .commandEnd 0 { kind := .rparen, raw := ascii ")", start := ⟨5, 1, 6⟩, stop := ⟨6, 1, 7⟩ }]

/-- The word around it, which has not captured the parenthesis. -/
def aliasClosed : Token :=
  { kind := .word, raw := ascii "x=$(end", start := ⟨0, 1, 1⟩, stop := ⟨7, 1, 8⟩,
    fragments := [⟨.text, .none, none, 0, 2, ⟨0, 1, 1⟩, ⟨2, 1, 3⟩⟩,
      ⟨.command, .none, none, 2, 7, ⟨2, 1, 3⟩, ⟨7, 1, 8⟩⟩] }

theorem words_spelled_alias_closing :
    (((Session.start [] ⟨0, 1, 1⟩ false).run .posix aliasClosing).machine.lexerNext .posix 0).1 =
        .token aliasClosed ∧ aliasClosed.kind = .word ∧ aliasClosed.aliasName = none ∧
      (∃ f ∈ aliasClosed.fragments, f.kind = .command ∧
        Expand.slice aliasClosed.raw f.begin f.stop = ascii "$(end") ∧
      ∀ nesting, Expand.prepareLoop .posix aliasClosed aliasClosed.fragments 0 {} ≠ .ok nesting := by
  refine ⟨by decide +kernel, rfl, rfl,
    ⟨_, List.mem_cons_of_mem _ List.mem_cons_self, rfl, by decide⟩, ?_⟩
  intro nesting hloop
  have hrejected : (match Expand.prepareLoop .posix aliasClosed aliasClosed.fragments 0 {} with
      | .ok _ => true
      | .error _ => false) = false := by decide +kernel
  rw [hloop] at hrejected
  cases hrejected

end Lexical
end CShell
