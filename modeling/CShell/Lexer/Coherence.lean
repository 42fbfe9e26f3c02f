import CShell.Lexer.Aliases

/-!
# The lookahead and its cache

`peek` scans for the logical character it is asked for, and remembers where those before
it begin.  What it remembers is relative to the cursor, and is taken to hold while the
position has one offset; a feed in between moves the buffer and appends to it, and may
be the last one.

A character whose width was decided keeps it when bytes are appended, because the C
library decides as soon as it can.  Nothing else changes what is ahead without dropping
what was remembered: a byte consumed drops it, and so do a substitution and a replay.
A failure that gives the tape back does not drop it.  Behind such a failure a lookahead
for what was found before reads through the tape that is no longer there.

## Main definitions

* `Decoder.Decisive` — a decided width does not depend on what follows.
* `lookFrom` — the scan without a cache.
* `Scanned` — what a scan from the cursor has found.
* `Occurs` — the machines on which `next_token` begins a round.
* `Dangling` — the tape is gone, and what was found on it is remembered.

## Main results

* `peek_eq_lookFrom` — a coherent cache answers as the scan does.
* `lookahead_coherent_iff` — **a lookahead answers as the scan does, unless it dangles.**

## References

`src/lexer.c` (`peek`, `csh_lexer_feed`, `csh_lexer_alias_push`), `src/character.c`.
-/

namespace CShell

open List

/-- `mbrlen` reads from the front: bytes behind a character or an invalid sequence do
not change the answer. -/
def Decoder.Decisive (d : Decoder) : Prop :=
  ∀ text more : Bytes, text ≠ [] → d.mbrlen text ≠ .incomplete → d.mbrlen (text ++ more) = d.mbrlen text

theorem Decoder.posix_decisive : Decoder.posix.Decisive := by
  intro text more hne _
  obtain ⟨byte, rest, rfl⟩ := exists_cons_of_ne_nil hne
  rfl

/-- A width that is decided stays. -/
theorem Decoder.Decisive.characterLength_append {d : Decoder} (hd : d.Decisive) {text : Bytes}
    (h : 0 < d.characterLength text false) (more : Bytes) (final : Bool) :
    d.characterLength (text ++ more) final = d.characterLength text false := by
  cases text with
  | nil => exact absurd h (Nat.lt_irrefl 0)
  | cons byte rest =>
    have hsame := hd (byte :: rest) more (cons_ne_nil byte rest)
    rw [cons_append] at hsame ⊢
    unfold characterLength characterBytes at *
    dsimp only at h ⊢
    by_cases hlt : byte < 0x80
    · rw [if_pos hlt, if_pos hlt]
    · rw [if_neg hlt] at h
      rw [if_neg hlt, if_neg hlt]
      by_cases hwait : d.mbrlen (byte :: rest) = .incomplete
      · rw [hwait] at h
        exact absurd h (Nat.lt_irrefl 0)
      · simp only [hsame hwait, hwait, if_false, decide_false, Bool.false_and, Bool.false_eq_true]

namespace Lexical

open Machine

variable {d : Decoder}

/-! ### The scan without a cache -/

variable (d) in
/-- The scan for a logical character, `skipped` bytes behind the cursor: pairs of a backslash
and a newline are skipped, and so are `wanted` whole characters. -/
def lookFrom (final : Bool) (text : Bytes) (skipped wanted : ℕ) : Look :=
  match text with
  | [] => if final then .eof else .more
  | byte :: rest =>
    if byte = byteOf '\\' ∧ rest = [] ∧ final = false then .more
    else if byte = byteOf '\\' ∧ rest.head? = some (byteOf '\n') then
      lookFrom final (rest.drop 1) (skipped + 2) wanted
    else if d.characterLength (byte :: rest) final = 0 then .more
    else
      match wanted with
      | 0 =>
        if 1 < d.characterLength (byte :: rest) final then
          .wide (skipped + d.characterLength (byte :: rest) final)
        else .byte byte (skipped + d.characterLength (byte :: rest) final)
      | wanted + 1 =>
        lookFrom final (rest.drop (d.characterLength (byte :: rest) final - 1))
          (skipped + d.characterLength (byte :: rest) final) wanted
termination_by text.length
decreasing_by all_goals simp only [List.length_drop, List.length_cons]; omega

theorem lookFrom_cons (final : Bool) (byte : UInt8) (rest : Bytes) (skipped wanted : ℕ) :
    lookFrom d final (byte :: rest) skipped wanted =
      if byte = byteOf '\\' ∧ rest = [] ∧ final = false then .more
      else if byte = byteOf '\\' ∧ rest.head? = some (byteOf '\n') then
        lookFrom d final (rest.drop 1) (skipped + 2) wanted
      else if d.characterLength (byte :: rest) final = 0 then .more
      else
        match wanted with
        | 0 =>
          if 1 < d.characterLength (byte :: rest) final then
            .wide (skipped + d.characterLength (byte :: rest) final)
          else .byte byte (skipped + d.characterLength (byte :: rest) final)
        | wanted + 1 =>
          lookFrom d final (rest.drop (d.characterLength (byte :: rest) final - 1))
            (skipped + d.characterLength (byte :: rest) final) wanted := by
  rw [lookFrom.eq_def]

variable (d) in
/-- What a scan from the cursor has found: where the logical characters begin, and where it
goes on. -/
inductive Scanned (text : Bytes) (final : Bool) : List ℕ → ℕ → Prop
  | nil : Scanned text final [] 0
  | continuation {positions : List ℕ} {scan : ℕ} (h : Scanned text final positions scan)
      (h₁ : text[scan]? = some (byteOf '\\')) (h₂ : text[scan + 1]? = some (byteOf '\n')) :
      Scanned text final positions (scan + 2)
  | char {positions : List ℕ} {scan : ℕ} (h : Scanned text final positions scan) {byte : UInt8}
      (hb : text[scan]? = some byte)
      (hwait : ¬(byte = byteOf '\\' ∧ scan + 1 = text.length ∧ final = false))
      (hpair : ¬(byte = byteOf '\\' ∧ text[scan + 1]? = some (byteOf '\n')))
      (hwidth : 0 < d.characterLength (text.drop scan) final) :
      Scanned text final (positions ++ [scan]) (scan + d.characterLength (text.drop scan) final)

theorem drop_of_getElem? {text : Bytes} {i : ℕ} {byte : UInt8} (h : text[i]? = some byte) :
    text.drop i = byte :: text.drop (i + 1) := by
  obtain ⟨hlt, rfl⟩ := List.getElem?_eq_some_iff.mp h
  exact drop_eq_getElem_cons hlt

/-- The answer at a place where a character begins. -/
def lookAt (d : Decoder) (text : Bytes) (final : Bool) (place : ℕ) : Look :=
  if 1 < d.characterLength (text.drop place) final then
    .wide (place + d.characterLength (text.drop place) final)
  else .byte (text.getD place 0) (place + d.characterLength (text.drop place) final)

namespace Scanned

variable {text : Bytes} {final : Bool} {positions : List ℕ} {scan : ℕ}

/-- A feed does not change what was found. -/
theorem append (hd : d.Decisive) (h : Scanned d text false positions scan) (more : Bytes) (final : Bool) :
    Scanned d (text ++ more) final positions scan := by
  have hkeep : ∀ {i : ℕ} {byte : UInt8}, text[i]? = some byte → (text ++ more)[i]? = some byte := by
    intro i byte hi
    rw [List.getElem?_append_left (List.getElem?_eq_some_iff.mp hi).1, hi]
  induction h with
  | nil => exact .nil
  | continuation _ h₁ h₂ ih => exact .continuation ih (hkeep h₁) (hkeep h₂)
  | @char positions scan _ byte hb hwait hpair hwidth ih =>
    have hlt := (List.getElem?_eq_some_iff.mp hb).1
    have hdrop : (text ++ more).drop scan = text.drop scan ++ more := drop_append_of_le_length hlt.le
    have hsame := hd.characterLength_append hwidth more final
    -- a backslash at the end of what was fed has not been passed
    have hnext : byte = byteOf '\\' → scan + 1 < text.length := by
      intro hslash
      have hend : scan + 1 ≠ text.length := fun hend => hwait ⟨hslash, hend, rfl⟩
      omega
    rw [← hsame, ← hdrop]
    refine .char ih (hkeep hb) ?_ ?_ ?_
    · rintro ⟨hslash, hend, -⟩
      have := hnext hslash
      rw [length_append] at hend
      omega
    · rintro ⟨hslash, hnewline⟩
      rw [getElem?_append_left (hnext hslash)] at hnewline
      exact hpair ⟨hslash, hnewline⟩
    · rw [hdrop, hsame]
      exact hwidth

section

variable (h : Scanned d text final positions scan)
include h

/-- A scan beyond what was found begins where it goes on. -/
theorem beyond {wanted : ℕ} (hw : positions.length ≤ wanted) :
    lookFrom d final text 0 wanted = lookFrom d final (text.drop scan) scan (wanted - positions.length) := by
  induction h with
  | nil => rfl
  | @continuation positions scan _ h₁ h₂ ih =>
    rw [ih hw, drop_of_getElem? h₁, lookFrom_cons, drop_of_getElem? h₂]
    simp only [cons_ne_nil, head?_cons, drop_succ_cons, drop_zero, and_self, false_and,
      and_false, if_false, if_true]
  | @char positions scan _ byte hb hwait hpair hwidth ih =>
    rw [length_append, length_singleton] at hw ⊢
    obtain ⟨more, rfl⟩ := Nat.exists_eq_add_of_le hw
    rw [ih (by omega), show positions.length + 1 + more - positions.length = more + 1 by omega,
      Nat.add_sub_cancel_left]
    have hdrop := drop_of_getElem? hb
    rw [hdrop] at hwidth ⊢
    rw [lookFrom_cons, if_neg, if_neg, if_neg hwidth.ne']
    · generalize d.characterLength (byte :: text.drop (scan + 1)) final = width at hwidth
      have hrest : (text.drop (scan + 1)).drop (width - 1) = text.drop (scan + width) := by
        rw [drop_drop, show scan + 1 + (width - 1) = scan + width by omega]
      rw [← hrest]
    · rintro ⟨hslash, hnewline⟩
      rw [head?_drop] at hnewline
      exact hpair ⟨hslash, hnewline⟩
    · rintro ⟨hslash, hnil, hfinal⟩
      have hlt := (List.getElem?_eq_some_iff.mp hb).1
      have hle := drop_eq_nil_iff.mp hnil
      exact hwait ⟨hslash, by omega, hfinal⟩

/-- A scan for one of the characters found ends there. -/
theorem found {wanted place : ℕ} (hp : positions[wanted]? = some place) :
    lookFrom d final text 0 wanted = lookAt d text final place := by
  induction h with
  | nil => cases hp
  | continuation _ _ _ ih => exact ih hp
  | @char positions scan h byte hb hwait hpair hwidth ih =>
    rcases concat_cases hp with ⟨-, hp⟩ | ⟨rfl, rfl⟩
    · exact ih hp
    · have hdrop := drop_of_getElem? hb
      rw [h.beyond (Nat.le_refl _), Nat.sub_self]
      unfold lookAt
      rw [getD_eq_getElem?_getD, hb, Option.getD_some]
      rw [hdrop] at hwidth ⊢
      rw [lookFrom_cons, if_neg, if_neg, if_neg hwidth.ne']
      · rintro ⟨hslash, hnewline⟩
        rw [head?_drop] at hnewline
        exact hpair ⟨hslash, hnewline⟩
      · rintro ⟨hslash, hnil, hfinal⟩
        have hlt := (List.getElem?_eq_some_iff.mp hb).1
        have hle := drop_eq_nil_iff.mp hnil
        exact hwait ⟨hslash, by omega, hfinal⟩

/-- The characters found are on the tape. -/
theorem lt : ∀ place ∈ positions, place < text.length := by
  induction h with
  | nil => exact fun _ hp => absurd hp not_mem_nil
  | continuation _ _ _ ih => exact ih
  | char _ hb _ _ _ ih =>
    intro place hp
    rcases mem_append.mp hp with hp | hp
    · exact ih place hp
    · rw [mem_singleton.mp hp]
      exact (List.getElem?_eq_some_iff.mp hb).1

theorem le : scan ≤ text.length := by
  cases h with
  | nil => exact Nat.zero_le _
  | continuation _ _ h₂ => exact (List.getElem?_eq_some_iff.mp h₂).1
  | @char positions scan _ byte hb =>
    have hlt := (List.getElem?_eq_some_iff.mp hb).1
    have hle := characterLength_le (d := d) (text.drop scan) final
    rw [length_drop] at hle
    omega

end

end Scanned

/-- The loop of `peek` goes on where it stopped, and answers as the scan does. -/
theorem lookLoop_scanned {text : Bytes} {final : Bool} {wanted fuel : ℕ} {c c' : LookCache}
    {answer : Option Look} (h : Scanned d text final c.positions c.scan) (hfuel : text.length < c.scan + fuel)
    (hl : lookLoop d text final wanted fuel c = (answer, c')) :
    Scanned d text final c'.positions c'.scan ∧ c'.offset = c.offset ∧
      (∀ look, answer = some look → lookFrom d final text 0 wanted = look) ∧
      (answer = none → wanted < c'.positions.length) := by
  induction fuel generalizing c with
  | zero => exact absurd h.le (by omega)
  | succ fuel ih =>
    unfold lookLoop at hl
    split at hl
    · next hwanted =>
      cases hl
      refine ⟨h, rfl, ?_, fun _ => hwanted⟩
      rintro look ⟨⟩
    · next hwanted =>
      have hbeyond := h.beyond (Nat.le_of_not_lt hwanted)
      split at hl
      · next hend =>
        cases hl
        refine ⟨h, rfl, ?_, fun hnone => by cases hnone⟩
        rintro look ⟨⟩
        rw [hbeyond, hend, drop_length, lookFrom.eq_def]
      · next hend =>
        have hlt : c.scan < text.length := Nat.lt_of_le_of_ne h.le hend
        have hb : text[c.scan]? = some (text.getD c.scan 0) := by
          rw [getD_eq_getElem?_getD, getElem?_eq_getElem hlt, Option.getD_some]
        have hdrop := drop_of_getElem? hb
        rw [if_neg (Nat.not_lt.mpr h.le)] at hl
        generalize text.getD c.scan 0 = byte at hl hb hdrop
        split at hl
        · next hwait =>
          cases hl
          refine ⟨h, rfl, ?_, fun hnone => by cases hnone⟩
          rintro look ⟨⟩
          rw [hbeyond, hdrop, lookFrom_cons, if_pos]
          exact ⟨hwait.1, drop_eq_nil_iff.mpr hwait.2.1.ge, hwait.2.2⟩
        · next hwait =>
          split at hl
          · next hpair =>
            obtain ⟨hslash, hin, hchar⟩ := hpair
            rw [getD_eq_getElem?_getD, getElem?_eq_getElem hin, Option.getD_some] at hchar
            have hnewline : text[c.scan + 1]? = some (byteOf '\n') := by
              rw [getElem?_eq_getElem hin, hchar]
            exact ih (c := { c with scan := c.scan + 2 }) (.continuation h (hslash ▸ hb) hnewline)
              (by dsimp only; omega) hl
          · next hpair =>
            have hnext : ¬(byte = byteOf '\\' ∧ text[c.scan + 1]? = some (byteOf '\n')) := by
              rintro ⟨hslash, hnewline⟩
              refine hpair ⟨hslash, (List.getElem?_eq_some_iff.mp hnewline).1, ?_⟩
              rw [getD_eq_getElem?_getD, hnewline, Option.getD_some]
            dsimp only at hl
            split at hl
            · next hzero =>
              cases hl
              refine ⟨h, rfl, ?_, fun hnone => by cases hnone⟩
              rintro look ⟨⟩
              rw [hdrop] at hzero
              rw [hbeyond, hdrop, lookFrom_cons, if_neg, if_neg, if_pos hzero]
              · rwa [head?_drop]
              · rw [drop_eq_nil_iff]
                rintro ⟨hslash, hle, hfinal⟩
                exact hwait ⟨hslash, by omega, hfinal⟩
            · next hzero =>
              exact ih (c := { c with positions := c.positions ++ [c.scan],
                                      scan := c.scan + d.characterLength (text.drop c.scan) final })
                (.char h hb hwait hnext (Nat.pos_of_ne_zero hzero)) (by dsimp only; omega) hl

/-! ### Caches -/

variable (d) in
/-- What a tape remembers is what a scan would find. -/
def Coherent (s : Source) : Prop :=
  ∀ c, s.look = some c → c.offset = s.position.offset → Scanned d s.unread s.final c.positions c.scan

theorem coherent_none {s : Source} (h : s.look = none) : Coherent d s := by
  intro c hc
  rw [h] at hc
  cases hc

theorem Coherent.congr {s s' : Source} (h : Coherent d s) (hu : s'.unread = s.unread)
    (hf : s'.final = s.final) (hl : s'.look = s.look) (hp : s'.position.offset = s.position.offset) :
    Coherent d s' := by
  intro c hc hoffset
  rw [hu, hf]
  exact h c (hl ▸ hc) (hoffset.trans hp)

/-- **A coherent cache answers as the scan does**, and stays coherent. -/
theorem peek_eq_lookFrom {m : Machine} (h : Coherent d m.source) (wanted : ℕ) :
    (m.peek d wanted).1 = lookFrom d m.source.final m.source.unread 0 wanted ∧
      Coherent d (m.peek d wanted).2.source := by
  have hstart : Scanned d m.source.unread m.source.final m.source.lookCache.positions
      m.source.lookCache.scan ∧ m.source.lookCache.offset = m.source.position.offset := by
    unfold Source.lookCache
    split
    · next c hc =>
      split
      · next hoffset => exact ⟨h c hc hoffset, hoffset⟩
      · exact ⟨.nil, rfl⟩
    · exact ⟨.nil, rfl⟩
  generalize hl : lookLoop d m.source.unread m.source.final wanted (m.source.unread.length + 1)
    m.source.lookCache = result
  obtain ⟨answer, c⟩ := result
  obtain ⟨hscanned, -, hsome, hnone⟩ := lookLoop_scanned hstart.1 (by omega) hl
  have hcoherent : Coherent d { m.source with look := some c } := by
    intro c' hc' _
    cases hc'
    exact hscanned
  unfold Machine.peek
  dsimp only
  rw [hl]
  cases answer with
  | some look => exact ⟨(hsome look rfl).symm, hcoherent⟩
  | none =>
    have hget : c.positions[wanted]? = some (c.positions.getD wanted 0) := by
      rw [getD_eq_getElem?_getD, getElem?_eq_getElem (hnone rfl), Option.getD_some]
    have hlt := hscanned.lt _ (mem_of_getElem? hget)
    refine ⟨?_, hcoherent⟩
    rw [hscanned.found hget, if_neg (Nat.not_le.mpr hlt)]
    rfl

/-- The tape was given back by a failure, and the lookahead for the present position has
found on it the character asked for, or has passed a byte. -/
def Dangling (s : Source) (wanted : ℕ) : Prop :=
  Released s ∧ ∃ c, s.look = some c ∧ c.offset = s.position.offset ∧
    (wanted < c.positions.length ∨ c.scan ≠ 0)

theorem Coherent.not_dangling {s : Source} (h : Coherent d s) (wanted : ℕ) : ¬Dangling s wanted := by
  rintro ⟨hreleased, c, hc, hoffset, hfound⟩
  have hscanned := h c hc hoffset
  rw [Source.unread, hreleased.data, drop_nil] at hscanned
  rcases hfound with hfound | hfound
  · exact absurd (hscanned.lt _ (getElem_mem hfound)) (Nat.not_lt_zero _)
  · exact hfound (Nat.le_zero.mp hscanned.le)

theorem lookLoop_nil (final : Bool) (wanted : ℕ) (c : LookCache) :
    lookLoop d [] final wanted 1 c =
      (if wanted < c.positions.length then none
        else some (if c.scan = 0 then if final then .eof else .more else .fault), c) := by
  rw [lookLoop]
  by_cases hwanted : wanted < c.positions.length
  · rw [if_pos hwanted, if_pos hwanted]
  · rw [if_neg hwanted, if_neg hwanted]
    by_cases hzero : c.scan = 0
    · simp [hzero]
    · simp [hzero, Nat.pos_of_ne_zero hzero]

/-- Without a tape a lookahead reads outside it, or finds the end. -/
theorem peek_released {m : Machine} (h : Released m.source) (wanted : ℕ) :
    (m.peek d wanted).1 = lookFrom d m.source.final m.source.unread 0 wanted ↔
      ¬Dangling m.source wanted := by
  have hunread : m.source.unread = [] := by
    rw [Source.unread, h.data, drop_nil]
  have hscan : lookFrom d m.source.final [] 0 wanted = if m.source.final then .eof else .more := by
    rw [lookFrom]
  have hpeek : (m.peek d wanted).1 =
      if wanted < m.source.lookCache.positions.length ∨ m.source.lookCache.scan ≠ 0 then .fault
      else if m.source.final then .eof else .more := by
    unfold Machine.peek
    dsimp only
    rw [hunread, length_nil, Nat.zero_add, lookLoop_nil]
    by_cases hwanted : wanted < m.source.lookCache.positions.length
    · simp [hwanted]
    · by_cases hzero : m.source.lookCache.scan = 0 <;> simp [hwanted, hzero]
  have hdangling : Dangling m.source wanted ↔
      wanted < m.source.lookCache.positions.length ∨ m.source.lookCache.scan ≠ 0 := by
    unfold Source.lookCache
    constructor
    · rintro ⟨-, c, hc, hoffset, hfound⟩
      rw [hc]
      simpa [hoffset] using hfound
    · intro hfound
      split at hfound
      · next c hc =>
        split at hfound
        · next hoffset => exact ⟨h, c, hc, hoffset, hfound⟩
        · simp at hfound
      · simp at hfound
  rw [hpeek, hunread, hscan, hdangling]
  split
  · next hfound =>
    refine iff_of_false ?_ (not_not.mpr hfound)
    split <;> exact Look.noConfusion
  · next hfound => exact iff_of_true rfl hfound

/-! ### Machines -/

variable (d) in
/-- The tape is coherent or was given back, and what the candidates saved remembers nothing. -/
structure Foresees (m : Machine) : Prop where
  source : Coherent d m.source ∨ Released m.source
  saved : ∀ s ∈ savedTapes m.chain, s.look = none

namespace Foresees

variable {m m' : Machine}

/-- The bytes, the lookahead and the offset stay, or the lookahead is dropped. -/
theorem forgotten (h : Foresees d m) (hl : m'.source.look = none)
    (hs : savedTapes m'.chain ⊆ savedTapes m.chain) : Foresees d m' :=
  ⟨.inl (coherent_none hl), fun s hmem => h.saved s (hs hmem)⟩

theorem look_leaveAliases (as : List AliasSource) (s : Source) :
    (Source.leaveAliases as s).look = s.look := by
  induction as generalizing s with
  | nil => rfl
  | cons top as ih =>
    rw [Source.leaveAliases]
    split
    · exact ih _
    · rfl

theorem failAt (h : Foresees d m) (l : Lexer) (message : Bytes) (number : ℕ) (position : Position) :
    Foresees d (m.failAt l message number position) := by
  unfold Machine.failAt
  split
  · exact h
  · generalize (⟨message, number, if number = enomem then 1 else 2,
      diagnosticPosition m.source l position⟩ : Failure) = failure
    dsimp only
    split
    · refine ⟨?_, h.saved⟩
      rcases h.source with hcoherent | hreleased
      · exact .inl (hcoherent.congr rfl rfl rfl rfl)
      · exact .inr ⟨rfl, hreleased.data, hreleased.aliases, hreleased.cursor⟩
    · refine ⟨.inr ⟨rfl, rfl, rfl, rfl⟩, ?_⟩
      rw [savedTapes_release]
      intro s hs
      cases hs

theorem consume (h : Foresees d m) (count : ℕ) : Either (Foresees d) (m.consume count) := by
  induction count generalizing m with
  | zero => exact h.forgotten rfl (List.Subset.refl _)
  | succ count ih =>
    have hforgot : Foresees d m.forgetLook := h.forgotten rfl (List.Subset.refl _)
    unfold Machine.consume
    dsimp only
    split
    · exact hforgot.failAt _ _ _ _
    · refine ih (hforgot.forgotten ?_ ?_)
      · exact look_leaveAliases _ _
      · rw [savedTapes_advance]
        exact List.Subset.refl _

/-- **All that the calls are made of keeps the caches.** -/
theorem steady : Steady d (Foresees d) where
  chain h hs hsubset := by
    refine ⟨?_, fun s hmem => h.saved s (hsubset hmem)⟩
    rw [hs]
    exact h.source
  peek := by
    intro m h wanted
    obtain ⟨c, heq⟩ := peek_eq (d := d) m wanted
    rcases h.source with hcoherent | hreleased
    · refine ⟨.inl (peek_eq_lookFrom hcoherent wanted).2, ?_⟩
      rw [heq]
      exact h.saved
    · rw [heq]
      exact ⟨.inr ⟨hreleased.failure, hreleased.data, hreleased.aliases, hreleased.cursor⟩, h.saved⟩
  startToken := by
    intro m h
    refine ⟨?_, ?_⟩
    · rcases h.source with hcoherent | hreleased
      · exact .inl (hcoherent.congr rfl rfl rfl rfl)
      · exact .inr ⟨hreleased.failure, hreleased.data, hreleased.aliases, hreleased.cursor⟩
    · have hsame : savedTapes m.startToken.chain = savedTapes m.chain := by
        show savedTapes (m.startToken.lexer :: m.parents) = savedTapes (m.lexer :: m.parents)
        rw [savedTapes_cons, savedTapes_cons, (startToken_lexer m).2.2.2.2.2.1]
      rw [hsame]
      exact h.saved
  failAt h := h.failAt
  release := by
    intro m h
    refine ⟨.inr ⟨h, rfl, rfl, rfl⟩, ?_⟩
    rw [savedTapes_release]
    intro s hs
    cases hs
  consume h count := h.consume count
  checkpoint := by
    intro m h _ commandLength quote
    refine ⟨h.source, ?_⟩
    intro s hs
    rcases mem_savedTapes_checkpoint hs with rfl | hs
    · rfl
    · exact h.saved s hs
  rewound := by
    intro m c previous h ha
    obtain ⟨hsource, hsubset⟩ := savedTapes_rewound ha
    exact h.forgotten (h.saved _ hsource) hsubset

/-- The bytes of a feed come behind what was scanned. -/
theorem feed (hd : d.Decisive) (h : Foresees d m) (hn : m.source.failure = none)
    (hf : m.source.final = false) (bytes : Bytes) (final : Bool) :
    Foresees d
      { source := m.source.compact.append bytes final, lexer := m.lexer.feed bytes final,
        parents := m.parents.map (Lexer.feed bytes final) } := by
  refine ⟨.inl ?_, ?_⟩
  · rcases h.source with hcoherent | hreleased
    · intro c hc hoffset
      have hscanned := hcoherent c hc hoffset
      rw [hf] at hscanned
      exact hscanned.append hd bytes final
    · have hsome := hreleased.failure
      rw [hn] at hsome
      cases hsome
  · intro s hs
    obtain ⟨l, hl, c, hc, rfl⟩ := mem_savedTapes.mp hs
    have hl' : l ∈ m.chain.map (Lexer.feed bytes final) := hl
    obtain ⟨l', hmem, rfl⟩ := mem_map.mp hl'
    obtain ⟨c', hc', rfl⟩ := mem_map.mp hc
    show c'.source.look = none
    exact h.saved _ (mem_savedTapes_of_mem hmem hc')

theorem aliasPush (h : Foresees d m) (depth : ℕ) (token : Token) (name value : Bytes) :
    Foresees d (m.aliasPush depth token name value).2 := by
  unfold Machine.aliasPush
  split
  · exact h
  · split
    · exact h.failAt _ _ _ _
    · exact h.forgotten rfl (List.Subset.refl _)

theorem perform (hd : d.Decisive) {root : Bool} {s : Session} (h : Foresees d s.machine)
    (hs : Survives d root s.machine) (call : Call) : Foresees d (s.perform d call).machine := by
  cases call with
  | feed bytes final =>
    rw [Session.perform]
    rcases feed_cases s.machine bytes final with ⟨m', heq, hrefuse⟩ | ⟨hnone, hfinal, heq⟩
    · rw [heq]
      exact steady.refuses h hrefuse
    · rw [heq]
      exact h.feed hd hnone hfinal bytes final
  | aliasPush depth token name value => exact h.aliasPush depth token name value
  | _ => exact steady.perform h hs (by simp) (by simp)

end Foresees

/-! ### Runs -/

variable (d) in
/-- The machines on which a run of the interface begins a round of `next_token`, or rests
between two calls. -/
inductive Occurs (name : Bytes) (origin : Position) (document : Bool) : Machine → Prop
  | run (calls : List Call) : Occurs name origin document ((Session.start name origin document).run d calls).machine
  | round {m m' : Machine} (h : Occurs name origin document m) (hn : m.source.failure = none)
      (hc : m.lexer.command = false) (hs : m.step d = .again m') : Occurs name origin document m'

theorem run_foresees (hd : d.Decisive) {root : Bool} {s : Session} (hs : Survives d root s.machine)
    (h : Foresees d s.machine) (calls : List Call) : Foresees d (s.run d calls).machine := by
  induction calls generalizing s with
  | nil => exact h
  | cons call calls ih => exact ih (Session.perform_survives hs call) (h.perform hd hs call)

theorem Occurs.survives {name : Bytes} {origin : Position} {document : Bool} {m : Machine}
    (h : Occurs d name origin document m) : Survives d document m := by
  induction h with
  | run calls => exact Session.run_survives (Session.start_survives d name origin document) calls
  | @round m m' h hn hc hs ih =>
    rcases ih with ⟨bases, hrested⟩ | hdead
    · have hdrafted := (step_drafted (hrested.2 hn) hn hc).1
      rw [hs] at hdrafted
      exact .inl ⟨bases, hdrafted.rested⟩
    · have hsome := hdead.1
      rw [hn] at hsome
      cases hsome

theorem Occurs.foresees (hd : d.Decisive) {name : Bytes} {origin : Position} {document : Bool} {m : Machine}
    (h : Occurs d name origin document m) : Foresees d m := by
  induction h with
  | run calls =>
    refine run_foresees hd (Session.start_survives d name origin document) ?_ calls
    exact ⟨.inl (coherent_none rfl), fun s hs => by cases hs⟩
  | @round m m' h hn hc hs ih =>
    rcases h.survives with ⟨bases, hrested⟩ | hdead
    · have hstep := Foresees.steady.step ih (hrested.2 hn) hn
      rw [hs] at hstep
      exact hstep
    · have hsome := hdead.1
      rw [hn] at hsome
      cases hsome

/-- **The lookahead is coherent but for one case.**  On every machine that a run reaches,
and at every lookahead of a round, `peek` answers as a scan from the cursor without a
cache if and only if it does not remember what was found on a tape that is gone. -/
theorem lookahead_coherent_iff (d : Decoder) (hd : d.Decisive) (name : Bytes) (origin : Position)
    (document : Bool) (m : Machine) (hm : Occurs d name origin document m) (m' : Machine)
    (hr : Readies d m m') (wanted : ℕ) :
    (m'.peek d wanted).1 = lookFrom d m'.source.final m'.source.unread 0 wanted ↔
      ¬Dangling m'.source wanted := by
  rcases (Foresees.steady.readies hr (hm.foresees hd)).source with hcoherent | hreleased
  · exact iff_of_true (peek_eq_lookFrom hcoherent wanted).1 (hcoherent.not_dangling wanted)
  · exact peek_released hreleased wanted

/-- A word is read with more behind it, and the lookahead finds the blank. -/
theorem lookahead_coherent_blank :
    ((((Session.start [] ⟨0, 1, 1⟩ false).run .posix
        [.feed (ascii "a <b") false, .next 0, .followsRedirection, .feed [] true]).machine.peek .posix 1).1 =
      lookFrom .posix true (ascii " <b") 0 1) := by
  have hcoherent := lookahead_coherent_iff .posix Decoder.posix_decisive [] ⟨0, 1, 1⟩ false _
    (.run [.feed (ascii "a <b") false, .next 0, .followsRedirection, .feed [] true]) _ .refl 1
  refine (hcoherent.mpr ?_).trans ?_
  · rintro ⟨hreleased, -⟩
    exact absurd hreleased.failure (by decide +kernel)
  · congr 1

/-- The backslash at the end of the input is looked at behind `<`, and the failure it
causes gives the tape back: the next lookahead reads where nothing is. -/
theorem lookahead_faults :
    let m := ((Session.start [] ⟨0, 1, 1⟩ false).run .posix
      [.feed (ascii "<\\") true, .next 0, .next 0]).machine
    (m.peek .posix 0).1 = .fault ∧ lookFrom .posix m.source.final m.source.unread 0 0 = .eof := by
  decide +kernel

end Lexical
end CShell
