import CShell.Lexer.Rounds
import Mathlib.Tactic.Common

/-!
# What the lookahead sees

`peek` remembers where the logical characters ahead begin, and the bytes of a feed
may arrive between two calls.  What it remembers stays true, since a character
below 0x80 is one byte whatever follows it.  So the span of bytes up to a delimiter
that was peeked is spelled with its characters and continuations only.

## Main definitions

* `Spells chars w` — `w` is `chars` with continuations between them; `Spans chars w`
  — and ends with the last of them.
* `LookOk s` — the lookahead cache of `s` is right.

## Main results

* `peek_spells` — the bytes up to a peeked character.

## References

`src/lexer.c` (`peek`).
-/

namespace CShell
namespace Lexical

open Machine List

/-- The characters of a span, with continuations between them. -/
inductive Spells : Bytes → Bytes → Prop
  | nil : Spells [] []
  | continuation {chars w : Bytes} (h : Spells chars w) :
      Spells chars (w ++ [byteOf '\\', byteOf '\n'])
  | char {chars w : Bytes} (h : Spells chars w) (byte : UInt8) :
      Spells (chars ++ [byte]) (w ++ [byte])

theorem Spells.mem {chars w : Bytes} (h : Spells chars w) {byte : UInt8} (hb : byte ∈ w) :
    byte ∈ chars ∨ byte = byteOf '\\' ∨ byte = byteOf '\n' := by
  induction h with
  | nil => cases hb
  | continuation _ ih =>
    rcases mem_append.mp hb with hb | hb
    · exact ih hb
    · simpa using Or.inr hb
  | char _ b ih =>
    rcases mem_append.mp hb with hb | hb
    · exact (ih hb).imp (mem_append_left _) id
    · exact .inl (mem_append_right _ hb)

/-- The characters of a span come before those of what follows it. -/
theorem Spells.spliced_append {chars w : Bytes} (h : Spells chars w) (hc : byteOf '\\' ∉ chars)
    (rest : Bytes) : spliced (w ++ rest) = chars ++ spliced rest := by
  induction h generalizing rest with
  | nil => rfl
  | @continuation chars w h ih =>
    rw [append_assoc, ih hc]
    exact congrArg (chars ++ ·) (spliced_continuation rest)
  | @char chars w h byte ih =>
    rw [append_assoc, ih fun hmem => hc (mem_append_left _ hmem), append_assoc]
    refine congrArg (chars ++ ·) (spliced_cons ?_)
    rintro ⟨rfl, -⟩
    exact hc (mem_append_right _ mem_cons_self)

theorem Spells.append {chars chars' w w' : Bytes} (h : Spells chars w) (h' : Spells chars' w') :
    Spells (chars ++ chars') (w ++ w') := by
  induction h' with
  | nil =>
    rw [append_nil, append_nil]
    exact h
  | continuation _ ih =>
    rw [← append_assoc]
    exact ih.continuation
  | char _ byte ih =>
    rw [← append_assoc, ← append_assoc]
    exact ih.char byte

theorem Spells.length_le {chars w : Bytes} (h : Spells chars w) : chars.length ≤ w.length := by
  induction h with
  | nil => exact Nat.le_refl _
  | continuation _ ih =>
    rw [length_append]
    omega
  | char _ b ih =>
    rw [length_append, length_append, length_singleton]
    omega

/-- A span that does not begin with a backslash begins with its first character. -/
theorem Spells.head {chars w : Bytes} (h : Spells chars w) {byte : UInt8}
    (hb : w.head? = some byte) (hne : byte ≠ byteOf '\\') : chars.head? = some byte := by
  induction h with
  | nil => cases hb
  | @continuation chars w h ih =>
    cases w with
    | nil => exact absurd (Option.some.inj hb).symm hne
    | cons first rest => exact ih hb
  | @char chars w h b ih =>
    cases w with
    | nil =>
      rw [length_eq_zero_iff.mp (Nat.le_zero.mp h.length_le)]
      exact hb
    | cons first rest =>
      rw [head?_append, ih hb]
      rfl

/-- A span that ends with its last character. -/
def Spans (chars w : Bytes) : Prop :=
  ∃ init text byte, chars = init ++ [byte] ∧ w = text ++ [byte] ∧ Spells init text

theorem Spans.spells {chars w : Bytes} (h : Spans chars w) : Spells chars w := by
  obtain ⟨init, text, byte, rfl, rfl, hspells⟩ := h
  exact hspells.char byte

/-- The logical characters found from the beginning of `text`, and where the scan
stopped. -/
inductive Looked (text : Bytes) : List ℕ → ℕ → Prop
  | nil : Looked text [] 0
  | continuation {positions : List ℕ} {scan : ℕ} (h : Looked text positions scan)
      (h₁ : text[scan]? = some (byteOf '\\')) (h₂ : text[scan + 1]? = some (byteOf '\n')) :
      Looked text positions (scan + 2)
  | char {positions : List ℕ} {scan width : ℕ} (h : Looked text positions scan) {byte : UInt8}
      (hb : text[scan]? = some byte) (ha : byte.toNat < 128 → width = 1)
      (hle : scan + width ≤ text.length) : Looked text (positions ++ [scan]) (scan + width)

theorem concat_cases {α : Type*} {xs : List α} {x y : α} {i : ℕ} (h : (xs ++ [x])[i]? = some y) :
    i < xs.length ∧ xs[i]? = some y ∨ i = xs.length ∧ x = y := by
  rcases Nat.lt_or_ge i xs.length with hlt | hle
  · rw [getElem?_append_left hlt] at h
    exact .inl ⟨hlt, h⟩
  · obtain ⟨hi, hy⟩ := List.getElem?_eq_some_iff.mp h
    rw [length_append, length_singleton] at hi
    obtain rfl : i = xs.length := by omega
    exact .inr ⟨rfl, by simpa using hy⟩

namespace Looked

variable {text : Bytes} {positions : List ℕ} {scan : ℕ}

section

variable (h : Looked text positions scan)
include h

theorem le : scan ≤ text.length := by
  cases h with
  | nil => exact Nat.zero_le _
  | continuation _ _ h₂ => exact (List.getElem?_eq_some_iff.mp h₂).1
  | char _ _ _ hle => exact hle

/-- More input leaves what was found. -/
theorem append (more : Bytes) : Looked (text ++ more) positions scan := by
  have hkeep : ∀ {i : ℕ} {byte : UInt8}, text[i]? = some byte → (text ++ more)[i]? = some byte := by
    intro i byte hi
    rw [List.getElem?_append_left (List.getElem?_eq_some_iff.mp hi).1, hi]
  induction h with
  | nil => exact .nil
  | continuation _ h₁ h₂ ih => exact .continuation ih (hkeep h₁) (hkeep h₂)
  | char _ hb ha hle ih =>
    refine .char ih (hkeep hb) ha ?_
    rw [length_append]
    omega

/-- The scan up to one of the characters found. -/
theorem cut {i p : ℕ} (hp : positions[i]? = some p) :
    Looked text (positions.take i) p ∧ p < text.length := by
  induction h with
  | nil => cases hp
  | continuation _ _ _ ih => exact ih hp
  | @char positions scan width h byte hb ha hle ih =>
    rcases concat_cases hp with ⟨hi, hp⟩ | ⟨rfl, rfl⟩
    · rw [take_append_of_le_length hi.le]
      exact ih hp
    · rw [take_left]
      exact ⟨h, (List.getElem?_eq_some_iff.mp hb).1⟩

/-- Characters below 0x80 spell the bytes scanned. -/
theorem spells (ha : ∀ p ∈ positions, ∀ byte, text[p]? = some byte → byte.toNat < 128) :
    Spells (positions.map fun p => text.getD p 0) (text.take scan) := by
  induction h with
  | nil => exact .nil
  | @continuation positions scan h h₁ h₂ ih =>
    rw [take_add_one, take_add_one, h₁, h₂, append_assoc]
    exact .continuation (ih ha)
  | @char positions scan width h byte hb hw hle ih =>
    have hwidth := hw (ha scan (mem_append_right _ mem_cons_self) byte hb)
    subst hwidth
    rw [take_add_one, hb, map_append, map_singleton, getD_eq_getElem?_getD, hb]
    exact .char (ih fun p hp => ha p (mem_append_left _ hp)) byte

end

end Looked

/-! ### The cache -/

/-- The lookahead cache of a source is right. -/
def LookOk (s : Source) : Prop :=
  ∀ c, s.look = some c → c.offset = s.position.offset → Looked s.unread c.positions c.scan

variable {d : Decoder}

theorem characterLength_ascii {text : Bytes} {final : Bool} {byte : UInt8}
    (hb : text.head? = some byte) (ha : byte.toNat < 128) : d.characterLength text final = 1 := by
  obtain ⟨rest, rfl⟩ := head?_eq_some_iff.mp hb
  have hlt : byte < 0x80 := UInt8.lt_iff_toNat_lt.mpr ha
  simp [Decoder.characterLength, hlt]

theorem characterLength_le (text : Bytes) (final : Bool) :
    d.characterLength text final ≤ text.length := by
  unfold Decoder.characterLength
  split
  · exact Nat.le_refl _
  · split
    · exact Nat.succ_pos _
    · split
      · exact Nat.zero_le _
      · exact Decoder.characterBytes_le (cons_ne_nil _ _)

theorem lookLoop_looked {text : Bytes} {final : Bool} {wanted fuel : ℕ} {c c' : LookCache}
    {answer : Option Look} (h : Looked text c.positions c.scan)
    (hl : lookLoop d text final wanted fuel c = (answer, c')) :
    Looked text c'.positions c'.scan ∧ c.positions <+: c'.positions ∧ c'.offset = c.offset ∧
      (answer = none → wanted < c'.positions.length) := by
  have hget : ∀ {i : ℕ} {byte : UInt8}, i < text.length → text.getD i 0 = byte →
      text[i]? = some byte := by
    intro i byte hi hbyte
    rw [getD_eq_getElem?_getD, getElem?_eq_getElem hi] at hbyte
    rw [getElem?_eq_getElem hi, ← hbyte]
    rfl
  induction fuel generalizing c with
  | zero =>
    cases hl
    exact ⟨h, prefix_refl _, rfl, fun hn => by cases hn⟩
  | succ fuel ih =>
    unfold lookLoop at hl
    split at hl
    · rename_i hwanted
      cases hl
      exact ⟨h, prefix_refl _, rfl, fun _ => hwanted⟩
    · split at hl
      · cases hl
        exact ⟨h, prefix_refl _, rfl, fun hn => by cases hn⟩
      · rename_i hend
        rw [if_neg (Nat.not_lt.mpr h.le)] at hl
        split at hl
        · cases hl
          exact ⟨h, prefix_refl _, rfl, fun hn => by cases hn⟩
        · split at hl
          · rename_i hcont
            obtain ⟨h₁, hlt, h₂⟩ := hcont
            exact ih (c := { c with scan := c.scan + 2 })
              (.continuation h (hget (Nat.lt_of_succ_lt hlt) h₁) (hget hlt h₂)) hl
          · dsimp only at hl
            split at hl
            · cases hl
              exact ⟨h, prefix_refl _, rfl, fun hn => by cases hn⟩
            · have hlt : c.scan < text.length := Nat.lt_of_le_of_ne h.le hend
              have hbyte : text[c.scan]? = some text[c.scan] := getElem?_eq_getElem hlt
              have hnext : Looked text (c.positions ++ [c.scan])
                  (c.scan + d.characterLength (text.drop c.scan) final) := by
                refine .char h hbyte ?_ ?_
                · intro ha
                  exact characterLength_ascii (by rw [head?_drop, hbyte]) ha
                · have := characterLength_le (d := d) (text.drop c.scan) final
                  rw [length_drop] at this
                  omega
              obtain ⟨hlooked, hpositions, hoffset, hanswer⟩ := ih hnext hl
              exact ⟨hlooked, (prefix_append _ _).trans hpositions, hoffset, hanswer⟩

/-- The loop itself never answers with a character. -/
theorem lookLoop_byte {text : Bytes} {final : Bool} {wanted fuel : ℕ} {c c' : LookCache}
    {look : Look} (hl : lookLoop d text final wanted fuel c = (some look, c')) {value : UInt8}
    {physical : ℕ} : look ≠ .byte value physical := by
  induction fuel generalizing c with
  | zero =>
    cases hl
    exact Look.noConfusion
  | succ fuel ih =>
    unfold lookLoop at hl
    split at hl
    · cases hl
    · split at hl
      · cases hl
        split <;> exact Look.noConfusion
      · split at hl
        · cases hl
          exact Look.noConfusion
        · split at hl
          · cases hl
            exact Look.noConfusion
          · split at hl
            · exact ih hl
            · dsimp only at hl
              split at hl
              · cases hl
                exact Look.noConfusion
              · exact ih hl

theorem lookCache_looked {s : Source} (h : LookOk s) :
    Looked s.unread s.lookCache.positions s.lookCache.scan ∧
      s.lookCache.offset = s.position.offset := by
  unfold Source.lookCache
  split
  · rename_i c hc
    split
    · rename_i hoffset
      exact ⟨h c hc hoffset, hoffset⟩
    · exact ⟨.nil, rfl⟩
  · exact ⟨.nil, rfl⟩

variable {m : Machine}

/-- What a lookahead remembers, and what it answers. -/
theorem peek_looked (h : LookOk m.source) (wanted : ℕ) :
    ∃ c, (m.peek d wanted).2 = { m with source := { m.source with look := some c } } ∧
      c.offset = m.source.position.offset ∧ Looked m.source.unread c.positions c.scan ∧
      m.source.lookCache.positions <+: c.positions ∧
      ∀ value physical, (m.peek d wanted).1 = .byte value physical →
        ∃ p, c.positions[wanted]? = some p ∧ m.source.unread[p]? = some value ∧
          (value.toNat < 128 → physical = p + 1) := by
  obtain ⟨hlooked, hoffset⟩ := lookCache_looked h
  generalize hl : lookLoop d m.source.unread m.source.final wanted (m.source.unread.length + 1)
    m.source.lookCache = result
  obtain ⟨answer, c⟩ := result
  obtain ⟨hlooked', hpositions, hoffset', hanswer⟩ := lookLoop_looked hlooked hl
  refine ⟨c, ?_, hoffset'.trans hoffset, hlooked', hpositions, ?_⟩
  · unfold peek
    dsimp only
    rw [hl]
    cases answer <;> rfl
  · intro value physical hpeek
    unfold peek at hpeek
    dsimp only at hpeek
    rw [hl] at hpeek
    cases answer with
    | some look =>
      have hlook : look = .byte value physical := hpeek
      exact absurd hlook (lookLoop_byte hl)
    | none =>
      have hlt := hanswer rfl
      have hp : c.positions[wanted]? = some c.positions[wanted] := getElem?_eq_getElem hlt
      obtain ⟨-, hbound⟩ := hlooked'.cut hp
      dsimp only at hpeek
      rw [getD_eq_getElem?_getD, hp, Option.getD_some] at hpeek
      generalize c.positions[wanted] = p at *
      have hbyte : m.source.unread[p]? = some m.source.unread[p] := getElem?_eq_getElem hbound
      rw [if_neg (Nat.not_le.mpr hbound)] at hpeek
      split at hpeek
      · cases hpeek
      · rw [getD_eq_getElem?_getD, hbyte, Option.getD_some] at hpeek
        cases hpeek
        refine ⟨p, hp, hbyte, ?_⟩
        intro ha
        rw [characterLength_ascii (by rw [head?_drop, hbyte]) ha]

theorem LookOk.peek (h : LookOk m.source) (wanted : ℕ) : LookOk (m.peek d wanted).2.source := by
  obtain ⟨c, heq, hoffset, hlooked, -, -⟩ := peek_looked (d := d) h wanted
  rw [heq]
  intro c' hc' _
  cases hc'
  exact hlooked

/-- A source without a lookahead. -/
theorem lookOk_none {s : Source} (h : s.look = none) : LookOk s := by
  intro c hc
  rw [h] at hc
  cases hc

theorem Readies.lookOk {m₁ : Machine} (hr : Readies d m m₁) (h : LookOk m.source) :
    LookOk m₁.source := by
  induction hr with
  | refl => exact h
  | look wanted _ ih => exact ih.peek wanted
  | clear _ _ ih => exact ih
  | frame f _ _ ih => exact ih
  | start _ _ _ ih => exact ih

theorem Readies.unread {m₁ : Machine} (hr : Readies d m m₁) :
    m₁.source.unread = m.source.unread := by
  induction hr with
  | refl => rfl
  | look wanted _ ih => rw [peek_unread, ih]
  | clear _ _ ih => exact ih
  | frame f _ _ ih => exact ih
  | start _ _ _ ih => exact ih

/-! ### The bytes up to a character -/

/-- The bytes at the cursor begin with a span of `n` bytes that spells `chars`. -/
def Ahead (text chars : Bytes) (n : ℕ) : Prop :=
  ∃ w rest, text = w ++ rest ∧ w.length = n ∧ Spans chars w

theorem Ahead.append {text chars : Bytes} {n : ℕ} (h : Ahead text chars n) (more : Bytes) :
    Ahead (text ++ more) chars n := by
  obtain ⟨w, rest, rfl, hlen, hspells⟩ := h
  exact ⟨w, rest ++ more, append_assoc _ _ _, hlen, hspells⟩

namespace Looked

variable {text : Bytes} {positions : List ℕ} {scan p : ℕ} {byte value : UInt8}

/-- The first character is at the cursor, unless a continuation is. -/
theorem first (h : Looked text positions scan) (hp : positions[0]? = some p)
    (hb : text.head? = some byte) (hne : byte ≠ byteOf '\\') : p = 0 := by
  obtain ⟨hcut, -⟩ := h.cut hp
  have hspells := hcut.spells fun q hq => by cases hq
  by_contra hpos
  have hhead : (text.take p).head? = some byte := by
    rw [head?_take, if_neg hpos, hb]
  have := hspells.head hhead hne
  cases this

/-- A character found behind others that are below 0x80. -/
theorem ahead (h : Looked text positions scan) {i : ℕ} (hp : positions[i]? = some p)
    (hv : text[p]? = some value)
    (ha : ∀ q ∈ positions.take i, ∀ byte, text[q]? = some byte → byte.toNat < 128) :
    Ahead text ((positions.take i).map (fun q => text.getD q 0) ++ [value]) (p + 1) := by
  obtain ⟨hcut, hlt⟩ := h.cut hp
  refine ⟨text.take (p + 1), text.drop (p + 1), (take_append_drop _ _).symm, ?_, ?_⟩
  · rw [length_take, Nat.min_eq_left hlt]
  · rw [take_add_one, hv]
    exact ⟨_, _, value, rfl, rfl, hcut.spells ha⟩

end Looked

/-- A character behind a delimiter at the cursor. -/
theorem Peeked.ahead₁ {first value : UInt8} {rest : Bytes} {n : ℕ} (hp : Peeked d m 1 value n)
    (h : LookOk m.source) (hb : m.source.unread = first :: rest) (hne : first ≠ byteOf '\\')
    (hf : first.toNat < 128) (ha : value.toNat < 128) :
    Ahead m.source.unread [first, value] n := by
  obtain ⟨m₀, hr, hpeek⟩ := hp
  obtain ⟨c, -, -, hlooked, -, hanswer⟩ := peek_looked (d := d) (hr.lookOk h) 1
  obtain ⟨p, hpos, hvalue, hn⟩ := hanswer value n hpeek
  rw [hr.unread] at hlooked hvalue
  rw [hn ha]
  obtain ⟨p₀, positions, hcs⟩ : ∃ p₀ positions, c.positions = p₀ :: positions := by
    cases hcs : c.positions with
    | nil =>
      rw [hcs] at hpos
      cases hpos
    | cons p₀ positions => exact ⟨_, _, rfl⟩
  have hzero : p₀ = 0 := hlooked.first (by rw [hcs]; rfl) (by rw [hb]; rfl) hne
  subst hzero
  have hahead := hlooked.ahead hpos hvalue fun q hq byte hbyte => by
    rw [hcs] at hq
    cases mem_singleton.mp hq
    rw [hb] at hbyte
    cases hbyte
    exact hf
  rw [hcs, hb] at hahead
  rw [hb]
  exact hahead

/-- The two parentheses behind the dollar of a candidate. -/
theorem ahead_candidate {m₀ : Machine} {rest : Bytes} {second third : ℕ} (h : LookOk m₀.source)
    (hb : m₀.source.unread = byteOf '$' :: rest)
    (h₂ : (m₀.peek d 1).1 = .byte (byteOf '(') second)
    (h₃ : ((m₀.peek d 1).2.peek d 2).1 = .byte (byteOf '(') third) :
    Ahead m₀.source.unread [byteOf '$', byteOf '(', byteOf '('] third := by
  obtain ⟨c, heq, hoffset, hlooked, -, hanswer⟩ := peek_looked (d := d) h 1
  obtain ⟨p₁, hp₁, hv₁, -⟩ := hanswer _ _ h₂
  have hlook := h.peek (d := d) 1
  rw [heq] at hlook h₃
  obtain ⟨c', -, -, hlooked', hpositions, hanswer'⟩ := peek_looked (d := d) hlook 2
  obtain ⟨p₂, hp₂, hv₂, hn⟩ := hanswer' _ _ h₃
  have hcache : ({ m₀.source with look := some c } : Source).lookCache = c := by
    show (if c.offset = m₀.source.position.offset then c else _) = c
    rw [if_pos hoffset]
  rw [hcache] at hpositions
  -- Both lookaheads agree on the first two characters.
  obtain ⟨more, hmore⟩ := hpositions
  have hp₁' : c'.positions[1]? = some p₁ := by
    rw [← hmore, List.getElem?_append_left (List.getElem?_eq_some_iff.mp hp₁).1, hp₁]
  have htake : c'.positions.take 2 = [0, p₁] := by
    cases hcs : c'.positions with
    | nil =>
      rw [hcs] at hp₁'
      cases hp₁'
    | cons p₀ positions =>
      have hzero : p₀ = 0 := hlooked'.first (by rw [hcs]; rfl)
        (by rw [show ({ m₀ with source := { m₀.source with look := some c } } : Machine).source.unread
              = m₀.source.unread from rfl, hb]; rfl) (by decide)
      subst hzero
      rw [hcs] at hp₁'
      have hhead : positions.head? = some p₁ := by
        rw [head?_eq_getElem?]
        exact hp₁'
      rw [take_succ_cons, take_one, hhead]
      rfl
  have hdollar : (byteOf '$').toNat < 128 := by decide
  have hopen : (byteOf '(').toNat < 128 := by decide
  have hahead := hlooked'.ahead hp₂ hv₂ fun q hq byte hbyte => by
    rw [htake] at hq
    rcases mem_cons.mp hq with rfl | hq
    · have hbyte' : m₀.source.unread[0]? = some byte := hbyte
      rw [hb] at hbyte'
      cases hbyte'
      exact hdollar
    · cases mem_singleton.mp hq
      have hbyte' : m₀.source.unread[p₁]? = some byte := hbyte
      rw [hv₁] at hbyte'
      cases hbyte'
      exact hopen
  rw [htake] at hahead
  rw [hn hopen]
  have hchars : [0, p₁].map (fun q => m₀.source.unread.getD q 0) = [byteOf '$', byteOf '('] := by
    rw [map_cons, map_cons, map_nil, getD_eq_getElem?_getD,
      getD_eq_getElem?_getD, hv₁, hb]
    rfl
  have hahead' : Ahead m₀.source.unread
      ([0, p₁].map (fun q => m₀.source.unread.getD q 0) ++ [byteOf '(']) (p₂ + 1) := hahead
  rw [hchars] at hahead'
  exact hahead'

end Lexical
end CShell
