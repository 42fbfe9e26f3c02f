import CShell.Text

/-!
# Characters of the active encoding

How many bytes the next character takes is asked of the C library, in one of two
locales: the one captured at startup decides how source text is read, the
current one how values are.  A `Decoder` is `mbrlen` in one locale, restarted
from the initial shift state on every call.

## Main definitions

* `Decoder` — `mbrlen` and `MB_CUR_MAX` of a locale.
* `Decoder.characterLength` — `csh_character_length`, with its ASCII short cut.
* `Decoder.characterBytes` — the bare one-byte fallback around `mbrlen`.
* `Decoder.AsciiSafe` — no byte below 0x80 is part of a longer character.
* `Decoder.Prompt` — a complete character is recognised without more bytes.

## References

`src/character.c`, `src/expand.c` (`character_bytes`), `src/pathname.c`
(`pattern_width`).
-/

namespace CShell

/-- What `mbrlen` answers: `(size_t)-1`, `(size_t)-2`, or a byte count, which is
0 for the NUL character. -/
inductive Mbrlen
  | invalid
  | incomplete
  | bytes (n : ℕ)
  deriving DecidableEq, Repr, Inhabited

/-- The multibyte decoding of one locale. -/
structure Decoder where
  /-- `mbrlen(text, length, &state)` from the initial state, on a nonempty text. -/
  mbrlen : Bytes → Mbrlen
  /-- `MB_CUR_MAX`. -/
  mbCurMax : ℕ
  /-- `btowc(byte) != WEOF`: the byte alone is a character. -/
  btowc : UInt8 → Bool
  /-- A character lies within the bytes that were offered. -/
  mbrlen_le : ∀ {text : Bytes} {n : ℕ}, mbrlen text = .bytes n → n ≤ text.length
  mbCurMax_pos : 0 < mbCurMax

namespace Decoder

variable (d : Decoder)

/-- The one-byte fallback for invalid, incomplete and NUL sequences. -/
def characterBytes (text : Bytes) : ℕ :=
  match d.mbrlen text with
  | .bytes n => if n = 0 then 1 else n
  | _ => 1

/-- `csh_character_length`. -/
def characterLength (text : Bytes) (final : Bool) : ℕ :=
  match text with
  | [] => 0
  | byte :: _ =>
    if byte < 0x80 then 1
    else if d.mbrlen text = .incomplete && !final then 0
    else d.characterBytes text

/-- `pattern_width`: the lookahead is bounded by `MB_CUR_MAX`. -/
def patternWidth (text : Bytes) : ℕ := d.characterLength (text.take d.mbCurMax) true

/-- In the C locale and in UTF-8 every byte of a multibyte character has its high
bit set. -/
def AsciiSafe : Prop :=
  ∀ text : Bytes, ∀ n, d.mbrlen text = .bytes n → 1 < n → ∀ byte ∈ text.take n, ¬byte < 0x80

/-- `mbrlen` does not look beyond the bytes that complete a character. -/
def Prompt : Prop :=
  ∀ text : Bytes, ∀ n, d.mbrlen text = .bytes n → 0 < n → d.mbrlen (text.take n) = .bytes n

/-- The C locale: every byte is a character. -/
def posix : Decoder where
  mbrlen
    | [] => .incomplete
    | byte :: _ => .bytes (if byte = 0 then 0 else 1)
  mbCurMax := 1
  btowc _ := true
  mbrlen_le := by
    intro text n h
    cases text with
    | nil => cases h
    | cons byte rest =>
      simp only [Mbrlen.bytes.injEq] at h
      subst h
      simp only [List.length_cons]
      split <;> omega
  mbCurMax_pos := Nat.one_pos

variable {d}

theorem characterBytes_pos (text : Bytes) : 0 < d.characterBytes text := by
  unfold characterBytes
  split
  · split <;> omega
  · exact Nat.one_pos

theorem characterBytes_le {text : Bytes} (h : text ≠ []) :
    d.characterBytes text ≤ text.length := by
  have hpos : 1 ≤ text.length := List.length_pos_iff.mpr h
  unfold characterBytes
  split
  · rename_i n hn
    split
    · exact hpos
    · exact d.mbrlen_le hn
  · exact hpos

theorem characterLength_cons_final (byte : UInt8) (rest : Bytes) :
    d.characterLength (byte :: rest) true =
      if byte < 0x80 then 1 else d.characterBytes (byte :: rest) := by
  simp [characterLength]

theorem characterLength_final_pos {text : Bytes} (h : text ≠ []) :
    0 < d.characterLength text true := by
  obtain ⟨byte, rest, rfl⟩ := List.exists_cons_of_ne_nil h
  rw [characterLength_cons_final]
  split
  · exact Nat.one_pos
  · exact characterBytes_pos _

theorem characterLength_final_le {text : Bytes} (h : text ≠ []) :
    d.characterLength text true ≤ text.length := by
  obtain ⟨byte, rest, rfl⟩ := List.exists_cons_of_ne_nil h
  rw [characterLength_cons_final]
  split
  · exact Nat.succ_pos _
  · exact characterBytes_le h

theorem posix_asciiSafe : posix.AsciiSafe := by
  intro text n h hn
  cases text with
  | nil => cases h
  | cons byte rest =>
    simp only [posix, Mbrlen.bytes.injEq] at h
    split at h <;> omega

theorem posix_prompt : posix.Prompt := by
  intro text n h hn
  cases text with
  | nil => cases h
  | cons byte rest =>
    obtain ⟨k, rfl⟩ := Nat.exists_eq_succ_of_ne_zero (Nat.ne_of_gt hn)
    exact h

theorem characterBytes_singleton (byte : UInt8) : d.characterBytes [byte] = 1 :=
  Nat.le_antisymm (characterBytes_le (List.cons_ne_nil _ _)) (characterBytes_pos _)

theorem Prompt.characterBytes_take (hd : d.Prompt) (byte : UInt8) (rest : Bytes) :
    d.characterBytes ((byte :: rest).take (d.characterBytes (byte :: rest))) =
      d.characterBytes (byte :: rest) := by
  by_cases h : ∃ n, d.mbrlen (byte :: rest) = .bytes n ∧ 0 < n
  · obtain ⟨n, hn, hpos⟩ := h
    have hbytes : d.characterBytes (byte :: rest) = n := by
      unfold characterBytes
      rw [hn]
      exact if_neg (Nat.ne_of_gt hpos)
    rw [hbytes]
    unfold characterBytes
    rw [hd _ n hn hpos]
    exact if_neg (Nat.ne_of_gt hpos)
  · -- Everything else counts as one byte, with and without what follows.
    have hone : d.characterBytes (byte :: rest) = 1 := by
      unfold characterBytes
      split
      · rename_i n hn
        rw [if_pos (by by_contra hne; exact h ⟨n, hn, Nat.pos_of_ne_zero hne⟩)]
      · rfl
    rw [hone]
    exact characterBytes_singleton byte

/-- A character is as long without the bytes behind it. -/
theorem Prompt.characterLength_take (hd : d.Prompt) {text : Bytes} {final : Bool}
    (h : 0 < d.characterLength text final) :
    d.characterLength (text.take (d.characterLength text final)) true =
      d.characterLength text final := by
  cases text with
  | nil => exact absurd h (Nat.lt_irrefl _)
  | cons byte rest =>
    by_cases hlt : byte < 0x80
    · have hone : d.characterLength (byte :: rest) final = 1 := if_pos hlt
      rw [hone]
      exact if_pos hlt
    · have heq : d.characterLength (byte :: rest) final = d.characterBytes (byte :: rest) := by
        unfold characterLength at h ⊢
        dsimp only at h ⊢
        rw [if_neg hlt] at h ⊢
        split at h
        · exact absurd h (Nat.lt_irrefl _)
        · rename_i hcomplete
          rw [if_neg hcomplete]
      have htake := hd.characterBytes_take byte rest
      rw [heq]
      obtain ⟨k, hk⟩ := Nat.exists_eq_succ_of_ne_zero (Nat.ne_of_gt (d.characterBytes_pos (byte :: rest)))
      rw [hk] at htake ⊢
      rw [List.take_succ_cons] at htake ⊢
      rw [characterLength_cons_final, if_neg hlt, htake]

end Decoder

end CShell
