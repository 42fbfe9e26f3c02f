import Mathlib.Data.UInt
import Mathlib.Data.List.Basic

/-!
# Bytes and names

The shell handles text as C strings: byte sequences without a NUL.  `Bytes` is
such a sequence with the terminator left implicit.  The character classes below
are the portable ones the sources spell out byte by byte; none depends on the
locale.
-/

namespace CShell

/-- A C string, its terminating NUL left implicit. -/
abbrev Bytes := List UInt8

instance : LawfulBEq Bytes := inferInstance

/-- The bytes of an ASCII literal. -/
def ascii (s : String) : Bytes := s.toList.map fun c => c.toNat.toUInt8

/-- `byte >= 'a' && byte <= 'z'` and the like: an inclusive byte range. -/
def inRange (lo hi : Char) (byte : UInt8) : Bool :=
  decide (lo.toNat ≤ byte.toNat) && decide (byte.toNat ≤ hi.toNat)

/-- The byte of an ASCII character. -/
def byteOf (c : Char) : UInt8 := c.toNat.toUInt8

/-- A fact about every byte, from the check of all of them. -/
theorem forall_byte {p : UInt8 → Prop} (h : ∀ k < 256, p (Nat.toUInt8 k)) (byte : UInt8) :
    p byte := by
  have hbyte := h byte.toNat (UInt8.toNat_lt byte)
  rwa [show Nat.toUInt8 byte.toNat = byte from UInt8.ofNat_toNat] at hbyte

/-- `name_start`: a portable letter or an underscore. -/
def nameStart (byte : UInt8) : Bool :=
  inRange 'a' 'z' byte || inRange 'A' 'Z' byte || byte == byteOf '_'

/-- `digit`: a decimal digit. -/
def digit (byte : UInt8) : Bool := inRange '0' '9' byte

/-- A byte that may continue a name. -/
def nameByte (byte : UInt8) : Bool := nameStart byte || digit byte

/-- `valid_name`: `[A-Za-z_][A-Za-z0-9_]*`. -/
def validName : Bytes → Bool
  | [] => false
  | byte :: rest => nameStart byte && rest.all nameByte

theorem nameByte_of_mem {name : Bytes} (h : validName name = true) :
    ∀ byte ∈ name, nameByte byte = true := by
  cases name with
  | nil => simp
  | cons first rest =>
    rw [validName, Bool.and_eq_true, List.all_eq_true] at h
    intro byte hmem
    rcases List.mem_cons.mp hmem with rfl | hrest
    · unfold nameByte
      rw [h.1]
      rfl
    · exact h.2 byte hrest

/-- One more byte of a name. -/
theorem validName_concat {name : Bytes} (h : name = [] ∨ validName name = true) {byte : UInt8}
    (hb : nameStart byte = true ∨ name ≠ [] ∧ digit byte = true) :
    validName (name ++ [byte]) = true := by
  cases name with
  | nil =>
    have hstart := hb.resolve_right fun hb => hb.1 rfl
    rw [List.nil_append, validName, hstart]
    rfl
  | cons first rest =>
    have hvalid := h.resolve_left (List.cons_ne_nil _ _)
    rw [validName, Bool.and_eq_true, List.all_eq_true] at hvalid
    rw [List.cons_append, validName, Bool.and_eq_true, List.all_append, Bool.and_eq_true,
      List.all_eq_true]
    refine ⟨hvalid.1, hvalid.2, ?_⟩
    have hbyte : nameByte byte = true := by
      unfold nameByte
      rcases hb with hb | hb
      · rw [hb, Bool.true_or]
      · rw [hb.2, Bool.or_true]
    rw [List.all_cons, hbyte]
    rfl

/-- A text without its continuations. -/
def spliced : Bytes → Bytes
  | [] => []
  | [byte] => [byte]
  | first :: second :: rest =>
    if first = byteOf '\\' ∧ second = byteOf '\n' then spliced rest
    else first :: spliced (second :: rest)

theorem spliced_continuation (rest : Bytes) :
    spliced (byteOf '\\' :: byteOf '\n' :: rest) = spliced rest := by
  rw [spliced, if_pos ⟨rfl, rfl⟩]

/-- A byte that does not begin a continuation stays. -/
theorem spliced_cons {byte : UInt8} {rest : Bytes}
    (h : ¬(byte = byteOf '\\' ∧ rest.head? = some (byteOf '\n'))) :
    spliced (byte :: rest) = byte :: spliced rest := by
  cases rest with
  | nil => rfl
  | cons second rest =>
    rw [spliced, if_neg]
    rintro ⟨hslash, hnewline⟩
    exact h ⟨hslash, congrArg some hnewline⟩

/-- A text that can be a C string: it holds no NUL. -/
def NulFree (text : Bytes) : Prop := (0 : UInt8) ∉ text

instance (text : Bytes) : Decidable (NulFree text) := inferInstanceAs (Decidable (_ ∉ _))

end CShell
