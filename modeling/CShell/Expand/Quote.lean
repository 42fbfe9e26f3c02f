import CShell.Character

/-!
# Dollar-single-quote decoding

`csh_quote_decode` on the contents of one `$'…'` region.  A decoded NUL ends the
region's value; unknown escapes stay as they are spelled.

## References

`src/quote.c`.
-/

namespace CShell

/-- `hexadecimal`. -/
def hexadecimal (byte : UInt8) : Option ℕ :=
  if inRange '0' '9' byte then some (byte.toNat - '0'.toNat)
  else if inRange 'a' 'f' byte then some (byte.toNat - 'a'.toNat + 10)
  else if inRange 'A' 'F' byte then some (byte.toNat - 'A'.toNat + 10)
  else none

/-- `control`. -/
def control (byte : UInt8) : Option UInt8 :=
  if inRange 'a' 'z' byte then some (byte - byteOf 'a' + 1)
  else if inRange 'A' 'Z' byte then some (byte - byteOf 'A' + 1)
  else if byte == byteOf '[' then some 27
  else if byte == byteOf '\\' then some 28
  else if byte == byteOf ']' then some 29
  else if byte == byteOf '^' then some 30
  else if byte == byteOf '_' then some 31
  else if byte == byteOf '?' then some 127
  else none

/-- The value of at most `limit` digits in base `base`, and what follows them. -/
def readDigits (base : ℕ) (digitOf : UInt8 → Option ℕ) : ℕ → ℕ → Bytes → ℕ × Bytes
  | 0, value, text => (value, text)
  | _ + 1, value, [] => (value, [])
  | limit + 1, value, byte :: rest =>
    match digitOf byte with
    | some d => readDigits base digitOf limit (value * base + d) rest
    | none => (value, byte :: rest)

theorem length_readDigits (base : ℕ) (digitOf : UInt8 → Option ℕ) (limit value : ℕ) (text : Bytes) :
    (readDigits base digitOf limit value text).2.length ≤ text.length := by
  induction limit generalizing value text with
  | zero => exact Nat.le_refl _
  | succ limit ih =>
    cases text with
    | nil => exact Nat.le_refl _
    | cons byte rest =>
      unfold readDigits
      split
      · exact (ih _ rest).trans (Nat.le_succ _)
      · exact Nat.le_refl _

/-- An octal digit. -/
def octal (byte : UInt8) : Option ℕ :=
  if inRange '0' '7' byte then some (byte.toNat - '0'.toNat) else none

/-- One decoded escape: the bytes kept from its spelling, the byte it stands for,
whether that byte must be a character of the locale, and what follows. -/
structure Escape where
  kept : Bytes := []
  byte : UInt8
  checkControl : Bool := false
  rest : Bytes
  deriving DecidableEq, Repr

/-- An escape that is not recognised keeps its backslash. -/
def Escape.literal (escaped : UInt8) (rest : Bytes) : Escape :=
  { kept := [byteOf '\\'], byte := escaped, rest }

/-- The escapes of one letter. -/
def letterEscape (escaped : UInt8) : Option UInt8 :=
  if escaped == byteOf '"' then some (byteOf '"')
  else if escaped == byteOf '\'' then some (byteOf '\'')
  else if escaped == byteOf '\\' then some (byteOf '\\')
  else if escaped == byteOf 'a' then some 7
  else if escaped == byteOf 'b' then some 8
  else if escaped == byteOf 'f' then some 12
  else if escaped == byteOf 'n' then some 10
  else if escaped == byteOf 'r' then some 13
  else if escaped == byteOf 't' then some 9
  else if escaped == byteOf 'v' then some 11
  else none

/-- The `switch` of `csh_quote_decode` on the byte behind a backslash. -/
def decodeEscape (escaped : UInt8) (rest : Bytes) : Escape :=
  match letterEscape escaped with
  | some byte => { byte, rest }
  | none =>
    if escaped == byteOf 'e' then { byte := 27, checkControl := true, rest }
    else if escaped == byteOf 'c' then
      match rest with
      | [] => .literal escaped rest
      | operand :: rest' =>
        match control operand with
        | none => .literal escaped rest
        | some byte =>
          if operand != byteOf '\\' then { byte, checkControl := true, rest := rest' }
          else if rest'.head? == some (byteOf '\\') then
            { byte, checkControl := true, rest := rest'.tail }
          else .literal escaped rest
    else if escaped == byteOf 'x' then
      let digits := readDigits 16 hexadecimal 2 0 rest
      if digits.2.length < rest.length then { byte := digits.1.toUInt8, rest := digits.2 }
      else .literal escaped rest
    else
      match octal escaped with
      | some value =>
        let digits := readDigits 8 octal 2 value rest
        { byte := (digits.1 % 256).toUInt8, rest := digits.2 }
      | none => .literal escaped rest

theorem length_decodeEscape (escaped : UInt8) (rest : Bytes) :
    (decodeEscape escaped rest).rest.length ≤ rest.length := by
  unfold decodeEscape
  split
  · exact Nat.le_refl _
  · split_ifs
    · exact Nat.le_refl _
    · cases rest with
      | nil => exact Nat.le_refl _
      | cons operand rest' =>
        dsimp only
        split
        · exact Nat.le_refl _
        · split_ifs
          · exact Nat.le_succ _
          · simp only [List.length_tail, List.length_cons]
            omega
          · exact Nat.le_refl _
    · dsimp only
      split
      · exact length_readDigits 16 hexadecimal 2 0 rest
      · exact Nat.le_refl _
    · split
      · exact length_readDigits 8 octal 2 _ rest
      · exact Nat.le_refl _

/-- The loop of `csh_quote_decode`. -/
def quoteDecodeLoop (lexical active : Decoder) (text : Bytes) : Option Bytes :=
  match text with
  | [] => some []
  | byte :: rest =>
    let width := lexical.characterLength (byte :: rest) true - 1
    if 0 < width then
      (quoteDecodeLoop lexical active (rest.drop width)).map (byte :: rest.take width ++ ·)
    else
      match rest with
      | escaped :: rest' =>
        if byte == byteOf '\\' then
          let width := lexical.characterLength (escaped :: rest') true - 1
          if 0 < width then
            (quoteDecodeLoop lexical active (rest'.drop width)).map
              (byte :: escaped :: rest'.take width ++ ·)
          else
            let escape := decodeEscape escaped rest'
            if escape.checkControl && !active.btowc escape.byte then none
            else if escape.byte == 0 then some []
            else
              (quoteDecodeLoop lexical active escape.rest).map (escape.kept ++ escape.byte :: ·)
        else (quoteDecodeLoop lexical active (escaped :: rest')).map (byte :: ·)
      | [] => some [byte]
termination_by text.length
decreasing_by
  · simp only [List.length_drop, List.length_cons]
    omega
  · simp only [List.length_drop, List.length_cons]
    omega
  · have := length_decodeEscape escaped rest'
    simp only [List.length_cons]
    omega
  · exact Nat.lt_succ_self _

/-- `csh_quote_decode`; `none` is `CSH_QUOTE_INVALID`. -/
def quoteDecode (lexical active : Decoder) (text : Bytes) : Option Bytes :=
  if text.contains 0 then none else quoteDecodeLoop lexical active text

end CShell
