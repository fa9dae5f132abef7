/-!
# Bytes as printable text

Every text the library prints about bytes goes through one escape. A printable ASCII byte stands for
itself, the three common controls, the two quotes and the backslash get a backslash in front, and
every other byte becomes a backslash, an `x` and two hexadecimal digits.

The escape of a byte string is the escapes of its bytes one after another. A quote never appears in
it without a backslash, so a quoted byte string ends at the first quote that stands free.
-/

namespace Packrat.Text

/-! ## Hexadecimal -/

/-- A number in lower-case hexadecimal, with no leading zeros. -/
def hex (n : Nat) : String :=
  String.ofList (Nat.toDigits 16 n)

/-- `text` with `fill` repeated in front of it until it has at least `width` characters. -/
def padLeft (width : Nat) (fill : Char) (text : String) : String :=
  String.ofList (List.replicate (width - text.length) fill) ++ text

/-- A byte as exactly two hexadecimal digits. -/
def hexByte (b : UInt8) : String :=
  String.ofList [Nat.digitChar (b.toNat / 16), Nat.digitChar (b.toNat % 16)]

/-! ## The escape -/

/-- One byte as printable ASCII. -/
def escapeByte (b : UInt8) : String :=
  if b = 0x09 then "\\t"
  else if b = 0x0a then "\\n"
  else if b = 0x0d then "\\r"
  else if b = 0x22 then "\\\""
  else if b = 0x27 then "\\'"
  else if b = 0x5c then "\\\\"
  else if 0x20 ≤ b ∧ b ≤ 0x7e then String.singleton (Char.ofUInt8 b)
  else "\\x" ++ hexByte b

/-- A byte string as printable ASCII: the escapes of its bytes, in order. -/
def escape (bytes : List UInt8) : String :=
  String.join (bytes.map escapeByte)

/-- A byte between single quotes. -/
def quoteByte (b : UInt8) : String :=
  "'" ++ escapeByte b ++ "'"

/-- A byte string between double quotes. -/
def quoteBytes (bytes : List UInt8) : String :=
  "\"" ++ escape bytes ++ "\""

/-! ## A byte as a letter

The debugging form of a token reads a byte as the Unicode character with the same number, so the
upper half shows letters with accents. Only characters that print nothing are escaped, by number. -/

/-- The character with a byte's number, between single quotes. -/
def quoteLetter (b : UInt8) : String :=
  let body :=
    if b = 0x00 then "\\0"
    else if b = 0x09 then "\\t"
    else if b = 0x0a then "\\n"
    else if b = 0x0d then "\\r"
    else if b = 0x27 then "\\'"
    else if b = 0x5c then "\\\\"
    else if b < 0x20 ∨ (0x7f ≤ b ∧ b ≤ 0xa0) ∨ b = 0xad then
      "\\u\x7b" ++ hex b.toNat ++ "\x7d"
    else String.singleton (Char.ofUInt8 b)
  "'" ++ body ++ "'"

end Packrat.Text
