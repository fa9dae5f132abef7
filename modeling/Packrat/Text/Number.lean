/-!
# Numbers as text

Numbers on a command line and at the prompt are read as plain decimals: ASCII digits with an
optional plus in front, within the range of an unsigned 64-bit word.
-/

namespace Packrat.Text

/-- The value of ASCII digits, most significant first, or `none` when a character is no digit. -/
def digitsValue? (chars : List Char) : Option Nat :=
  chars.foldlM (fun acc c => if c.isDigit then some (acc * 10 + (c.toNat - 48)) else none) 0

/-- Reads an unsigned 64-bit decimal. The sign alone and the empty text are no numbers. -/
def readWord? (text : String) : Option UInt64 :=
  let digits := match text.toList with
    | '+' :: rest => rest
    | chars => chars
  if digits.isEmpty then none
  else match digitsValue? digits with
    | some n => if n < UInt64.size then some (UInt64.ofNat n) else none
    | none => none

end Packrat.Text
