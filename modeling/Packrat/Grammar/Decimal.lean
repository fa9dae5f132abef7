import Packrat.Grammar.Builder

/-!
# Decimal integers

Decimal numbers occur in most textual and length-prefixed formats. The nodes here match a run of
digits and turn it into an integer token, refusing values that do not fit a 64-bit word. Leading
zeros are allowed, so only the value decides.
-/

namespace Packrat.Decimal

def isDigit (b : UInt8) : Bool := 0x30 ≤ b && b ≤ 0x39

/-- Appends one digit to a number, unless the byte is no digit or the number leaves 64 bits. -/
def push? (n : Nat) (b : UInt8) : Option Nat :=
  if isDigit b then
    let m := n * 10 + (b.toNat - 0x30)
    if m < UInt64.size then some m else none
  else none

/-- The value of a nonempty run of ASCII digits that fits an unsigned word. -/
def value? (digits : List UInt8) : Option UInt64 :=
  if digits.isEmpty then none else (digits.foldlM push? 0).map UInt64.ofNat

/-- A magnitude with its sign, if that fits a signed word. -/
def signed? (negative : Bool) (magnitude : UInt64) : Option Int64 :=
  let n : Int := if negative then -(magnitude.toNat : Int) else magnitude.toNat
  if Int64.minValue.toInt ≤ n ∧ n ≤ Int64.maxValue.toInt then some (Int64.ofInt n) else none

/-- The unsigned integer that a sequence of digit bytes spells. -/
def uintOfDigits (t : Token) : Option Token :=
  (t.byteRun?.bind value?).map .uint

/-- The signed integer that a sign (a token other than none) and a sequence of digit bytes spell. -/
def sintOfParts : Token → Option Token
  | .seq (sign :: digits :: _) => do
    let magnitude ← value? (← digits.byteRun?)
    (signed? (!sign.isNone) magnitude).map .sint
  | _ => none

def digits : Build NodeId := do
  let digit ← Builder.range 0x30 0x39
  let run ← Builder.many1 digit
  Builder.name run "digits"

def uint : Build NodeId := do
  let run ← digits
  let number ← Builder.action run "decimal-uint" uintOfDigits
  Builder.name number "unsigned decimal"

/-- A signed decimal, with a minus in front when it is negative. -/
def sint : Build NodeId := do
  let minus ← Builder.literal 0x2d
  let sign ← Builder.optional minus
  let run ← digits
  let parts ← Builder.sequence [sign, run]
  let number ← Builder.action parts "decimal-sint" sintOfParts
  Builder.name number "signed decimal"

end Packrat.Decimal
