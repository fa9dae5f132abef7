import Packrat.Text.Blank
import Packrat.Walk.Basic

/-!
# Nodes that look at the input

The leaves of a walk compare bytes. Each of them looks at the input from one position on, matches
without trying any other node, and takes note of a failure where it found it: a byte string where it
was left, an integer cut short at the end of the input.
-/

namespace Packrat.Walk

/-! ## Bytes -/

/-- One byte, which `check` may refuse with a reason. -/
def oneByte (input : Array UInt8) (check : UInt8 → Option Error.Kind) (pos : Nat) : Walk Step :=
  match input[pos]? with
  | none => fail .inputExhausted pos
  | some found =>
    match check found with
    | none => return .matched (.byte found) (pos + 1)
    | some kind => fail kind pos

/-- Why the input at `pos` does not continue with `expected`, of which `offset` bytes went before. -/
def mismatch? (input : Array UInt8) (pos : Nat) : Nat → List UInt8 → Option Failure
  | _, [] => none
  | offset, expected :: rest =>
    match input[pos + offset]? with
    | none => some ⟨.inputExhausted, pos + offset⟩
    | some found =>
      if found = expected then mismatch? input pos (offset + 1) rest
      else some ⟨.bytesMismatch offset, pos + offset⟩

def byteString (input : Array UInt8) (expected : List UInt8) (pos : Nat) : Walk Step :=
  match mismatch? input pos 0 expected with
  | none => return .matched (.bytes expected) (pos + expected.length)
  | some failure => fail failure.kind failure.position

/-! ## Integers -/

def slice (input : Array UInt8) (start count : Nat) : List UInt8 :=
  (input.extract start (start + count)).toList

/-- The word that bytes spell, the most significant first. -/
def bigEndian (raw : List UInt8) : UInt64 :=
  raw.foldl (fun word b => (word <<< 8) ||| b.toUInt64) 0

/-- A word whose low `8 * width` bits are a two's-complement number, as that number: the sign bit is
shifted to the top and back. -/
def signExtend (width : Nat) (word : UInt64) : Int64 :=
  let shift := 64 - 8 * width
  (word <<< UInt64.ofNat shift).toInt64 >>> Int64.ofNat shift

/-- A big-endian integer of `width` bytes. -/
def integer (input : Array UInt8) (width : Nat) (isSigned : Bool) (pos : Nat) : Walk Step :=
  if pos + width ≤ input.size then
    let word := bigEndian (slice input pos width)
    let token := if isSigned then .sint (signExtend width word) else .uint word
    return .matched token (pos + width)
  else fail .inputExhausted input.size

/-! ## Blanks -/

/-- The number of ASCII blanks at a position. -/
def blanks (input : Array UInt8) (pos : Nat) : Nat :=
  ((slice input pos (input.size - pos)).takeWhile Text.isBlankByte).length

end Packrat.Walk
