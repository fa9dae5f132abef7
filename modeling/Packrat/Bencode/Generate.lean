import Packrat.Bencode.Value
import Packrat.Randomness

/-!
# Random bencode values

A random value is drawn kind by kind: integers, strings, and while the nesting limit allows it lists
and dictionaries. Strings are printable ASCII, so a generated document can be typed into a terminal.
The same seed and limits always give the same value.
-/

namespace Packrat.Bencode

open Randomness

/-- The limits of a random value. -/
structure Limits where
  /-- How deeply lists and dictionaries may be nested. -/
  maxDepth : Nat
  maxItems : Nat
  maxStringLength : Nat

def Limits.standard : Limits := ⟨4, 5, 12⟩

variable {σ : Type}

/-- An integer: one in ten is any 64-bit number, the others have at most four digits. -/
def drawInt (sampler : Sampler σ) : StateM σ Int64 := do
  if ← sampler.tenth then
    sampler.int Int64.minValue Int64.maxValue
  else
    sampler.int (-1000) 1000

/-- A string of printable ASCII, from the space to the tilde. -/
def drawString (sampler : Sampler σ) (limits : Limits) : StateM σ (List UInt8) := do
  let length ← sampler.count limits.maxStringLength
  several (sampler.byte 0x20 0x7e) length

/-- A value in which `allowance` more levels may be nested. -/
def drawValue (sampler : Sampler σ) (limits : Limits) : (allowance : Nat) → StateM σ Bencode
  | 0 => do
    match ← sampler.index 2 with
    | 0 => return .int (← drawInt sampler)
    | _ => return .bytes (← drawString sampler limits)
  | allowance + 1 => do
    match ← sampler.index 4 with
    | 0 => return .int (← drawInt sampler)
    | 1 => return .bytes (← drawString sampler limits)
    | 2 =>
      let count ← sampler.count limits.maxItems
      return .list (← several (drawValue sampler limits allowance) count)
    | _ =>
      let count ← sampler.count limits.maxItems
      let entry : StateM σ (List UInt8 × Bencode) := do
        let key ← drawString sampler limits
        let value ← drawValue sampler limits allowance
        return (key, value)
      return .dict (← several entry count)

/-- The value that a sampler draws from a state on. -/
def generateWith (sampler : Sampler σ) (start : σ) (limits : Limits) : Bencode :=
  ((drawValue sampler limits limits.maxDepth).run start).1

def generateFrom (stream : Stream) (limits : Limits) : Bencode :=
  generateWith ofWords stream limits

def generate (seed : UInt64) (limits : Limits) : Bencode :=
  generateFrom (ofSeed seed) limits

def generateDocument (seed : UInt64) (limits : Limits) : List UInt8 :=
  (generate seed limits).encode

end Packrat.Bencode
