import Packrat.Error
import Packrat.Token.Basic

/-!
# Writing tokens in MessagePack

A token without a value is written as the string `None`. Every other one is a map with one entry,
from the tag of its shape to its payload: an integer in the shortest form that holds it, an array of
integers for a byte string, an array of tokens for a sequence.

The format is not the parser's own. Whoever packs tokens is given a function for it, and this is the
one that the program runs with.
-/

namespace Packrat.MessagePack

/-! ## Numbers and headers -/

/-- The low bytes of a number, the most significant of them first. -/
def bigEndian (count n : Nat) : List UInt8 :=
  (List.range count).reverse.map (fun i => UInt8.ofNat (n >>> (8 * i)))

/-- A number that is not negative, in its shortest form. -/
def writeNat (n : Nat) : List UInt8 :=
  if n < 0x80 then [UInt8.ofNat n]
  else if n < 0x100 then 0xcc :: bigEndian 1 n
  else if n < 0x10000 then 0xcd :: bigEndian 2 n
  else if n < 0x100000000 then 0xce :: bigEndian 4 n
  else 0xcf :: bigEndian 8 n

/-- An integer in its shortest form; one that is not negative is written without a sign. -/
def writeInt (n : Int) : List UInt8 :=
  if 0 ≤ n then writeNat n.toNat
  else if -32 ≤ n then [UInt8.ofNat (256 + n).toNat]
  else if -0x80 ≤ n then 0xd0 :: bigEndian 1 (0x100 + n).toNat
  else if -0x8000 ≤ n then 0xd1 :: bigEndian 2 (0x10000 + n).toNat
  else if -0x80000000 ≤ n then 0xd2 :: bigEndian 4 (0x100000000 + n).toNat
  else 0xd3 :: bigEndian 8 (0x10000000000000000 + n).toNat

def writeArrayHeader (count : Nat) : List UInt8 :=
  if count < 16 then [UInt8.ofNat (0x90 + count)]
  else if count < 0x10000 then 0xdc :: bigEndian 2 count
  else 0xdd :: bigEndian 4 count

/-- A short ASCII string. -/
def writeTag (tag : List UInt8) : List UInt8 :=
  UInt8.ofNat (0xa0 + tag.length) :: tag

/-! ## Tags -/

/-- The tags in the order of their numbers. -/
def tagNames : List (Token.Shape × List UInt8) :=
  [(.none, [0x4e, 0x6f, 0x6e, 0x65]), (.byte, [0x42, 0x79, 0x74, 0x65]),
   (.uint, [0x55, 0x49, 0x6e, 0x74]), (.sint, [0x53, 0x49, 0x6e, 0x74]),
   (.bytes, [0x42, 0x79, 0x74, 0x65, 0x73]), (.seq, [0x53, 0x65, 0x71])]

def tagOf (shape : Token.Shape) : List UInt8 :=
  (tagNames.lookup shape).getD []

/-- A map with one entry, from a shape's tag to a payload. -/
def writeEntry (shape : Token.Shape) (payload : List UInt8) : List UInt8 :=
  0x81 :: (writeTag (tagOf shape) ++ payload)

/-! ## Tokens -/

mutual

def write : Token → List UInt8
  | .none => writeTag (tagOf .none)
  | .byte b => writeEntry .byte (writeNat b.toNat)
  | .uint n => writeEntry .uint (writeNat n.toNat)
  | .sint n => writeEntry .sint (writeInt n.toInt)
  | .bytes payload =>
    writeEntry .bytes
      (writeArrayHeader payload.length ++ payload.flatMap (fun b => writeNat b.toNat))
  | .seq items => writeEntry .seq (writeArrayHeader items.length ++ writeAll items)

def writeAll : List Token → List UInt8
  | [] => []
  | t :: rest => write t ++ writeAll rest

end

/-- Every token can be packed. -/
def pack (t : Token) : Except Error (List UInt8) := .ok (write t)

end Packrat.MessagePack
