import Packrat.Error
import Packrat.MessagePack.Writer

/-!
# Reading tokens from MessagePack

Reading accepts more than is written. A length or an integer may have any of its widths, a byte
string may be a binary string, and the empty value may be an entry with a nil payload. A tag may
also be given as a binary string or by its number. What follows the token is not looked at.

Arrays may be nested to a fixed depth. Each piece of a token is read from the front of the bytes and
hands on the rest.
-/

namespace Packrat.MessagePack

/-! ## Reading pieces -/

/-- What is read from the front of some bytes, with the bytes behind it. -/
abbrev Reader (α : Type) := List UInt8 → Option (α × List UInt8)

def takeBytes (count : Nat) : Reader (List UInt8) := fun bytes =>
  if count ≤ bytes.length then some (bytes.take count, bytes.drop count) else none

/-- The number that bytes spell, the most significant first. -/
def natOf (bytes : List UInt8) : Nat :=
  bytes.foldl (fun n b => n * 256 + b.toNat) 0

/-- A number of a fixed width without a sign. -/
def fixedNat (width : Nat) : Reader Nat := fun bytes =>
  (takeBytes width bytes).map (fun (raw, rest) => (natOf raw, rest))

/-- The integer of two's-complement bytes. -/
def fixedInt (width : Nat) : Reader Int := fun bytes =>
  (fixedNat width bytes).map (fun (n, rest) => (Int.bmod n (1 <<< (8 * width)), rest))

/-- What can stand at the front of some bytes, headers only: the elements of an array or a map
follow it. -/
inductive Item where
  | unsigned (n : Nat)
  | signed (n : Int)
  | text (bytes : List UInt8)
  | binary (bytes : List UInt8)
  | array (count : Nat)
  | map (count : Nat)
  | nil
  /-- A kind of value that no token contains. -/
  | other

/-- The item at the front. -/
def readItem : Reader Item
  | [] => none
  | marker :: rest =>
    let m := marker.toNat
    let unsigned (width : Nat) := (fixedNat width rest).map (fun (n, rest) => (.unsigned n, rest))
    let signed (width : Nat) := (fixedInt width rest).map (fun (n, rest) => (.signed n, rest))
    let sized (kind : List UInt8 → Item) (count : Nat) (rest : List UInt8) :=
      (takeBytes count rest).map (fun (bytes, rest) => (kind bytes, rest))
    let counted (kind : List UInt8 → Item) (width : Nat) :=
      (fixedNat width rest).bind (fun (count, rest) => sized kind count rest)
    let header (kind : Nat → Item) (width : Nat) :=
      (fixedNat width rest).map (fun (count, rest) => (kind count, rest))
    if m < 0x80 then some (.unsigned m, rest)
    else if m < 0x90 then some (.map (m - 0x80), rest)
    else if m < 0xa0 then some (.array (m - 0x90), rest)
    else if m < 0xc0 then sized .text (m - 0xa0) rest
    else if m = 0xc0 then some (.nil, rest)
    else if m = 0xc4 then counted .binary 1
    else if m = 0xc5 then counted .binary 2
    else if m = 0xc6 then counted .binary 4
    else if m = 0xcc then unsigned 1
    else if m = 0xcd then unsigned 2
    else if m = 0xce then unsigned 4
    else if m = 0xcf then unsigned 8
    else if m = 0xd0 then signed 1
    else if m = 0xd1 then signed 2
    else if m = 0xd2 then signed 4
    else if m = 0xd3 then signed 8
    else if m = 0xd9 then counted .text 1
    else if m = 0xda then counted .text 2
    else if m = 0xdb then counted .text 4
    else if m = 0xdc then header .array 2
    else if m = 0xdd then header .array 4
    else if m = 0xde then header .map 2
    else if m = 0xdf then header .map 4
    else if 0xe0 ≤ m then some (.signed ((m : Int) - 256), rest)
    else some (.other, rest)

/-- An integer that lies within two bounds, both included. -/
def readWithin (low high : Int) : Reader Int := fun bytes =>
  match readItem bytes with
  | some (.unsigned n, rest) => if low ≤ n ∧ (n : Int) ≤ high then some (n, rest) else none
  | some (.signed n, rest) => if low ≤ n ∧ n ≤ high then some (n, rest) else none
  | _ => none

/-- The shape that a tag item names. -/
def shapeOf? : Item → Option Token.Shape
  | .text name | .binary name => (tagNames.find? (fun entry => entry.2 == name)).map Prod.fst
  | .unsigned n => (tagNames[n]?).map Prod.fst
  | _ => none

def readMany {α : Type} (read : Reader α) : Nat → Reader (List α)
  | 0, bytes => some ([], bytes)
  | count + 1, bytes => do
    let (x, rest) ← read bytes
    let (xs, rest) ← readMany read count rest
    return (x :: xs, rest)

/-- A byte written as an integer. -/
def readByte : Reader UInt8 := fun bytes =>
  (readWithin 0 255 bytes).map (fun (n, rest) => (UInt8.ofNat n.toNat, rest))

/-! ## Reading tokens -/

/-- The payload of a token of a given shape. `element` reads the tokens of a sequence, and is missing
where no further array may begin. -/
def readPayload (element : Option (Reader Token)) : Token.Shape → Reader Token
  | .none, bytes =>
    match readItem bytes with
    | some (.nil, rest) => some (.none, rest)
    | _ => none
  | .byte, bytes => (readByte bytes).map (fun (b, rest) => (.byte b, rest))
  | .uint, bytes =>
    (readWithin 0 0xffffffffffffffff bytes).map
      (fun (n, rest) => (.uint (UInt64.ofNat n.toNat), rest))
  | .sint, bytes =>
    (readWithin Int64.minValue.toInt Int64.maxValue.toInt bytes).map
      (fun (n, rest) => (.sint (Int64.ofInt n), rest))
  | .bytes, bytes =>
    match readItem bytes, element with
    | some (.binary payload, rest), _ => some (.bytes payload, rest)
    | some (.array count, rest), some _ =>
      (readMany readByte count rest).map (fun (payload, rest) => (.bytes payload, rest))
    | _, _ => none
  | .seq, bytes =>
    match readItem bytes, element with
    | some (.binary [], rest), _ => some (.seq [], rest)
    | some (.array count, rest), some element =>
      (readMany element count rest).map (fun (items, rest) => (.seq items, rest))
    | _, _ => none

/-- A token whose sequences are read by `element`: an entry of a tag with its payload, or the bare
tag of the empty value. -/
def readWith (element : Option (Reader Token)) : Reader Token := fun bytes =>
  match readItem bytes with
  | some (.map 1, rest) => do
    let (tag, rest) ← readItem rest
    readPayload element (← shapeOf? tag) rest
  | some (.map _, _) => none
  | some (item, rest) => if shapeOf? item = some .none then some (.none, rest) else none
  | none => none

/-- A token with at most `nesting` arrays one inside the other. -/
def readNested : (nesting : Nat) → Reader Token
  | 0 => readWith none
  | nesting + 1 => readWith (some (readNested nesting))

/-- The most arrays that may stand one inside the other. -/
def maxNesting : Nat := 1023

/-- The token at the front of some bytes. -/
def read? (bytes : List UInt8) : Option Token :=
  (readNested maxNesting bytes).map Prod.fst

def read (bytes : List UInt8) : Except Error Token :=
  match read? bytes with
  | some t => .ok t
  | none => .error (.plain (.serialization "the bytes hold no token"))

end Packrat.MessagePack
