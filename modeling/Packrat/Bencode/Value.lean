import Packrat.Json
import Packrat.Text.Utf8

/-!
# Bencode values

Bencode writes four kinds of values: integers as `i-3e`, byte strings behind their length as `2:hi`,
lists between `l` and `e`, and dictionaries between `d` and `e` as keys and values in turn. A
dictionary here is the list of its entries as the document has them, repeated keys included, so that
writing a value gives its document back.
-/

namespace Packrat

/-- A value that bencode can write. -/
inductive Bencode where
  | int (n : Int64)
  | bytes (payload : List UInt8)
  | list (items : List Bencode)
  /-- Keys and values, in document order. -/
  | dict (entries : List (List UInt8 × Bencode))

namespace Bencode

/-! ## Equality -/

mutual

def decEq : (v w : Bencode) → Decidable (v = w)
  | .int a, .int b =>
    if h : a = b then isTrue (by rw [h]) else isFalse (fun e => h (Bencode.int.inj e))
  | .bytes a, .bytes b =>
    if h : a = b then isTrue (by rw [h]) else isFalse (fun e => h (Bencode.bytes.inj e))
  | .list a, .list b =>
    match decEqItems a b with
    | isTrue h => isTrue (by rw [h])
    | isFalse h => isFalse (fun e => h (Bencode.list.inj e))
  | .dict a, .dict b =>
    match decEqEntries a b with
    | isTrue h => isTrue (by rw [h])
    | isFalse h => isFalse (fun e => h (Bencode.dict.inj e))
  | .int _, .bytes _ | .int _, .list _ | .int _, .dict _
  | .bytes _, .int _ | .bytes _, .list _ | .bytes _, .dict _
  | .list _, .int _ | .list _, .bytes _ | .list _, .dict _
  | .dict _, .int _ | .dict _, .bytes _ | .dict _, .list _ => isFalse (fun e => by cases e)

def decEqItems : (vs ws : List Bencode) → Decidable (vs = ws)
  | [], [] => isTrue rfl
  | [], _ :: _ => isFalse (fun e => by cases e)
  | _ :: _, [] => isFalse (fun e => by cases e)
  | v :: vs, w :: ws =>
    match decEq v w, decEqItems vs ws with
    | isTrue h, isTrue hs => isTrue (by rw [h, hs])
    | isFalse h, _ => isFalse (fun e => h (List.cons.inj e).1)
    | _, isFalse hs => isFalse (fun e => hs (List.cons.inj e).2)

def decEqEntries : (es fs : List (List UInt8 × Bencode)) → Decidable (es = fs)
  | [], [] => isTrue rfl
  | [], _ :: _ => isFalse (fun e => by cases e)
  | _ :: _, [] => isFalse (fun e => by cases e)
  | (k, v) :: es, (l, w) :: fs =>
    if hk : k = l then
      match decEq v w, decEqEntries es fs with
      | isTrue h, isTrue hs => isTrue (by rw [hk, h, hs])
      | isFalse h, _ => isFalse (fun e => h (Prod.mk.inj (List.cons.inj e).1).2)
      | _, isFalse hs => isFalse (fun e => hs (List.cons.inj e).2)
    else isFalse (fun e => hk (Prod.mk.inj (List.cons.inj e).1).1)

end

instance : DecidableEq Bencode := decEq

/-! ## Documents -/

/-- A number in ASCII decimal. -/
def decimalNat (n : Nat) : List UInt8 :=
  (Nat.toDigits 10 n).map (fun c => UInt8.ofNat c.toNat)

/-- An integer in ASCII decimal, with a minus when it is negative. -/
def decimalInt (n : Int) : List UInt8 :=
  if n < 0 then 0x2d :: decimalNat n.natAbs else decimalNat n.natAbs

/-- A byte string behind its length. -/
def encodeBytes (payload : List UInt8) : List UInt8 :=
  decimalNat payload.length ++ 0x3a :: payload

mutual

/-- The document of a value. -/
def encode : Bencode → List UInt8
  | .int n => 0x69 :: (decimalInt n.toInt ++ [0x65])
  | .bytes payload => encodeBytes payload
  | .list items => 0x6c :: (encodeItems items ++ [0x65])
  | .dict entries => 0x64 :: (encodeEntries entries ++ [0x65])

def encodeItems : List Bencode → List UInt8
  | [] => []
  | v :: rest => encode v ++ encodeItems rest

/-- The documents of a list of entries, each key before its value. -/
def encodeEntries : List (List UInt8 × Bencode) → List UInt8
  | [] => []
  | (key, v) :: rest => encodeBytes key ++ encode v ++ encodeEntries rest

end

/-- The document as printable text. -/
def display (v : Bencode) : String :=
  Text.escape v.encode

/-! ## Looking up -/

/-- The value of a dictionary's first entry with the given key. -/
def get? (v : Bencode) (key : List UInt8) : Option Bencode :=
  match v with
  | .dict entries => entries.lookup key
  | _ => none

/-! ## JSON -/

mutual

/-- The value as JSON. A byte string is a string if it is UTF-8 and an array of numbers otherwise;
the keys of a dictionary are read leniently. -/
def json : Bencode → Json
  | .int n => .int n.toInt
  | .bytes payload =>
    match Text.ofUtf8? payload with
    | some text => .str text
    | none => .arr (payload.map (fun b => .int b.toNat))
  | .list items => .arr (jsonItems items)
  | .dict entries => .obj (jsonEntries entries)

def jsonItems : List Bencode → List Json
  | [] => []
  | v :: rest => json v :: jsonItems rest

def jsonEntries : List (List UInt8 × Bencode) → List (String × Json)
  | [] => []
  | (key, v) :: rest => (Text.ofUtf8Lossy key, json v) :: jsonEntries rest

end

end Bencode

end Packrat
