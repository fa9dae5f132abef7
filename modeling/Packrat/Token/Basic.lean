/-!
# Tokens

A token is what a successful match yields: nothing, a byte, an integer, a byte string, or a sequence
of tokens. Tokens are plain values; a byte string inside one is a copy of the input's bytes.
-/

namespace Packrat

/-- The value produced by a successful match. -/
inductive Token where
  /-- No value: an optional that did not match, a lookahead, the empty match. -/
  | none
  | byte (b : UInt8)
  | uint (n : UInt64)
  | sint (n : Int64)
  | bytes (payload : List UInt8)
  | seq (items : List Token)

namespace Token

/-! ## Equality -/

mutual

def decEq : (t u : Token) → Decidable (t = u)
  | .none, .none => isTrue rfl
  | .byte a, .byte b =>
    if h : a = b then isTrue (by rw [h]) else isFalse (fun e => h (Token.byte.inj e))
  | .uint a, .uint b =>
    if h : a = b then isTrue (by rw [h]) else isFalse (fun e => h (Token.uint.inj e))
  | .sint a, .sint b =>
    if h : a = b then isTrue (by rw [h]) else isFalse (fun e => h (Token.sint.inj e))
  | .bytes a, .bytes b =>
    if h : a = b then isTrue (by rw [h]) else isFalse (fun e => h (Token.bytes.inj e))
  | .seq a, .seq b =>
    match decEqList a b with
    | isTrue h => isTrue (by rw [h])
    | isFalse h => isFalse (fun e => h (Token.seq.inj e))
  | .none, .byte _ | .none, .uint _ | .none, .sint _ | .none, .bytes _ | .none, .seq _
  | .byte _, .none | .byte _, .uint _ | .byte _, .sint _ | .byte _, .bytes _ | .byte _, .seq _
  | .uint _, .none | .uint _, .byte _ | .uint _, .sint _ | .uint _, .bytes _ | .uint _, .seq _
  | .sint _, .none | .sint _, .byte _ | .sint _, .uint _ | .sint _, .bytes _ | .sint _, .seq _
  | .bytes _, .none | .bytes _, .byte _ | .bytes _, .uint _ | .bytes _, .sint _ | .bytes _, .seq _
  | .seq _, .none | .seq _, .byte _ | .seq _, .uint _ | .seq _, .sint _ | .seq _, .bytes _ =>
    isFalse (fun e => by cases e)

def decEqList : (ts us : List Token) → Decidable (ts = us)
  | [], [] => isTrue rfl
  | [], _ :: _ => isFalse (fun e => by cases e)
  | _ :: _, [] => isFalse (fun e => by cases e)
  | t :: ts, u :: us =>
    match decEq t u, decEqList ts us with
    | isTrue h, isTrue hs => isTrue (by rw [h, hs])
    | isFalse h, _ => isFalse (fun e => h (List.cons.inj e).1)
    | _, isFalse hs => isFalse (fun e => hs (List.cons.inj e).2)

end

instance : DecidableEq Token := decEq

/-! ## Shapes -/

/-- Which kind of value a token holds. -/
inductive Shape where
  | none
  | byte
  | uint
  | sint
  | bytes
  | seq
  deriving DecidableEq

def Shape.name : Shape → String
  | .none => "none"
  | .byte => "byte"
  | .uint => "unsigned-integer"
  | .sint => "signed-integer"
  | .bytes => "byte-string"
  | .seq => "sequence"

def shape : Token → Shape
  | .none => .none
  | .byte _ => .byte
  | .uint _ => .uint
  | .sint _ => .sint
  | .bytes _ => .bytes
  | .seq _ => .seq

/-! ## Accessors -/

def isNone : Token → Bool
  | .none => true
  | _ => false

def byte? : Token → Option UInt8
  | .byte b => some b
  | _ => Option.none

def uint? : Token → Option UInt64
  | .uint n => some n
  | _ => Option.none

def sint? : Token → Option Int64
  | .sint n => some n
  | _ => Option.none

def bytes? : Token → Option (List UInt8)
  | .bytes payload => some payload
  | _ => Option.none

def seq? : Token → Option (List Token)
  | .seq items => some items
  | _ => Option.none

/-- The token as a count: an unsigned integer, or a byte widened. -/
def count? : Token → Option UInt64
  | .uint n => some n
  | .byte b => some b.toUInt64
  | _ => Option.none

/-- The bytes of a sequence that consists of byte tokens only. -/
def byteRun? (t : Token) : Option (List UInt8) :=
  t.seq?.bind (·.mapM byte?)

mutual

/-- The number of tokens in a token, itself included. -/
def nodeCount : Token → Nat
  | .seq items => 1 + nodeCounts items
  | _ => 1

def nodeCounts : List Token → Nat
  | [] => 0
  | t :: rest => nodeCount t + nodeCounts rest

end

end Token

end Packrat
