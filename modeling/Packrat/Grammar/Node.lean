import Packrat.ByteSet
import Packrat.Error

/-!
# Grammar nodes

A grammar is a graph of nodes kept in an arena. A node refers to others by their ids, and an id
carries the arena it came from besides its index, so that a node of one grammar is recognised as a
stranger in another.

The graph has cycles only through placeholders, the `indirect` nodes: every other node refers to
nodes that were there before it.
-/

namespace Packrat

/-- A reference to a node: the arena it belongs to and its index there. -/
structure NodeId where
  arena : Nat
  index : Nat
  deriving DecidableEq

/-- The id as text: its index behind a number sign. -/
def NodeId.display (id : NodeId) : String := "#" ++ toString id.index

/-- A named function applied to the token of a match. It replaces the token, or answers `none` to
refuse the match. -/
structure Action where
  name : String
  apply : Token → Option Token

/-- The action for debugging. -/
def Action.debug (a : Action) : String := "Action(" ++ a.name ++ ")"

/-- What a length counts. -/
inductive Element where
  /-- Raw bytes, collected into a byte-string token. -/
  | byte
  /-- Matches of a node, collected into a sequence token. -/
  | node (id : NodeId)

/-- What a node matches. -/
inductive Node where
  | literal (expected : UInt8)
  /-- One byte between two bounds, both included. -/
  | range (low high : UInt8)
  | set (members : ByteSet)
  | bytes (expected : List UInt8)
  | anyByte
  /-- A big-endian unsigned integer of `width` bytes. -/
  | unsigned (width : Nat)
  /-- A big-endian two's-complement integer of `width` bytes. -/
  | signed (width : Nat)
  /-- All members in order. -/
  | sequence (members : List NodeId)
  /-- All members in order, of which one's token is kept. -/
  | pick (members : List NodeId) (keep : Nat)
  /-- The first alternative that matches. -/
  | choice (alternatives : List NodeId)
  | optional (node : NodeId)
  /-- The node as often as it matches, within bounds; no upper bound is `none`. -/
  | repeated (node : NodeId) (min : Nat) (max : Option Nat)
  /-- The node as often as it matches, with separators between. -/
  | sepBy (node separator : NodeId) (min : Nat)
  /-- The node, its token transformed. -/
  | action (node : NodeId) (action : Action)
  /-- A count, then that many elements. -/
  | lengthValue (length : NodeId) (element : Element)
  /-- Whether the node matches here (`positive`) or does not; nothing is consumed. -/
  | lookahead (node : NodeId) (positive : Bool)
  | whitespace (node : NodeId)
  | endOfInput
  /-- Nothing, always. -/
  | epsilon
  /-- Never matches. -/
  | nothing
  /-- A placeholder for a definition that may come later. -/
  | indirect (target : Option NodeId)

namespace Node

def kindName : Node → String
  | literal .. => "literal"
  | range .. => "range"
  | set .. => "set"
  | bytes .. => "bytes"
  | anyByte => "any-byte"
  | unsigned .. => "unsigned"
  | signed .. => "signed"
  | sequence .. => "sequence"
  | pick .. => "pick"
  | choice .. => "choice"
  | optional .. => "optional"
  | repeated .. => "repeat"
  | sepBy .. => "sep-by"
  | action .. => "action"
  | lengthValue .. => "length-value"
  | lookahead .. => "lookahead"
  | whitespace .. => "whitespace"
  | endOfInput => "end"
  | epsilon => "epsilon"
  | nothing => "nothing"
  | indirect .. => "indirect"

/-- Whether the node looks at the input itself rather than through other nodes. -/
def isTerminal : Node → Bool
  | literal .. | range .. | set .. | bytes .. | anyByte | unsigned .. | signed ..
  | endOfInput | epsilon | nothing => true
  | _ => false

/-- The nodes a node refers to, in the order in which they are written. -/
def children : Node → List NodeId
  | sequence members | pick members _ | choice members => members
  | optional node | repeated node _ _ | action node _ | lookahead node _ | whitespace node
  | indirect (some node) => [node]
  | sepBy node separator _ => [node, separator]
  | lengthValue length .byte => [length]
  | lengthValue length (.node node) => [length, node]
  | _ => []

def action? : Node → Option Action
  | action _ a => some a
  | _ => none

end Node

end Packrat
