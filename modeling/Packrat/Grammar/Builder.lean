import Packrat.Grammar.Basic

/-!
# Building grammars

A grammar is built from the leaves up. Each constructor adds one node to the arena and answers its
id; nodes already there stay as they are. The one exception is a placeholder, which can be made and
referred to first and gets its definition later, once.

Nothing is checked while nodes are added, apart from what a definition is installed in.
-/

namespace Packrat

/-- An arena under construction. -/
structure Builder where
  arena : Nat
  nodes : Array Node
  names : List (Nat × String)

/-- A construction step: it may add nodes, and answers with a value. -/
abbrev Build := StateM Builder

namespace Builder

/-- The empty arena with the given number. Ids of two builders never meet if their numbers
differ. -/
def new (arena : Nat) : Builder := ⟨arena, #[], []⟩

/-- Adds a node and answers its id. -/
def add (node : Node) : Build NodeId := fun b =>
  (⟨b.arena, b.nodes.size⟩, { b with nodes := b.nodes.push node })

/-! ## Nodes that look at the input -/

def literal (byte : UInt8) : Build NodeId := add (.literal byte)

def range (low high : UInt8) : Build NodeId := add (.range low high)

def inSet (bytes : List UInt8) : Build NodeId := add (.set (ByteSet.ofList bytes))

def notInSet (bytes : List UInt8) : Build NodeId := add (.set (ByteSet.ofList bytes).complement)

def bytes (expected : List UInt8) : Build NodeId := add (.bytes expected)

def anyByte : Build NodeId := add .anyByte

def unsigned (width : Nat) : Build NodeId := add (.unsigned width)

def signed (width : Nat) : Build NodeId := add (.signed width)

def endOfInput : Build NodeId := add .endOfInput

def epsilon : Build NodeId := add .epsilon

def nothing : Build NodeId := add .nothing

/-! ## Nodes made of nodes -/

def sequence (nodes : List NodeId) : Build NodeId := add (.sequence nodes)

def choice (nodes : List NodeId) : Build NodeId := add (.choice nodes)

def optional (node : NodeId) : Build NodeId := add (.optional node)

def many (node : NodeId) : Build NodeId := add (.repeated node 0 none)

def many1 (node : NodeId) : Build NodeId := add (.repeated node 1 none)

def times (node : NodeId) (count : Nat) : Build NodeId := add (.repeated node count (some count))

def sepBy (node separator : NodeId) : Build NodeId := add (.sepBy node separator 0)

def sepBy1 (node separator : NodeId) : Build NodeId := add (.sepBy node separator 1)

/-- Two nodes, keeping the first one's token. -/
def left (keep skip : NodeId) : Build NodeId := add (.pick [keep, skip] 0)

/-- Two nodes, keeping the second one's token. -/
def right (skip keep : NodeId) : Build NodeId := add (.pick [skip, keep] 1)

/-- Three nodes, keeping the one in the middle. -/
def middle (opening keep closing : NodeId) : Build NodeId := add (.pick [opening, keep, closing] 1)

def action (node : NodeId) (name : String) (apply : Token → Option Token) : Build NodeId :=
  add (.action node ⟨name, apply⟩)

def lengthValue (length : NodeId) (element : Element) : Build NodeId :=
  add (.lengthValue length element)

/-- Holds where the node would match. -/
def followedBy (node : NodeId) : Build NodeId := add (.lookahead node true)

/-- Holds where the node would not match. -/
def notFollowedBy (node : NodeId) : Build NodeId := add (.lookahead node false)

def whitespace (node : NodeId) : Build NodeId := add (.whitespace node)

/-! ## Names and placeholders -/

/-- Gives a node of this arena a name for messages, and answers the node. -/
def name (node : NodeId) (label : String) : Build NodeId := fun b =>
  if node.arena = b.arena then (node, { b with names := (node.index, label) :: b.names })
  else (node, b)

def indirect : Build NodeId := add (.indirect none)

def owns (b : Builder) (id : NodeId) : Bool :=
  id.arena == b.arena && decide (id.index < b.nodes.size)

/-- Fails for an id that is not one of this arena's. -/
def checkOwned (b : Builder) (id : NodeId) : Except Error Unit :=
  if b.owns id then .ok () else .error (.plain (.foreignNode id.index))

/-- The arena with the definition of a placeholder installed. -/
def defined (b : Builder) (placeholder definition : NodeId) : Except Error Builder := do
  b.checkOwned placeholder
  b.checkOwned definition
  match b.nodes[placeholder.index]? with
  | some (.indirect none) =>
    .ok { b with
      nodes := b.nodes.setIfInBounds placeholder.index (.indirect (some definition)) }
  | some (.indirect (some _)) => .error (.plain (.indirectionAlreadyBound placeholder.index))
  | _ => .error (.plain (.notAnIndirection placeholder.index))

/-- Installs the definition of a placeholder. A step that fails changes nothing. -/
def define (placeholder definition : NodeId) : Build (Except Error Unit) := fun b =>
  match b.defined placeholder definition with
  | .ok b' => (.ok (), b')
  | .error e => (.error e, b)

end Builder

end Packrat
