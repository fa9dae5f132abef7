import Packrat.Grammar.Node

/-!
# Grammars

A grammar is a finished arena of nodes with a root. It answers questions about its nodes: what a
placeholder stands for, what a node is called in messages, which nodes can be reached.

Two of these walk the graph. Following placeholders takes at most as many steps as there are nodes,
since a checked grammar has no cycle of placeholders alone. The walk over everything reachable keeps
the nodes not seen yet; each step either takes one of them out or shortens the stack.
-/

namespace Packrat

/-- An arena of nodes with a root. Of several names given to one node the newest comes first. -/
structure Grammar where
  arena : Nat
  nodes : Array Node
  names : List (Nat × String)
  root : NodeId

namespace Grammar

/-! ## Nodes -/

def size (g : Grammar) : Nat := g.nodes.size

/-- Whether an id is one of this grammar's. -/
def contains (g : Grammar) (id : NodeId) : Bool :=
  id.arena == g.arena && decide (id.index < g.nodes.size)

/-- The node an id refers to, unless it is a stranger. -/
def node? (g : Grammar) (id : NodeId) : Option Node :=
  if g.contains id then g.nodes[id.index]? else none

/-- The node an id refers to. -/
def node (g : Grammar) (id : NodeId) : Except Error Node :=
  match g.node? id with
  | some node => .ok node
  | none => .error (.plain (.foreignNode id.index))

def ids (g : Grammar) : List NodeId :=
  (List.range g.nodes.size).map (fun index => ⟨g.arena, index⟩)

def withRoot (g : Grammar) (root : NodeId) : Except Error Grammar :=
  if g.contains root then .ok { g with root := root }
  else .error (.plain (.foreignNode root.index))

/-! ## Placeholders -/

/-- Follows at most `steps` placeholders from `id`. -/
def follow (g : Grammar) : Nat → NodeId → NodeId
  | 0, id => id
  | steps + 1, id =>
    match g.node? id with
    | some (.indirect (some target)) => g.follow steps target
    | _ => id

/-- The node that does the matching for `id`: the end of its chain of placeholders. -/
def resolve (g : Grammar) (id : NodeId) : NodeId :=
  g.follow g.nodes.size id

/-! ## Descriptions -/

def name? (g : Grammar) (id : NodeId) : Option String :=
  if g.contains id then g.names.lookup id.index else none

/-- What a node matches, in words. -/
def rendering (id : NodeId) : Node → String
  | .literal b => Text.quoteByte b
  | .range low high => "[" ++ Text.quoteByte low ++ "-" ++ Text.quoteByte high ++ "]"
  | .set members => members.display
  | .bytes expected => Text.quoteBytes expected
  | .anyByte => "any byte"
  | .unsigned width => "u" ++ toString (width * 8)
  | .signed width => "i" ++ toString (width * 8)
  | .endOfInput => "end of input"
  | .action _ action => action.name ++ " " ++ id.display
  | node => node.kindName ++ " " ++ id.display

/-- A node's own label: its name, or else what it matches. -/
def label (g : Grammar) (id : NodeId) : String :=
  match g.name? id, g.node? id with
  | some name, _ => name
  | none, some node => rendering id node
  | none, none => "<foreign " ++ id.display ++ ">"

/-- What a node is called in messages. A placeholder without a name is called what it stands for. -/
def describe (g : Grammar) (id : NodeId) : String :=
  match g.name? id, g.node? id with
  | none, some (.indirect (some target)) => g.label (g.resolve target)
  | _, _ => g.label id

/-! ## Reachable nodes -/

/-- The nodes that `id` refers to. -/
def childrenOf (g : Grammar) (id : NodeId) : List NodeId :=
  match g.node? id with
  | some node => node.children
  | none => []

/-- The nodes of `unseen` met by a depth-first walk that still has `stack` before it. -/
def visit (g : Grammar) (unseen : List Nat) (stack : List NodeId) : List NodeId :=
  match stack with
  | [] => []
  | id :: rest =>
    if g.contains id ∧ id.index ∈ unseen then
      id :: g.visit (unseen.erase id.index) (g.childrenOf id ++ rest)
    else g.visit unseen rest
termination_by (unseen.length, stack.length)
decreasing_by
  · rename_i h
    have : 0 < unseen.length := List.length_pos_of_mem h.2
    have : (unseen.erase id.index).length = unseen.length - 1 := List.length_erase_of_mem h.2
    exact Prod.Lex.left _ _ (by omega)
  · exact Prod.Lex.right _ (by simp)

/-- The nodes reachable from the root, each once, in depth-first order. -/
def reachable (g : Grammar) : List NodeId :=
  g.visit (List.range g.nodes.size) [g.root]

end Grammar

end Packrat
