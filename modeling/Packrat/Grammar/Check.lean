import Packrat.Grammar.Builder

/-!
# Checking grammars

Building looks at the whole arena: every reference must be to a node of this arena, every
placeholder must lead to a node that is none, and the numbers inside nodes must make sense. The
first fault in arena order is the one reported. Unreachable nodes count like any others.
-/

namespace Packrat.Builder

/-- Fails for every id of a list that is not one of this arena's, in order. -/
def checkAllOwned (b : Builder) : List NodeId → Except Error Unit
  | [] => .ok ()
  | id :: rest => do
    b.checkOwned id
    b.checkAllOwned rest

/-- Follows placeholders from `current` for at most `steps` nodes, looking for one that is none. -/
def checkChain (b : Builder) (start : Nat) : Nat → Nat → Except Error Unit
  | 0, _ =>
    .error (.plain (.invalidGrammar
      ("node #" ++ toString start ++ ": indirection cycle with no definition")))
  | steps + 1, current =>
    match b.nodes[current]? with
    | some (.indirect (some next)) => b.checkChain start steps next.index
    | some (.indirect none) => .error (.plain (.unboundIndirection current))
    | _ => .ok ()

/-- Fails for a node whose own numbers make no sense. -/
def checkNode (b : Builder) (index : Nat) (node : Node) : Except Error Unit :=
  let invalid (reason : String) : Except Error Unit :=
    .error (.plain (.invalidGrammar ("node #" ++ toString index ++ ": " ++ reason)))
  match node with
  | .indirect none => .error (.plain (.unboundIndirection index))
  | .indirect (some _) => b.checkChain index (b.nodes.size + 1) index
  | .range low high =>
    if low ≤ high then .ok ()
    else invalid ("empty range " ++ toString low.toNat ++ "..=" ++ toString high.toNat)
  | .unsigned width | .signed width =>
    if width = 1 ∨ width = 2 ∨ width = 4 ∨ width = 8 then .ok ()
    else invalid ("integer width must be 1, 2, 4 or 8, got " ++ toString width)
  | .repeated _ min (some max) =>
    if min ≤ max then .ok ()
    else invalid ("repetition max " ++ toString max ++ " below min " ++ toString min)
  | .pick members keep =>
    if keep < members.length then .ok () else invalid "pick index out of range"
  | _ => .ok ()

/-- Checks nodes in arena order, the first of them standing at `index`. -/
def checkNodes (b : Builder) (index : Nat) : List Node → Except Error Unit
  | [] => .ok ()
  | node :: rest => do
    b.checkAllOwned node.children
    b.checkNode index node
    b.checkNodes (index + 1) rest

/-- Checks the arena and finishes it with a root. -/
def build (b : Builder) (root : NodeId) : Except Error Grammar := do
  b.checkOwned root
  b.checkNodes 0 b.nodes.toList
  return ⟨b.arena, b.nodes, b.names, root⟩

end Packrat.Builder
