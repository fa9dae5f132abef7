import Packrat.Grammar.Node
import Packrat.Token.Text

/-!
# What can be seen of a parse

A parse ends in an outcome: a token with the number of bytes it spans, or an error. On the way it
passes through events, and everything that watches parses (the trace, the explanation of a failure)
is a function of their list.

A whole parse reads `start`, then a balanced word of `enter` and `matched` or `failed`, then
`finish`. A fatal error leaves the word open and puts `aborted` in front of `finish`.
-/

namespace Packrat

structure Parsed where
  token : Token
  /-- The number of bytes matched, from the front of the input. -/
  consumed : Nat
  deriving DecidableEq

def Parsed.display (p : Parsed) : String :=
  p.token.display ++ " (" ++ toString p.consumed ++ " bytes)"

abbrev Outcome := Except Error Parsed

/-- One thing that happened during a parse. Depths count from 1, the depth of the start node. -/
inductive Event where
  | start (root : NodeId) (inputLength : Nat)
  | enter (node : NodeId) (position depth : Nat)
  /-- A node matched the bytes from `start` up to `stop`. -/
  | matched (node : NodeId) (start stop depth : Nat)
  /-- A node tried at `start` failed at `position`. -/
  | failed (node : NodeId) (start : Nat) (kind : Error.Kind) (position depth : Nat)
  /-- A node's answer was remembered. -/
  | memoHit (node : NodeId) (position depth : Nat)
  | aborted (error : Error)
  | finish (outcome : Outcome)

end Packrat
