import Packrat.Grammar.Node

/-!
# Trace records

A record is an event as a trace keeps it: with a running number, the number of its parse, its depth
and a time. The depth stands beside what happened and not inside it, since the boundaries of a parse
have none.
-/

namespace Packrat.Trace

/-- What a record says. -/
inductive Note where
  | parseStart (root : NodeId) (inputLength : Nat)
  /-- The bytes used if the parse succeeded, and the error if it failed. -/
  | parseEnd (consumed : Option Nat) (error : Option Error)
  | enter (node : NodeId) (position : Nat)
  | matched (node : NodeId) (start stop : Nat)
  | failed (node : NodeId) (start : Nat) (kind : Error.Kind) (position : Nat)
  | memoHit (node : NodeId) (position : Nat)
  | aborted (error : Error)
  deriving DecidableEq

namespace Note

/-- The name of what happened. -/
def typeName : Note → String
  | parseStart .. => "parse-start"
  | parseEnd .. => "parse-end"
  | enter .. => "enter"
  | matched .. => "matched"
  | failed .. => "failed"
  | memoHit .. => "memo-hit"
  | aborted .. => "aborted"

/-- Whether a parse begins or ends here. -/
def isBoundary : Note → Bool
  | parseStart .. | parseEnd .. => true
  | _ => false

def node? : Note → Option NodeId
  | parseStart node _ | enter node _ | matched node _ _ | failed node _ _ _
  | memoHit node _ => some node
  | parseEnd .. | aborted .. => none

end Note

structure Record where
  /-- How many records were made before it. -/
  id : Nat
  /-- The number of its parse. -/
  parse : Nat
  depth : Nat
  /-- Nanoseconds since the trace began. -/
  timestamp : Nat
  note : Note
  deriving DecidableEq

end Packrat.Trace
