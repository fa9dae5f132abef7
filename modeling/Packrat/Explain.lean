import Packrat.Event
import Packrat.Grammar.Basic

/-!
# Why a parse failed

A failed parse is explained by what would have been accepted where it got furthest: the terminals
that failed at that position. A named node that fails without having consumed anything stands for
everything beneath it, so the reader sees `digits` and not the range of a digit.

The explainer follows the events with a stack of the nodes under way. Each frame remembers what was
expected when its node was entered, which is what to keep when the node's name takes the place of
its inner parts.
-/

namespace Packrat

/-! ## Excerpts -/

namespace Excerpt

/-- How many bytes are shown before the caret. -/
def before : Nat := 32

/-- How many bytes are shown from the caret on. -/
def after : Nat := 16

/-- The input around a position on one line, and a caret under the position on the next. -/
def caret (input : List UInt8) (position : Nat) : String :=
  let position := min position input.length
  let start := position - before
  let stop := min (position + after) input.length
  let left := Text.escape ((input.drop start).take (position - start))
  let right := Text.escape ((input.drop position).take (stop - position))
  let lead := if 0 < start then "..." else ""
  let tail := if stop < input.length then "..." else ""
  let pad := String.ofList (List.replicate (lead.length + left.length) ' ')
  "  " ++ lead ++ left ++ right ++ tail ++ "\n  " ++ pad ++ "^"

end Excerpt

/-! ## Reports -/

/-- Why a parse failed, in terms of the grammar. -/
structure Report where
  error : Error
  /-- What would have been accepted at the error's position. -/
  expected : List String
  /-- The input around that position. -/
  excerpt : String
  deriving DecidableEq

/-- The line that tells what was expected; nothing if nothing is known. -/
def Report.expectedLine (r : Report) : String :=
  match r.expected with
  | [] => ""
  | [only] => "expected: " ++ only ++ "\n"
  | many => "expected one of: " ++ ", ".intercalate many ++ "\n"

def Report.display (r : Report) : String :=
  "parse failed: " ++ r.error.message ++ "\n" ++ r.expectedLine ++ r.excerpt

/-! ## Explainers -/

/-- The explainer's state when a node was entered. -/
structure Explainer.Frame where
  /-- How many expectations there were. -/
  mark : Nat
  /-- The furthest failure. -/
  furthest : Option Nat

/-- Collects what was expected at the furthest failure of a parse. -/
structure Explainer where
  grammar : Option Grammar
  input : List UInt8
  /-- The furthest position at which a node failed. -/
  furthest : Option Nat
  /-- What was expected there, without repetitions. -/
  expected : List String
  /-- The nodes under way, innermost first. -/
  stack : List Explainer.Frame
  error : Option Error

namespace Explainer

def new : Explainer := ⟨none, [], none, [], [], none⟩

/-- Begins a parse and forgets the last one. -/
def start (g : Grammar) (input : List UInt8) : Explainer :=
  { new with grammar := some g, input := input }

def enter (x : Explainer) : Explainer :=
  { x with stack := ⟨x.expected.length, x.furthest⟩ :: x.stack }

def matched (x : Explainer) : Explainer :=
  { x with stack := x.stack.tail }

/-- Expects something, once. -/
def expect (x : Explainer) (label : String) : Explainer :=
  if label ∈ x.expected then x else { x with expected := x.expected ++ [label] }

/-- Takes note of what a node that failed at the furthest position would have accepted. -/
def note (x : Explainer) (g : Grammar) (frame : Frame) (node : NodeId) (start position : Nat) :
    Explainer :=
  match g.name? node with
  | some name =>
    -- a named node that got somewhere is explained by its inside
    if start < position then x
    else
      let keep := if frame.furthest = some position then frame.mark else 0
      { x with expected := x.expected.take keep }.expect name
  | none =>
    if (g.node? node).any Node.isTerminal || x.expected.isEmpty then x.expect (g.describe node)
    else x

/-- A node that was entered at `start` is left with a failure at `position`. -/
def failed (x : Explainer) (node : NodeId) (start position : Nat) : Explainer :=
  match x.stack with
  | [] => x
  | frame :: stack =>
    let x := { x with stack := stack }
    if x.furthest.any (position < ·) then x
    else
      let x := if x.furthest = some position then x
        else { x with furthest := some position, expected := [] }
      match x.grammar with
      | none => x
      | some g => x.note g frame node start position

/-- A parse ends with an error or without. -/
def finish (x : Explainer) (error : Option Error) : Explainer :=
  { x with error := error }

/-- Follows an event of a parse of `input`. -/
def observe (g : Grammar) (input : List UInt8) (x : Explainer) : Event → Explainer
  | .start _ _ => start g input
  | .enter _ _ _ => x.enter
  | .matched _ _ _ _ => x.matched
  | .failed node start _ position _ => x.failed node start position
  | .memoHit _ _ _ | .aborted _ => x
  | .finish (.ok _) => x.finish none
  | .finish (.error e) => x.finish (some e)

def watch (x : Explainer) (g : Grammar) (input : List UInt8) (events : List Event) : Explainer :=
  events.foldl (observe g input) x

def report (x : Explainer) : Option Report :=
  x.error.map fun error =>
    let position := (error.position.or x.furthest).getD 0
    ⟨error, if x.furthest = some position then x.expected else [],
      Excerpt.caret x.input position⟩

end Explainer

end Packrat
