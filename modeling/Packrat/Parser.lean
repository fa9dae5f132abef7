import Packrat.Walk.Invoke

/-!
# Parsers

A parser is a grammar with its choices. It starts a walk at a node, turns the walk's end into an
outcome, and can show the events that led there.

A start node that matches is a success unless all input had to be used and some is left. One that
fails is reported by the furthest failure of the walk, which says more than its own.
-/

namespace Packrat

/-- A grammar and how to run it. -/
structure Parser where
  grammar : Grammar
  config : Config

namespace Parser

/-- The outcome of a walk that ended. -/
def conclude (task : Task) : EStateM.Result Error Progress Step → Outcome
  | .error e _ => .error e
  | .ok (.matched token stop) _ =>
    if task.config.fullConsumption ∧ stop < task.input.size then
      .error (.located (.trailingInput (task.input.size - stop)) stop)
    else .ok ⟨token, stop⟩
  | .ok (.failed own) s =>
    let failure := s.furthest.getD own
    .error (.located failure.kind failure.position)

/-- The events of a walk that ended. -/
def seen : EStateM.Result Error Progress Step → Array Event
  | .error _ s | .ok _ s => s.events

/-- The events that close a parse. -/
def closing (outcome : Outcome) : List Event :=
  match outcome with
  | .error e => if e.isFatal then [.aborted e, .finish outcome] else [.finish outcome]
  | .ok _ => [.finish outcome]

/-- The walk from a node over the whole input. -/
def walk (p : Parser) (start : NodeId) (input : List UInt8) : EStateM.Result Error Progress Step :=
  Walk.invoke ⟨p.grammar, input.toArray, p.config⟩ p.config.maxDepth 1 start 0 ⟨none, ∅, #[]⟩

/-- Parses from a node, and shows the events. A start node of another grammar is refused before
there is anything to see. -/
def watch (p : Parser) (start : NodeId) (input : List UInt8) : Outcome × List Event :=
  match p.grammar.node start with
  | .error e => (.error e, [])
  | .ok _ =>
    let ended := p.walk start input
    let outcome := conclude ⟨p.grammar, input.toArray, p.config⟩ ended
    (outcome, .start start input.length :: ((seen ended).toList ++ closing outcome))

def runFrom (p : Parser) (start : NodeId) (input : List UInt8) : Outcome :=
  (p.watch start input).1

def run (p : Parser) (input : List UInt8) : Outcome :=
  p.runFrom p.grammar.root input

def token (p : Parser) (input : List UInt8) : Except Error Token :=
  (p.run input).map Parsed.token

def tokenFrom (p : Parser) (start : NodeId) (input : List UInt8) : Except Error Token :=
  (p.runFrom start input).map Parsed.token

end Parser

end Packrat
