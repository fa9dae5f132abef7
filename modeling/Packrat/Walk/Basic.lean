import Std.Data.HashMap
import Packrat.Config
import Packrat.Event
import Packrat.Grammar.Basic

/-!
# Walks

Trying a node at a position either matches, with a token and the position behind it, or fails. The
position is passed by value, so giving up a branch means going on from where it began. A fatal error
is neither: it leaves the walk at once.

Beside the answer, a walk keeps the failure that got furthest, since that is what to tell about a
failed parse. Of several failures at one position the last counts, which is the outermost. It also
keeps the events, in order, and the answers it remembers.
-/

namespace Packrat

structure Failure where
  kind : Error.Kind
  position : Nat
  deriving DecidableEq

/-- The answer of a node at a position. -/
inductive Step where
  | matched (token : Token) (stop : Nat)
  | failed (failure : Failure)
  deriving DecidableEq

/-- The same input, grammar and choices all along a walk. -/
structure Task where
  grammar : Grammar
  input : Array UInt8
  config : Config

/-- What a walk carries along. -/
structure Progress where
  /-- The failure to tell about if the parse fails. -/
  furthest : Option Failure
  /-- Answers by node and position, each with the furthest failure met while finding it. -/
  memo : Std.HashMap (Nat × Nat) (Step × Option Failure)
  events : Array Event

/-- A part of a walk. A fatal error keeps the progress made before it. -/
abbrev Walk := EStateM Error Progress

namespace Walk

/-! ## Failures and events -/

/-- Of two failures the one to tell about, the second being the later one. -/
def further (current : Option Failure) (later : Failure) : Option Failure :=
  match current with
  | none => some later
  | some failure => if failure.position ≤ later.position then some later else some failure

def offer (failure : Failure) : Walk Unit :=
  modify fun s => { s with furthest := further s.furthest failure }

/-- Fails, taking note of it. -/
def fail (kind : Error.Kind) (position : Nat) : Walk Step := do
  offer ⟨kind, position⟩
  return .failed ⟨kind, position⟩

def emit (event : Event) : Walk Unit :=
  modify fun s => { s with events := s.events.push event }

end Walk

end Packrat
