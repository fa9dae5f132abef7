import Packrat.Walk.Terminal

/-!
# Nodes made of nodes

Each kind of compound node is a function of how to try other nodes, given as `call`, so none of them
is recursive through the grammar.

The loops run on a budget. It is bookkeeping, not a bound: a repetition stops at the first match
that does not move on once it has enough, and positions never pass the end of the input, so the
budget computed from the input is never used up.
-/

namespace Packrat.Walk

/-! ## Members and alternatives -/

/-- All members in order, from `cursor`: their tokens and the position behind the last, or the first
failure. -/
def members (call : NodeId → Nat → Walk Step) :
    List NodeId → Array Token → Nat → Walk (Except Failure (Array Token × Nat))
  | [], tokens, cursor => return .ok (tokens, cursor)
  | member :: rest, tokens, cursor => do
    match ← call member cursor with
    | .matched token stop => members call rest (tokens.push token) stop
    | .failed failure => return .error failure

/-- The first alternative that matches at `pos`. -/
def firstOf (call : NodeId → Nat → Walk Step) (pos : Nat) : List NodeId → Walk Step
  | [] => fail .allAlternativesFailed pos
  | alternative :: rest => do
    match ← call alternative pos with
    | .matched token stop => return .matched token stop
    | .failed _ => firstOf call pos rest

/-! ## Loops -/

/-- Matches of one node in a row. It ends at the upper bound, at a failure, and at a match that
consumes nothing once there are enough. -/
def repetition (call : NodeId → Nat → Walk Step) (node : NodeId) (min : Nat) (max : Option Nat) :
    Nat → Array Token → Nat → Walk (Array Token × Nat)
  | 0, tokens, cursor => return (tokens, cursor)
  | budget + 1, tokens, cursor =>
    if max.any (· ≤ tokens.size) then return (tokens, cursor)
    else do
      match ← call node cursor with
      | .matched token stop =>
        let tokens := tokens.push token
        if stop = cursor ∧ min ≤ tokens.size then return (tokens, stop)
        else repetition call node min max budget tokens stop
      | .failed _ => return (tokens, cursor)

/-- Separators and elements in turn, after a first element. A separator without an element behind it
is not consumed. -/
def separated (call : NodeId → Nat → Walk Step) (node separator : NodeId) :
    Nat → Array Token → Nat → Walk (Array Token × Nat)
  | 0, tokens, cursor => return (tokens, cursor)
  | budget + 1, tokens, cursor => do
    match ← call separator cursor with
    | .failed _ => return (tokens, cursor)
    | .matched _ afterSeparator =>
      match ← call node afterSeparator with
      | .failed _ => return (tokens, cursor)
      | .matched token stop =>
        let tokens := tokens.push token
        if stop = cursor then return (tokens, cursor)
        else separated call node separator budget tokens stop

/-- Exactly as many matches of one node as given. -/
def counted (call : NodeId → Nat → Walk Step) (node : NodeId) :
    Nat → Array Token → Nat → Walk (Except Failure (Array Token × Nat))
  | 0, tokens, cursor => return .ok (tokens, cursor)
  | count + 1, tokens, cursor => do
    match ← call node cursor with
    | .matched token stop => counted call node count (tokens.push token) stop
    | .failed failure => return .error failure

/-! ## Repetitions and counts -/

def repeated (call : NodeId → Nat → Walk Step) (input : Array UInt8) (node : NodeId) (min : Nat)
    (max : Option Nat) (pos : Nat) : Walk Step := do
  -- every round but the last moves on or counts towards the least number
  let budget := Nat.max min 1 + (input.size - pos) + 1
  let (tokens, cursor) ← repetition call node min max budget #[] pos
  if tokens.size < min then fail (.repetitionUnsatisfied min tokens.size) cursor
  else return .matched (.seq tokens.toList) cursor

def sepBy (call : NodeId → Nat → Walk Step) (input : Array UInt8) (node separator : NodeId)
    (min pos : Nat) : Walk Step := do
  match ← call node pos with
  | .failed _ =>
    if min = 0 then return .matched (.seq []) pos
    else fail (.repetitionUnsatisfied min 0) pos
  | .matched token stop =>
    let budget := input.size - stop + 2
    let (tokens, cursor) ← separated call node separator budget #[token] stop
    return .matched (.seq tokens.toList) cursor

/-- A count, then that many elements. Raw bytes are taken at once. -/
def lengthValue (call : NodeId → Nat → Walk Step) (input : Array UInt8) (length : NodeId)
    (element : Element) (pos : Nat) : Walk Step := do
  match ← call length pos with
  | .failed failure => return .failed failure
  | .matched countToken start =>
    match countToken.count? with
    | none => throw (.located (.invalidLength countToken.shape) start)
    | some declared =>
      match element with
      | .byte =>
        let remaining := input.size - start
        if declared.toNat ≤ remaining then
          return .matched (.bytes (slice input start declared.toNat)) (start + declared.toNat)
        else fail (.declaredLengthExceedsInput declared remaining) start
      | .node node =>
        match ← counted call node declared.toNat #[] start with
        | .ok (tokens, cursor) => return .matched (.seq tokens.toList) cursor
        | .error failure => return .failed failure

end Packrat.Walk
