import Packrat.Walk.Compound

/-!
# The walk over a grammar

Here the knot is tied: the answer of a node is a function of how to try others, and trying a node
recurses on the number of levels still allowed. The depth is counted beside it, so a walk that stays
within its allowance does the same under any larger one.

With memory switched on, an answer is kept together with the furthest failure met while finding it,
so that giving it again tells the same story.
-/

namespace Packrat.Walk

/-! ## Any node -/

/-- The answer of one node, given how to try others. -/
def answer (task : Task) (call : NodeId → Nat → Walk Step) (id : NodeId) (pos : Nat) :
    Walk Step := do
  let input := task.input
  match task.grammar.node? id with
  | none => throw (.plain (.foreignNode id.index))
  | some node =>
    match node with
    | .literal expected =>
      oneByte input (fun found =>
        if found = expected then none else some (.literalMismatch expected found)) pos
    | .range low high =>
      oneByte input (fun found =>
        if low ≤ found ∧ found ≤ high then none else some (.rangeMismatch low high found)) pos
    | .set allowed =>
      oneByte input (fun found =>
        if allowed.contains found then none else some (.setMismatch found)) pos
    | .anyByte => oneByte input (fun _ => none) pos
    | .bytes expected => byteString input expected pos
    | .unsigned width => integer input width false pos
    | .signed width => integer input width true pos
    | .sequence nodes =>
      match ← members call nodes #[] pos with
      | .ok (tokens, stop) => return .matched (.seq tokens.toList) stop
      | .error failure => return .failed failure
    | .pick nodes keep =>
      match ← members call nodes #[] pos with
      | .ok (tokens, stop) => return .matched (tokens[keep]?.getD .none) stop
      | .error failure => return .failed failure
    | .choice alternatives => firstOf call pos alternatives
    | .optional inner =>
      match ← call inner pos with
      | .matched token stop => return .matched token stop
      | .failed _ => return .matched .none pos
    | .repeated inner min max => repeated call input inner min max pos
    | .sepBy inner separator min => sepBy call input inner separator min pos
    | .action inner action =>
      match ← call inner pos with
      | .matched token stop =>
        match action.apply token with
        | some result => return .matched result stop
        | none => fail (.actionRejected action.name) stop
      | .failed failure => return .failed failure
    | .lengthValue length element => lengthValue call input length element pos
    | .lookahead inner positive =>
      let held := match ← call inner pos with
        | .matched .. => true
        | .failed _ => false
      if held = positive then return .matched .none pos
      else fail .lookaheadFailed pos
    | .whitespace inner => call inner (pos + blanks input pos)
    | .endOfInput =>
      if pos = input.size then return .matched .none pos
      else fail (.trailingInput (input.size - pos)) pos
    | .epsilon => return .matched .none pos
    | .nothing => fail .noMatch pos
    | .indirect (some target) => call target pos
    | .indirect none => throw (.located (.unboundIndirection id.index) pos)

/-! ## Remembering -/

/-- The answer found by `work`, or the one remembered. While `work` runs, only its own failures
count; they are offered to the rest of the walk when the answer is first found and each time it is
given again. -/
def remembered (id : NodeId) (pos depth : Nat) (work : Walk Step) : Walk Step := do
  match (← get).memo[(id.index, pos)]? with
  | some (step, local?) =>
    emit (.memoHit id pos depth)
    local?.forM offer
    return step
  | none =>
    let outer := (← get).furthest
    modify fun s => { s with furthest := none }
    let step ← work
    let local? := (← get).furthest
    modify fun s => { s with furthest := outer }
    local?.forM offer
    modify fun s => { s with memo := s.memo.insert (id.index, pos) (step, local?) }
    return step

/-! ## The walk -/

/-- The event of leaving a node. -/
def leaving (id : NodeId) (pos depth : Nat) : Step → Event
  | .matched _ stop => .matched id pos stop depth
  | .failed failure => .failed id pos failure.kind failure.position depth

/-- Tries a node at a position with `allowance` levels left, its own included. -/
def invoke (task : Task) : (allowance depth : Nat) → NodeId → Nat → Walk Step
  | 0, _, _, pos => throw (.located (.recursionLimit task.config.maxDepth) pos)
  | allowance + 1, depth, id, pos => do
    emit (.enter id pos depth)
    let work := answer task (invoke task allowance (depth + 1)) id pos
    let step ← if task.config.memoize then remembered id pos depth work else work
    emit (leaving id pos depth step)
    return step

end Packrat.Walk
