import Packrat.Proofs.Walk.Congruence

/-!
# The walk with its arithmetic checked

A walk takes slices of the input and subtracts positions, and on natural numbers
and lists these operations always have a result. Where the positions made no
sense it would be a wrong one. The walk here is the same walk with a check in
front of every slice and of every subtraction: where a check fails it gives up
with a fatal error, as checked arithmetic would.

Only four kinds of nodes compute with positions or widths beyond comparing them:
signed integers, blanks, the end of the input, and payloads behind their length.
So these are written again, and all the others are shared with the plain walk.
-/

namespace Packrat.Walk.Guarded

open Walk

/-! ## Checked operations -/

/-- Gives up unless the condition holds. -/
def demand (c : Prop) [Decidable c] : Walk Unit :=
  if c then return () else throw (.plain (.internal "out of range"))

/-- A difference, which must not be negative. -/
def minus (a b : Nat) : Walk Nat := do
  demand (b ≤ a)
  return a - b

/-- The bytes from `start` up to `stop`, which must lie in the input. -/
def cut (input : Array UInt8) (start stop : Nat) : Walk (List UInt8) := do
  demand (start ≤ stop ∧ stop ≤ input.size)
  return slice input start (stop - start)

/-! ## The nodes that compute -/

/-- A big-endian two's-complement integer. A word is shifted by less than its width. -/
def signed (input : Array UInt8) (width pos : Nat) : Walk Step :=
  if pos + width ≤ input.size then do
    let shift ← minus 64 (8 * width)
    demand (shift < 64)
    let word := bigEndian (slice input pos width)
    let number := (word <<< UInt64.ofNat shift).toInt64 >>> Int64.ofNat shift
    return .matched (.sint number) (pos + width)
  else fail .inputExhausted input.size

/-- Blanks, and then a node. -/
def whitespace (call : NodeId → Nat → Walk Step) (input : Array UInt8) (inner : NodeId)
    (pos : Nat) : Walk Step := do
  let rest ← cut input pos input.size
  call inner (pos + (rest.takeWhile Text.isBlankByte).length)

def endOfInput (input : Array UInt8) (pos : Nat) : Walk Step :=
  if pos = input.size then return .matched .none pos
  else do
    let remaining ← minus input.size pos
    fail (.trailingInput remaining) pos

/-- As many bytes as were declared. -/
def payload (input : Array UInt8) (declared : UInt64) (start : Nat) : Walk Step := do
  let remaining ← minus input.size start
  if declared.toNat ≤ remaining then do
    let bytes ← cut input start (start + declared.toNat)
    return .matched (.bytes bytes) (start + declared.toNat)
  else fail (.declaredLengthExceedsInput declared remaining) start

/-- A count, and then that many bytes. -/
def lengthBytes (call : NodeId → Nat → Walk Step) (input : Array UInt8) (length : NodeId)
    (pos : Nat) : Walk Step := do
  match ← call length pos with
  | .failed failure => return .failed failure
  | .matched countToken start =>
    match countToken.count? with
    | none => throw (.located (.invalidLength countToken.shape) start)
    | some declared => payload input declared start

/-! ## The walk -/

/-- The answer of one node, with its arithmetic checked. -/
def answer (task : Task) (call : NodeId → Nat → Walk Step) (id : NodeId) (pos : Nat) :
    Walk Step :=
  match task.grammar.node? id with
  | some (.signed width) => signed task.input width pos
  | some (.whitespace inner) => whitespace call task.input inner pos
  | some .endOfInput => endOfInput task.input pos
  | some (.lengthValue length .byte) => lengthBytes call task.input length pos
  | _ => Walk.answer task call id pos

/-- Tries a node as the plain walk does, with the arithmetic of every node checked. -/
def invoke (task : Task) : (allowance depth : Nat) → NodeId → Nat → Walk Step
  | 0, _, _, pos => throw (.located (.recursionLimit task.config.maxDepth) pos)
  | allowance + 1, depth, id, pos => do
    emit (.enter id pos depth)
    let work := answer task (invoke task allowance (depth + 1)) id pos
    let step ← if task.config.memoize then remembered id pos depth work else work
    emit (leaving id pos depth step)
    return step

/-- The walk from a node over the whole input. What is left over is checked as well. -/
def run (task : Task) (start : NodeId) : Walk Step := do
  match ← invoke task task.config.maxDepth 1 start 0 with
  | .matched token stop =>
    let _ ← minus task.input.size stop
    return .matched token stop
  | .failed failure => return .failed failure

/-! ## Where the checks pass

With a position in the input and a width that fits a word, a checked node is the
plain one. A payload is checked where its length ended, so it needs that position
in the input, which a node that answered only leaves inside. -/

section Passing

variable {input : Array UInt8} {pos : Nat}

theorem demand_of {c : Prop} [Decidable c] (h : c) : demand c = pure () := if_pos h

theorem minus_of_le {a b : Nat} (h : b ≤ a) : minus a b = pure (a - b) := by
  rw [minus, demand_of h, pure_bind]

theorem cut_of_le {start stop : Nat} (h : start ≤ stop ∧ stop ≤ input.size) :
    cut input start stop = pure (slice input start (stop - start)) := by
  rw [cut, demand_of h, pure_bind]

theorem signed_eq {width : Nat} (h : width = 1 ∨ width = 2 ∨ width = 4 ∨ width = 8) :
    signed input width pos = integer input width true pos := by
  unfold signed integer
  rw [minus_of_le (by omega), pure_bind, demand_of (by omega), pure_bind]
  rfl

theorem whitespace_eq {call : NodeId → Nat → Walk Step} {inner : NodeId}
    (hpos : pos ≤ input.size) :
    whitespace call input inner pos = call inner (pos + blanks input pos) := by
  rw [whitespace, cut_of_le ⟨hpos, Nat.le_refl _⟩, pure_bind]
  rfl

theorem endOfInput_eq (hpos : pos ≤ input.size) :
    endOfInput input pos = if pos = input.size then return .matched .none pos
      else fail (.trailingInput (input.size - pos)) pos := by
  rw [endOfInput, minus_of_le hpos, pure_bind]

theorem payload_eq {declared : UInt64} {start : Nat} (hstart : start ≤ input.size) :
    payload input declared start =
      if declared.toNat ≤ input.size - start then
        return .matched (.bytes (slice input start declared.toNat)) (start + declared.toNat)
      else fail (.declaredLengthExceedsInput declared (input.size - start)) start := by
  rw [payload, minus_of_le hstart, pure_bind]
  split
  · next hfits =>
      rw [cut_of_le ⟨Nat.le_add_right start _, by omega⟩, pure_bind, Nat.add_sub_cancel_left]
  · rfl

end Passing

end Packrat.Walk.Guarded
