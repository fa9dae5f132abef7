import Packrat.Text.Escape
import Packrat.Token.Basic

/-!
# Errors

One type names every cause of failure, from a byte that did not match to a handle read too late. A
cause is a value; its wording stands in one function.

Causes fall in two groups. An ordinary failure is an answer about the input, and a parser may try
something else. A fatal one is misuse of the library, and ends a parse at once.
-/

namespace Packrat

/-- Why something failed. -/
inductive Error.Kind where
  | inputExhausted
  | literalMismatch (expected found : UInt8)
  | rangeMismatch (low high found : UInt8)
  | setMismatch (found : UInt8)
  /-- The input left a byte string at `offset`. -/
  | bytesMismatch (offset : Nat)
  | allAlternativesFailed
  | repetitionUnsatisfied (min matched : Nat)
  | actionRejected (action : String)
  /-- A length asked for more bytes than there are. -/
  | declaredLengthExceedsInput (declared : UInt64) (remaining : Nat)
  | trailingInput (remaining : Nat)
  | lookaheadFailed
  /-- A node that never matches was reached. -/
  | noMatch
  /-- A token had not the shape that its reader needs. -/
  | unexpectedToken (expected : String) (found : Token.Shape)
  | unboundIndirection (node : Nat)
  | indirectionAlreadyBound (node : Nat)
  /-- Something else than a placeholder was to be bound. -/
  | notAnIndirection (node : Nat)
  | foreignNode (node : Nat)
  /-- A length node produced a token that is no count. -/
  | invalidLength (actual : Token.Shape)
  | invalidGrammar (reason : String)
  | recursionLimit (limit : Nat)
  | resultReleased
  | emptyResult
  | io (reason : String)
  /-- A value could not be written to or read from a format. -/
  | serialization (reason : String)
  /-- The library contradicted itself. -/
  | internal (reason : String)
  deriving DecidableEq

namespace Error.Kind

/-- Whether the cause is misuse, which ends a parse at once. -/
def isFatal : Kind → Bool
  | unboundIndirection _ | indirectionAlreadyBound _ | notAnIndirection _ | foreignNode _
  | invalidLength _ | invalidGrammar _ | recursionLimit _ | internal _ => true
  | _ => false

/-- The name of the cause for machines. -/
def name : Kind → String
  | inputExhausted => "input-exhausted"
  | literalMismatch .. => "literal-mismatch"
  | rangeMismatch .. => "range-mismatch"
  | setMismatch .. => "set-mismatch"
  | bytesMismatch .. => "bytes-mismatch"
  | allAlternativesFailed => "all-alternatives-failed"
  | repetitionUnsatisfied .. => "repetition-unsatisfied"
  | actionRejected .. => "action-rejected"
  | declaredLengthExceedsInput .. => "declared-length-exceeds-input"
  | trailingInput .. => "trailing-input"
  | lookaheadFailed => "lookahead-failed"
  | noMatch => "no-match"
  | unexpectedToken .. => "unexpected-token"
  | unboundIndirection .. => "unbound-indirection"
  | indirectionAlreadyBound .. => "indirection-already-bound"
  | notAnIndirection .. => "not-an-indirection"
  | foreignNode .. => "foreign-node"
  | invalidLength .. => "invalid-length"
  | invalidGrammar .. => "invalid-grammar"
  | recursionLimit .. => "recursion-limit"
  | resultReleased => "result-released"
  | emptyResult => "empty-result"
  | io .. => "io"
  | serialization .. => "serialization"
  | internal .. => "internal"

def message : Kind → String
  | inputExhausted => "input exhausted"
  | literalMismatch expected found =>
    "literal mismatch: expected " ++ Text.quoteByte expected ++ ", found " ++ Text.quoteByte found
  | rangeMismatch low high found =>
    "range mismatch: expected " ++ Text.quoteByte low ++ "..=" ++ Text.quoteByte high
      ++ ", found " ++ Text.quoteByte found
  | setMismatch found => "set mismatch: found " ++ Text.quoteByte found
  | bytesMismatch offset => "byte string mismatch at offset " ++ toString offset ++ " of literal"
  | allAlternativesFailed => "all alternatives failed"
  | repetitionUnsatisfied min matched =>
    "repetition unsatisfied: needed at least " ++ toString min ++ ", matched " ++ toString matched
  | actionRejected action => "action rejected: " ++ action
  | declaredLengthExceedsInput declared remaining =>
    "declared length " ++ toString declared.toNat ++ " exceeds remaining input "
      ++ toString remaining
  | trailingInput remaining => "trailing input: " ++ toString remaining ++ " unconsumed bytes"
  | lookaheadFailed => "lookahead failed"
  | noMatch => "no match"
  | unexpectedToken expected found =>
    "unexpected token: expected " ++ expected ++ ", found " ++ found.name
  | unboundIndirection node => "unbound indirection: node #" ++ toString node
  | indirectionAlreadyBound node => "indirection already bound: node #" ++ toString node
  | notAnIndirection node => "node #" ++ toString node ++ " is not an indirection"
  | foreignNode node => "foreign node: #" ++ toString node
  | invalidLength actual =>
    "invalid length token: expected unsigned integer, got " ++ actual.name
  | invalidGrammar reason => "invalid grammar: " ++ reason
  | recursionLimit limit => "recursion limit exceeded (" ++ toString limit ++ ")"
  | resultReleased => "parse result already released"
  | emptyResult => "empty parse result handle"
  | io reason => "io error: " ++ reason
  | serialization reason => "serialization error: " ++ reason
  | internal reason => "internal error: " ++ reason

end Error.Kind

/-- A cause, and the input position it was found at if there is one. -/
structure Error where
  kind : Error.Kind
  position : Option Nat
  deriving DecidableEq

namespace Error

def plain (kind : Kind) : Error := ⟨kind, none⟩

def located (kind : Kind) (position : Nat) : Error := ⟨kind, some position⟩

def moveTo (e : Error) (position : Nat) : Error := { e with position := some position }

def isFatal (e : Error) : Bool := e.kind.isFatal

/-- The error in words, with its position. -/
def message (e : Error) : String :=
  match e.position with
  | none => e.kind.message
  | some p => e.kind.message ++ " at byte " ++ toString p

end Error

end Packrat
