import Mathlib.Algebra.BigOperators.Fin
import Packrat.Walk.Terminal

/-!
# What grammars mean

The meaning of a grammar is told here without a walk: no state, no order of
trying, no budget, only which node yields which step at which position. There is
a rule for each way in which a node of each kind can match or fail, and a node
yields a step if a derivation made of these rules says so.

The rules of one node speak of what other nodes yield, so they take that as a
parameter, and a compound node's rule goes through a small relation on lists: the
members of a sequence one after another, the alternatives of a choice at one
place, the rounds of a repetition.

`Yields` is the relation the rules generate. `YieldsWithin` counts the levels of
the derivation: it is what is left of the meaning if nodes may only be nested so
deep.
-/

namespace Packrat.Semantics

/-- What each node yields at each position. -/
abbrev Judgement := NodeId → Nat → Step → Prop

/-! ## Nodes that look at the input -/

/-- From `pos` up to `stop` and no further there are blanks. -/
structure BlankRun (input : Array UInt8) (pos stop : Nat) : Prop where
  le : pos ≤ stop
  blank : ∀ i, pos ≤ i → i < stop → ∃ b, input[i]? = some b ∧ Text.isBlankByte b = true
  ends : ∀ b, input[stop]? = some b → Text.isBlankByte b = false

/-- The input goes on at `pos` with the first `count` bytes of `expected`. -/
def Agrees (input : Array UInt8) (expected : List UInt8) (pos count : Nat) : Prop :=
  ∀ i < count, input[pos + i]? = expected[i]?

/-- The number that bytes of the input spell, the most significant first. -/
def spelled (input : Array UInt8) (pos width : Nat) (h : pos + width ≤ input.size) : Nat :=
  ∑ i : Fin width, input[pos + i].toNat * 256 ^ (width - 1 - i)

/-- The integer that a number of `width` bytes is in two's complement. -/
def twosComplement (width n : Nat) : Int :=
  if 2 * n < 256 ^ width then n else n - 256 ^ width

/-- The rules of the leaves. -/
inductive Leaf (input : Array UInt8) : Node → Nat → Step → Prop where
  | literal {b pos} : input[pos]? = some b →
      Leaf input (.literal b) pos (.matched (.byte b) (pos + 1))
  | literal_mismatch {b found pos} : input[pos]? = some found → found ≠ b →
      Leaf input (.literal b) pos (.failed ⟨.literalMismatch b found, pos⟩)
  | literal_exhausted {b pos} : input.size ≤ pos →
      Leaf input (.literal b) pos (.failed ⟨.inputExhausted, pos⟩)
  | range {low high b pos} : input[pos]? = some b → low ≤ b → b ≤ high →
      Leaf input (.range low high) pos (.matched (.byte b) (pos + 1))
  | range_mismatch {low high found pos} : input[pos]? = some found →
      found < low ∨ high < found →
      Leaf input (.range low high) pos (.failed ⟨.rangeMismatch low high found, pos⟩)
  | range_exhausted {low high pos} : input.size ≤ pos →
      Leaf input (.range low high) pos (.failed ⟨.inputExhausted, pos⟩)
  | set {members b pos} : input[pos]? = some b → members.contains b = true →
      Leaf input (.set members) pos (.matched (.byte b) (pos + 1))
  | set_mismatch {members found pos} : input[pos]? = some found →
      members.contains found = false →
      Leaf input (.set members) pos (.failed ⟨.setMismatch found, pos⟩)
  | set_exhausted {members pos} : input.size ≤ pos →
      Leaf input (.set members) pos (.failed ⟨.inputExhausted, pos⟩)
  | anyByte {b pos} : input[pos]? = some b →
      Leaf input .anyByte pos (.matched (.byte b) (pos + 1))
  | anyByte_exhausted {pos} : input.size ≤ pos →
      Leaf input .anyByte pos (.failed ⟨.inputExhausted, pos⟩)
  | bytes {expected pos} : Agrees input expected pos expected.length →
      Leaf input (.bytes expected) pos (.matched (.bytes expected) (pos + expected.length))
  | bytes_mismatch {expected i found pos} : i < expected.length → Agrees input expected pos i →
      input[pos + i]? = some found → expected[i]? ≠ some found →
      Leaf input (.bytes expected) pos (.failed ⟨.bytesMismatch i, pos + i⟩)
  | bytes_exhausted {expected i pos} : i < expected.length → Agrees input expected pos i →
      input.size ≤ pos + i →
      Leaf input (.bytes expected) pos (.failed ⟨.inputExhausted, pos + i⟩)
  | unsigned {width pos} (hfits : pos + width ≤ input.size) :
      Leaf input (.unsigned width) pos
        (.matched (.uint (.ofNat (spelled input pos width hfits))) (pos + width))
  | unsigned_exhausted {width pos} : input.size < pos + width →
      Leaf input (.unsigned width) pos (.failed ⟨.inputExhausted, input.size⟩)
  | signed {width pos} (hfits : pos + width ≤ input.size) :
      Leaf input (.signed width) pos
        (.matched (.sint (.ofInt (twosComplement width (spelled input pos width hfits))))
          (pos + width))
  | signed_exhausted {width pos} : input.size < pos + width →
      Leaf input (.signed width) pos (.failed ⟨.inputExhausted, input.size⟩)
  | endOfInput : Leaf input .endOfInput input.size (.matched .none input.size)
  | endOfInput_trailing {pos} : pos ≠ input.size →
      Leaf input .endOfInput pos (.failed ⟨.trailingInput (input.size - pos), pos⟩)
  | epsilon {pos} : Leaf input .epsilon pos (.matched .none pos)
  | nothing {pos} : Leaf input .nothing pos (.failed ⟨.noMatch, pos⟩)

/-! ## Members, alternatives, rounds -/

section Lists

variable (R : Judgement)

/-- All nodes match, each where the one before stopped. -/
inductive Members : List NodeId → Nat → List Token → Nat → Prop where
  | nil {pos} : Members [] pos [] pos
  | cons {id ids pos token next tokens stop} : R id pos (.matched token next) →
      Members ids next tokens stop → Members (id :: ids) pos (token :: tokens) stop

/-- One of the nodes fails where those before it stopped. -/
inductive MemberFails : List NodeId → Nat → Failure → Prop where
  | here {id ids pos failure} : R id pos (.failed failure) →
      MemberFails (id :: ids) pos failure
  | later {id ids pos token next failure} : R id pos (.matched token next) →
      MemberFails ids next failure → MemberFails (id :: ids) pos failure

/-- One of the nodes matches at `pos`, and those before it fail there. -/
inductive FirstMatches : List NodeId → Nat → Token → Nat → Prop where
  | here {id ids pos token stop} : R id pos (.matched token stop) →
      FirstMatches (id :: ids) pos token stop
  | later {id ids pos failure token stop} : R id pos (.failed failure) →
      FirstMatches ids pos token stop → FirstMatches (id :: ids) pos token stop

/-- All nodes fail at `pos`. -/
inductive AllFail : List NodeId → Nat → Prop where
  | nil {pos} : AllFail [] pos
  | cons {id ids pos failure} : R id pos (.failed failure) → AllFail ids pos →
      AllFail (id :: ids) pos

/-- The rounds of a repetition that has `count` matches already. -/
inductive Rounds (id : NodeId) (min : Nat) (max : Option Nat) :
    Nat → Nat → List Token → Nat → Prop where
  /-- The upper bound is reached. -/
  | full {count pos m} : max = some m → m ≤ count → Rounds id min max count pos [] pos
  | fails {count pos failure} : (∀ m, max = some m → count < m) →
      R id pos (.failed failure) → Rounds id min max count pos [] pos
  /-- There are enough, and the last one consumed nothing. -/
  | stalls {count pos token} : (∀ m, max = some m → count < m) →
      R id pos (.matched token pos) → min ≤ count + 1 →
      Rounds id min max count pos [token] pos
  | round {count pos token next tokens stop} : (∀ m, max = some m → count < m) →
      R id pos (.matched token next) → next ≠ pos ∨ count + 1 < min →
      Rounds id min max (count + 1) next tokens stop →
      Rounds id min max count pos (token :: tokens) stop

/-- Separators and elements after an element that stopped at the position. -/
inductive Pairs (id separator : NodeId) : Nat → List Token → Nat → Prop where
  | noSeparator {pos failure} : R separator pos (.failed failure) →
      Pairs id separator pos [] pos
  | noElement {pos skipped next failure} : R separator pos (.matched skipped next) →
      R id next (.failed failure) → Pairs id separator pos [] pos
  /-- The pair consumed nothing. -/
  | stalls {pos skipped next token} : R separator pos (.matched skipped next) →
      R id next (.matched token pos) → Pairs id separator pos [token] pos
  | pair {pos skipped next token after tokens stop} : R separator pos (.matched skipped next) →
      R id next (.matched token after) → after ≠ pos → Pairs id separator after tokens stop →
      Pairs id separator pos (token :: tokens) stop

end Lists

/-! ## Any node -/

/-- The rules of one node, given what others yield. -/
inductive Rule (input : Array UInt8) (R : Judgement) : Node → Nat → Step → Prop where
  | leaf {node pos step} : Leaf input node pos step → Rule input R node pos step
  | sequence {nodes pos tokens stop} : Members R nodes pos tokens stop →
      Rule input R (.sequence nodes) pos (.matched (.seq tokens) stop)
  | sequence_fails {nodes pos failure} : MemberFails R nodes pos failure →
      Rule input R (.sequence nodes) pos (.failed failure)
  | pick {nodes keep pos tokens stop token} : Members R nodes pos tokens stop →
      tokens[keep]? = some token → Rule input R (.pick nodes keep) pos (.matched token stop)
  | pick_fails {nodes keep pos failure} : MemberFails R nodes pos failure →
      Rule input R (.pick nodes keep) pos (.failed failure)
  | choice {nodes pos token stop} : FirstMatches R nodes pos token stop →
      Rule input R (.choice nodes) pos (.matched token stop)
  | choice_fails {nodes pos} : AllFail R nodes pos →
      Rule input R (.choice nodes) pos (.failed ⟨.allAlternativesFailed, pos⟩)
  | optional {inner pos token stop} : R inner pos (.matched token stop) →
      Rule input R (.optional inner) pos (.matched token stop)
  | optional_none {inner pos failure} : R inner pos (.failed failure) →
      Rule input R (.optional inner) pos (.matched .none pos)
  | repeated {inner min max pos tokens stop} : Rounds R inner min max 0 pos tokens stop →
      min ≤ tokens.length →
      Rule input R (.repeated inner min max) pos (.matched (.seq tokens) stop)
  | repeated_fails {inner min max pos tokens stop} : Rounds R inner min max 0 pos tokens stop →
      tokens.length < min →
      Rule input R (.repeated inner min max) pos
        (.failed ⟨.repetitionUnsatisfied min tokens.length, stop⟩)
  | sepBy {inner separator min pos token next tokens stop} : R inner pos (.matched token next) →
      Pairs R inner separator next tokens stop →
      Rule input R (.sepBy inner separator min) pos (.matched (.seq (token :: tokens)) stop)
  | sepBy_none {inner separator pos failure} : R inner pos (.failed failure) →
      Rule input R (.sepBy inner separator 0) pos (.matched (.seq []) pos)
  | sepBy_fails {inner separator min pos failure} : R inner pos (.failed failure) → 0 < min →
      Rule input R (.sepBy inner separator min) pos
        (.failed ⟨.repetitionUnsatisfied min 0, pos⟩)
  | action {inner action pos token stop result} : R inner pos (.matched token stop) →
      action.apply token = some result →
      Rule input R (.action inner action) pos (.matched result stop)
  | action_rejects {inner action pos token stop} : R inner pos (.matched token stop) →
      action.apply token = none →
      Rule input R (.action inner action) pos (.failed ⟨.actionRejected action.name, stop⟩)
  | action_fails {inner action pos failure} : R inner pos (.failed failure) →
      Rule input R (.action inner action) pos (.failed failure)
  | length_fails {length element pos failure} : R length pos (.failed failure) →
      Rule input R (.lengthValue length element) pos (.failed failure)
  | length_bytes {length pos token start count} : R length pos (.matched token start) →
      token.count? = some count → start + count.toNat ≤ input.size →
      Rule input R (.lengthValue length .byte) pos
        (.matched (.bytes (Walk.slice input start count.toNat)) (start + count.toNat))
  | length_exceeds {length pos token start count} : R length pos (.matched token start) →
      token.count? = some count → input.size < start + count.toNat →
      Rule input R (.lengthValue length .byte) pos
        (.failed ⟨.declaredLengthExceedsInput count (input.size - start), start⟩)
  | length_nodes {length node pos token start count tokens stop} :
      R length pos (.matched token start) → token.count? = some count →
      Members R (List.replicate count.toNat node) start tokens stop →
      Rule input R (.lengthValue length (.node node)) pos (.matched (.seq tokens) stop)
  | length_node_fails {length node pos token start count failure} :
      R length pos (.matched token start) → token.count? = some count →
      MemberFails R (List.replicate count.toNat node) start failure →
      Rule input R (.lengthValue length (.node node)) pos (.failed failure)
  | followed {inner pos token stop} : R inner pos (.matched token stop) →
      Rule input R (.lookahead inner true) pos (.matched .none pos)
  | followed_fails {inner pos failure} : R inner pos (.failed failure) →
      Rule input R (.lookahead inner true) pos (.failed ⟨.lookaheadFailed, pos⟩)
  | notFollowed {inner pos failure} : R inner pos (.failed failure) →
      Rule input R (.lookahead inner false) pos (.matched .none pos)
  | notFollowed_fails {inner pos token stop} : R inner pos (.matched token stop) →
      Rule input R (.lookahead inner false) pos (.failed ⟨.lookaheadFailed, pos⟩)
  | whitespace {inner pos start step} : BlankRun input pos start → R inner start step →
      Rule input R (.whitespace inner) pos step
  | indirect {target pos step} : R target pos step →
      Rule input R (.indirect (some target)) pos step

/-- What nodes yield: what follows by a rule from premises that are yielded. -/
inductive Yields (g : Grammar) (input : Array UInt8) : NodeId → Nat → Step → Prop where
  | node {premises : Judgement} {id node pos step} :
      (∀ i p s, premises i p s → Yields g input i p s) → g.node? id = some node →
      Rule input premises node pos step → Yields g input id pos step

/-- What nodes yield by derivations of at most `levels` levels. -/
def YieldsWithin (g : Grammar) (input : Array UInt8) : Nat → Judgement
  | 0 => fun _ _ _ => False
  | levels + 1 => fun id pos step =>
    ∃ node, g.node? id = some node ∧ Rule input (YieldsWithin g input levels) node pos step

end Packrat.Semantics
