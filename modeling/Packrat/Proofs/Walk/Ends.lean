import Packrat.Proofs.Semantics.Soundness

/-!
# How a parse can end

Fatal errors and failures never mix. A failure that a node yields is about the input,
and so is everything that is noted on the way or remembered; that is the invariant
`Ordinary`, kept by every walk. On the other side, a walk over a well-formed grammar
gives up over two things only: the depth limit, and a length that is none. So an
outcome is fatal exactly if the walk gave up, and then it is one of these two errors.
-/

namespace Packrat

/-- A step that is no misuse. -/
def Step.Ordinary : Step → Prop
  | .matched _ _ => True
  | .failed failure => failure.kind.isFatal = false

/-- The two errors that end a parse at once: a walk too deep, and a count that is
none. -/
def Error.CutsOff (maxDepth size : Nat) (e : Error) : Prop :=
  (∃ p ≤ size, e = .located (.recursionLimit maxDepth) p) ∨
    ∃ shape, ∃ p ≤ size, e = .located (.invalidLength shape) p

theorem Error.CutsOff.isFatal {maxDepth size : Nat} {e : Error} (h : e.CutsOff maxDepth size) :
    e.isFatal = true := by
  rcases h with ⟨p, _, rfl⟩ | ⟨shape, p, _, rfl⟩
  · rfl
  · rfl

/-! ## What nodes yield -/

/-- A reason that a node can have for failing. -/
def Error.Kind.OfNode : Error.Kind → Prop
  | .inputExhausted | .literalMismatch .. | .rangeMismatch .. | .setMismatch .. | .bytesMismatch ..
  | .allAlternativesFailed | .repetitionUnsatisfied .. | .actionRejected ..
  | .declaredLengthExceedsInput .. | .trailingInput .. | .lookaheadFailed | .noMatch => True
  | _ => False

theorem Error.Kind.OfNode.ordinary {kind : Error.Kind} (h : kind.OfNode) :
    kind.isFatal = false := by
  cases kind <;> first | rfl | exact h.elim

/-- A step that, if it is a failure, has such a reason. -/
def Step.OfNode : Step → Prop
  | .matched _ _ => True
  | .failed failure => failure.kind.OfNode

theorem Step.OfNode.ordinary {step : Step} (h : step.OfNode) : step.Ordinary := by
  cases step with
  | matched token stop => trivial
  | failed failure => exact Error.Kind.OfNode.ordinary h

namespace Semantics

variable {input : Array UInt8} {R : Judgement}

theorem Leaf.ofNode {node : Node} {pos : Nat} {step : Step} (h : Leaf input node pos step) :
    step.OfNode := by
  cases h <;> trivial

theorem MemberFails.ofNode (hR : ∀ {id p step}, R id p step → step.OfNode)
    {ids : List NodeId} {pos : Nat} {failure : Failure} (h : MemberFails R ids pos failure) :
    failure.kind.OfNode := by
  induction h with
  | here hstep => exact hR hstep
  | later _ _ ih => exact ih

theorem Rule.ofNode (hR : ∀ {id p step}, R id p step → step.OfNode) {node : Node}
    {pos : Nat} {step : Step} (h : Rule input R node pos step) : step.OfNode := by
  cases h with
  | leaf hleaf => exact hleaf.ofNode
  | sequence_fails hfails | pick_fails hfails => exact hfails.ofNode hR
  | length_node_fails _ _ hfails => exact hfails.ofNode hR
  | action_fails hstep | length_fails hstep | indirect hstep => exact hR hstep
  | whitespace _ hstep => exact hR hstep
  | _ => trivial

theorem Yields.ofNode {g : Grammar} {id : NodeId} {pos : Nat} {step : Step}
    (h : Yields g input id pos step) : step.OfNode := by
  induction h with
  | node _ _ hrule ih => exact hrule.ofNode fun hstep => ih _ _ _ hstep

end Semantics

/-! ## What a walk carries along -/

/-- No failure that is noted or remembered is misuse. -/
structure Progress.Ordinary (s : Progress) : Prop where
  furthest : ∀ failure ∈ s.furthest, failure.kind.isFatal = false
  memo : ∀ (index pos : Nat) (step : Step) (found : Option Failure),
    s.memo[(index, pos)]? = some (step, found) →
      ∀ failure ∈ found, failure.kind.isFatal = false

namespace Walk

theorem further_ordinary {current : Option Failure} {later : Failure}
    (hcurrent : ∀ failure ∈ current, failure.kind.isFatal = false)
    (hlater : later.kind.isFatal = false) :
    ∀ failure ∈ further current later, failure.kind.isFatal = false := by
  intro failure hmem
  cases current with
  | none =>
      cases hmem
      exact hlater
  | some old =>
      simp only [further] at hmem
      split at hmem
      · cases hmem
        exact hlater
      · exact hcurrent failure hmem

theorem join_ordinary {before found : Option Failure}
    (hbefore : ∀ failure ∈ before, failure.kind.isFatal = false)
    (hfound : ∀ failure ∈ found, failure.kind.isFatal = false) :
    ∀ failure ∈ join before found, failure.kind.isFatal = false := by
  cases found with
  | none => exact hbefore
  | some later => exact further_ordinary hbefore (hfound later rfl)

theorem ordinary_start : Progress.Ordinary ⟨none, ∅, #[]⟩ where
  furthest := nofun
  memo := by
    intro index pos step found h
    rw [Std.HashMap.getElem?_empty] at h
    cases h

/-- Keeping misuse out, and giving up only where a parse can be cut off. -/
def keepsOrdinary (maxDepth size : Nat) : Effect where
  answers s s' := s.Ordinary → s'.Ordinary
  aborts e _ _ := e.CutsOff maxDepth size

theorem keepsOrdinary_composes (maxDepth size : Nat) :
    (keepsOrdinary maxDepth size).Composes size where
  refl _ := id
  trans h h' := fun hs => h' (h hs)
  absorb _ h := h
  offer hkind _ := fun hs => { hs with furthest := further_ordinary hs.furthest hkind }
  invalidLength hpos := .inr ⟨_, _, hpos, rfl⟩

theorem visit_keepsOrdinary {I : Memory → Prop} {config : Config} {maxDepth size : Nat}
    {id : NodeId} {pos depth : Nat} {Q : Step → Prop} {work : Walk Step} {s : Progress}
    {r : EStateM.Result Error Progress Step}
    (hwork : Has I (keepsOrdinary maxDepth size) Q work) (hs : I s.memo)
    (h : Visited config id pos depth work s r) : (keepsOrdinary maxDepth size).Covers s r := by
  cases h with
  | plain _ hrun =>
      intro hordinary
      obtain ⟨hfurthest, hmemo⟩ := hwork.answers hrun hs ⟨hordinary.furthest, hordinary.memo⟩
      exact ⟨hfurthest, hmemo⟩
  | told _ hknown =>
      intro hordinary
      have hfound := hordinary.memo _ _ _ _ hknown
      exact ⟨join_ordinary hordinary.furthest hfound, hordinary.memo⟩
  | found _ _ hrun =>
      intro hordinary
      obtain ⟨hfurthest, hmemo⟩ := hwork.answers hrun hs ⟨nofun, hordinary.memo⟩
      refine ⟨join_ordinary hordinary.furthest hfurthest, ?_⟩
      intro index pos' step' found' hentry
      rw [Std.HashMap.getElem?_insert] at hentry
      split at hentry
      · cases hentry
        exact hfurthest
      · exact hmemo index pos' step' found' hentry
  | plainAborts _ hrun | foundAborts _ _ hrun =>
      have hcut := hwork.aborts hrun hs
      exact hcut

theorem invoke_keepsOrdinary {g : Grammar} {input : Array UInt8} {config : Config}
    (hg : g.WellFormed) {allowance : Nat} (depth : Nat) {id : NodeId} {pos : Nat}
    (hid : g.contains id = true) (hpos : pos ≤ input.size) :
    Has (Semantics.Yielded g input) (keepsOrdinary config.maxDepth input.size)
      (Step.Within pos input.size) (invoke ⟨g, input, config⟩ allowance depth id pos) :=
  Semantics.invoke_has hg (E := fun _ _ => keepsOrdinary config.maxDepth input.size)
    (fun _ _ => keepsOrdinary_composes _ _) (fun _ _ _ hp => .inl ⟨_, hp, rfl⟩)
    (fun _ _ _ _ _ _ _ _ hwork hs h => visit_keepsOrdinary hwork hs h) depth hid hpos

end Walk

/-! ## Outcomes -/

namespace Parser

variable {p : Parser} {start : NodeId} {input : List UInt8} {s : Progress}

/-- A walk that gives up cuts the parse off. -/
theorem cutsOff_of_walk (hg : p.grammar.WellFormed) (hstart : p.grammar.contains start = true)
    {e : Error} (h : p.walk start input = .error e s) :
    e.CutsOff p.config.maxDepth input.length := by
  have hrun : Walk.invoke ⟨p.grammar, input.toArray, p.config⟩ p.config.maxDepth 1 start 0
      ⟨none, ∅, #[]⟩ = .error e s := h
  exact (Walk.invoke_keepsOrdinary hg 1 hstart (Nat.zero_le _)).aborts hrun
    Semantics.yielded_empty

/-- A walk that answers ends in no fatal error. -/
theorem ordinary_of_walk (hg : p.grammar.WellFormed) (hstart : p.grammar.contains start = true)
    {step : Step} (h : p.walk start input = .ok step s) {task : Task} {e : Error}
    (he : conclude task (.ok step s) = .error e) : e.isFatal = false := by
  have hrun : Walk.invoke ⟨p.grammar, input.toArray, p.config⟩ p.config.maxDepth 1 start 0
      ⟨none, ∅, #[]⟩ = .ok step s := h
  cases step with
  | matched token stop =>
      simp only [conclude] at he
      split at he
      · cases he
        rfl
      · cases he
  | failed own =>
      cases he
      cases hfurthest : s.furthest with
      | none =>
          obtain ⟨hown, _⟩ := Semantics.invoke_yields hg hstart (Nat.zero_le _)
            Semantics.yielded_empty hrun
          exact hown.ofNode.ordinary
      | some failure =>
          have hs : s.Ordinary :=
            (Walk.invoke_keepsOrdinary hg 1 hstart (Nat.zero_le _)).answers hrun
              Semantics.yielded_empty Walk.ordinary_start
          exact hs.furthest failure hfurthest

/-- The only fatal errors of a parse are those that cut it off. -/
theorem cutsOff_of_fatal (hg : p.grammar.WellFormed) (hstart : p.grammar.contains start = true)
    {e : Error} (h : p.runFrom start input = .error e) (hfatal : e.isFatal = true) :
    e.CutsOff p.config.maxDepth input.length := by
  rw [runFrom_of_contains hstart] at h
  cases hwalk : p.walk start input with
  | error e' s =>
      rw [hwalk] at h
      cases h
      exact cutsOff_of_walk hg hstart hwalk
  | ok step s =>
      rw [hwalk] at h
      rw [ordinary_of_walk hg hstart hwalk h] at hfatal
      cases hfatal

end Parser

end Packrat
