import Packrat.Proofs.Walk.Effects
import Packrat.Proofs.Walk.Positions

/-!
# The budgets of the loops are never used up

A repetition of the walk runs on a budget, and where that is used up it answers with
what it has. So it answers in any case, and this alone does not tell whether the loop
ends by itself. The walk here has the same loops with nothing to fall back on: a loop
whose budget is used up gives up with a fatal error. Beside the budget it gets any
number of turns to spare. It does the same as the plain walk, whatever there is to
spare, so each loop has ended by itself before its budget has.

What a turn costs is measured by the tokens that are missing and the input that is
left. A turn after which the loop goes on makes this less, since it has moved on or
there were not enough tokens. That needs the stop of an element not to be before its
start, and elements are arbitrary nodes, loops among them; so it comes out of the same
induction over the walk.
-/

namespace Packrat.Walk.Metered

open Walk

/-! ## Loops turn by turn -/

/-- How one turn of a loop ends. -/
inductive Turn where
  /-- It was the last one. -/
  | last (tokens : Array Token) (cursor : Nat)
  /-- There is another turn. -/
  | again (tokens : Array Token) (cursor : Nat)

def Turn.proceed (next : Array Token → Nat → Walk (Array Token × Nat)) :
    Turn → Walk (Array Token × Nat)
  | .last tokens cursor => return (tokens, cursor)
  | .again tokens cursor => next tokens cursor

/-- One turn after the other until the loop is over, or gives up. -/
def loop (turn : Array Token → Nat → Walk Turn) :
    Nat → Array Token → Nat → Walk (Array Token × Nat)
  | 0, _, _ => throw (.plain (.internal "budget used up"))
  | budget + 1, tokens, cursor => do
    let ended ← turn tokens cursor
    ended.proceed (loop turn budget)

/-- One element of a repetition. -/
def round (call : NodeId → Nat → Walk Step) (node : NodeId) (min : Nat) (max : Option Nat)
    (tokens : Array Token) (cursor : Nat) : Walk Turn :=
  if max.any (· ≤ tokens.size) then return .last tokens cursor
  else do
    match ← call node cursor with
    | .matched token stop =>
      let tokens := tokens.push token
      if stop = cursor ∧ min ≤ tokens.size then return .last tokens stop
      else return .again tokens stop
    | .failed _ => return .last tokens cursor

/-- One separator and the element behind it. -/
def pair (call : NodeId → Nat → Walk Step) (node separator : NodeId) (tokens : Array Token)
    (cursor : Nat) : Walk Turn := do
  match ← call separator cursor with
  | .failed _ => return .last tokens cursor
  | .matched _ afterSeparator =>
    match ← call node afterSeparator with
    | .failed _ => return .last tokens cursor
    | .matched token stop =>
      let tokens := tokens.push token
      if stop = cursor then return .last tokens cursor
      else return .again tokens stop

/-! ## The walk -/

def repeated (spare : Nat) (call : NodeId → Nat → Walk Step) (input : Array UInt8)
    (node : NodeId) (min : Nat) (max : Option Nat) (pos : Nat) : Walk Step := do
  let budget := Nat.max min 1 + (input.size - pos) + 1 + spare
  let (tokens, cursor) ← loop (round call node min max) budget #[] pos
  if tokens.size < min then fail (.repetitionUnsatisfied min tokens.size) cursor
  else return .matched (.seq tokens.toList) cursor

def sepBy (spare : Nat) (call : NodeId → Nat → Walk Step) (input : Array UInt8)
    (node separator : NodeId) (min pos : Nat) : Walk Step := do
  match ← call node pos with
  | .failed _ =>
    if min = 0 then return .matched (.seq []) pos
    else fail (.repetitionUnsatisfied min 0) pos
  | .matched token stop =>
    let budget := input.size - stop + 2 + spare
    let (tokens, cursor) ← loop (pair call node separator) budget #[token] stop
    return .matched (.seq tokens.toList) cursor

/-- The answer of one node. Only the loops differ from those of the plain walk. -/
def answer (task : Task) (spare : Nat) (call : NodeId → Nat → Walk Step) (id : NodeId)
    (pos : Nat) : Walk Step :=
  match task.grammar.node? id with
  | some (.repeated inner min max) => repeated spare call task.input inner min max pos
  | some (.sepBy inner separator min) => sepBy spare call task.input inner separator min pos
  | _ => Walk.answer task call id pos

/-- Tries a node as the plain walk does. -/
def invoke (task : Task) (spare : Nat) : (allowance depth : Nat) → NodeId → Nat → Walk Step
  | 0, _, _, pos => throw (.located (.recursionLimit task.config.maxDepth) pos)
  | allowance + 1, depth, id, pos =>
    visit task.config id pos depth
      (answer task spare (invoke task spare allowance (depth + 1)) id pos)

/-! ## The plain loops have the same turns -/

theorem repetition_succ {call : NodeId → Nat → Walk Step} {node : NodeId} {min : Nat}
    {max : Option Nat} (budget : Nat) (tokens : Array Token) (cursor : Nat) :
    Walk.repetition call node min max (budget + 1) tokens cursor =
      round call node min max tokens cursor >>=
        Turn.proceed (Walk.repetition call node min max budget) := by
  rw [Walk.repetition, round]
  split
  · rfl
  · rw [bind_assoc]
    refine bind_congr fun step => ?_
    cases step with
    | failed failure => rfl
    | matched token stop =>
        simp only []
        split
        · rfl
        · rfl

theorem separated_succ {call : NodeId → Nat → Walk Step} {node separator : NodeId}
    (budget : Nat) (tokens : Array Token) (cursor : Nat) :
    Walk.separated call node separator (budget + 1) tokens cursor =
      pair call node separator tokens cursor >>=
        Turn.proceed (Walk.separated call node separator budget) := by
  rw [Walk.separated, pair, bind_assoc]
  refine bind_congr fun step => ?_
  cases step with
  | failed failure => rfl
  | matched skipped afterSeparator =>
      simp only []
      rw [bind_assoc]
      refine bind_congr fun step => ?_
      cases step with
      | failed failure => rfl
      | matched token stop =>
          simp only []
          split
          · rfl
          · rfl

/-! ## Turns cost something -/

/-- A turn ends inside the input, and if there is another one, this one has cost
something. -/
def Turn.Costs (measure : Array Token → Nat → Nat) (size : Nat) (tokens : Array Token)
    (cursor : Nat) : Turn → Prop
  | .last _ stop => cursor ≤ stop ∧ stop ≤ size
  | .again more stop => (cursor ≤ stop ∧ stop ≤ size) ∧ measure more stop < measure tokens cursor

/-- What a repetition may still cost: the tokens that are missing and the input left. -/
def dues (min size : Nat) (tokens : Array Token) (cursor : Nat) : Nat :=
  (min - tokens.size) + (size - cursor)

/-- What separators and elements may still cost: the input left. -/
def remaining (size : Nat) (_ : Array Token) (cursor : Nat) : Nat := size - cursor

section Turns

variable {size start : Nat} {call₁ call₂ : NodeId → Nat → Walk Step} {node separator : NodeId}
  {min : Nat} {max : Option Nat} {tokens : Array Token} {cursor : Nat}

/-- A loop whose turns cost something ends on any budget that covers the measure. -/
theorem loop_stays {turn₁ turn₂ : Array Token → Nat → Walk Turn}
    {plain : Nat → Array Token → Nat → Walk (Array Token × Nat)}
    {measure : Array Token → Nat → Nat}
    (hplain : ∀ budget tokens cursor,
      plain (budget + 1) tokens cursor = turn₂ tokens cursor >>= Turn.proceed (plain budget))
    (hturn : ∀ tokens cursor, start ≤ cursor → cursor ≤ size →
      Stays size (Turn.Costs measure size tokens cursor) (turn₁ tokens cursor)
        (turn₂ tokens cursor)) :
    ∀ {budget₁ budget₂ : Nat} {tokens : Array Token} {cursor : Nat}, start ≤ cursor →
      cursor ≤ size → measure tokens cursor < budget₁ → measure tokens cursor < budget₂ →
      Stays size (fun run => start ≤ run.2 ∧ run.2 ≤ size) (loop turn₁ budget₁ tokens cursor)
        (plain budget₂ tokens cursor) := by
  intro budget₁
  induction budget₁ with
  | zero => intro budget₂ tokens cursor _ _ hbudget; omega
  | succ budget₁ ih =>
      intro budget₂ tokens cursor hlo hhi hbudget₁ hbudget₂
      obtain ⟨budget₂, rfl⟩ : ∃ budget, budget₂ = budget + 1 := ⟨budget₂ - 1, by omega⟩
      rw [loop, hplain]
      refine Stays.bind (hturn tokens cursor hlo hhi) fun ended hended => ?_
      cases ended with
      | last more stop => exact Stays.pure ⟨Nat.le_trans hlo hended.1, hended.2⟩
      | again more stop =>
          obtain ⟨⟨hle, hsize⟩, hless⟩ := hended
          exact ih (Nat.le_trans hlo hle) hsize (by omega) (by omega)

theorem round_stays (hlo : start ≤ cursor) (hhi : cursor ≤ size)
    (htry : Congruence.Tries (Stays size) size call₁ call₂ [node] start) :
    Stays size (Turn.Costs (dues min size) size tokens cursor)
      (round call₁ node min max tokens cursor) (round call₂ node min max tokens cursor) := by
  unfold round
  refine Congruence.ite (Stays.pure ⟨Nat.le_refl cursor, hhi⟩) ?_
  refine Stays.bind (htry node List.mem_cons_self cursor hlo hhi) fun step hstep => ?_
  cases step with
  | failed failure => exact Stays.pure ⟨Nat.le_refl cursor, hhi⟩
  | matched token stop =>
      simp only []
      split
      · exact Stays.pure hstep
      · next hgo =>
          obtain ⟨hle, hsize⟩ := hstep
          rw [Array.size_push] at hgo
          refine Stays.pure ⟨⟨hle, hsize⟩, ?_⟩
          rw [dues, dues, Array.size_push]
          omega

theorem pair_stays (hlo : start ≤ cursor) (hhi : cursor ≤ size)
    (htry : Congruence.Tries (Stays size) size call₁ call₂ [node, separator] start) :
    Stays size (Turn.Costs (remaining size) size tokens cursor)
      (pair call₁ node separator tokens cursor) (pair call₂ node separator tokens cursor) := by
  have hend : Turn.Costs (remaining size) size tokens cursor
      (.last tokens cursor) := ⟨Nat.le_refl cursor, hhi⟩
  unfold pair
  refine Stays.bind (htry separator (by simp) cursor hlo hhi) fun step hstep => ?_
  cases step with
  | failed failure => exact Stays.pure hend
  | matched skipped next =>
      obtain ⟨hnext, hnext'⟩ := hstep
      refine Stays.bind (htry node (by simp) next (Nat.le_trans hlo hnext) hnext')
        fun step hstep => ?_
      cases step with
      | failed failure => exact Stays.pure hend
      | matched token stop =>
          obtain ⟨hstop, hstop'⟩ := hstep
          simp only []
          split
          · exact Stays.pure ⟨Nat.le_refl cursor, hhi⟩
          · have hle := Nat.le_trans hnext hstop
            refine Stays.pure ⟨⟨hle, hstop'⟩, ?_⟩
            rw [remaining, remaining]
            omega

end Turns

/-! ## The walks do the same -/

section Nodes

variable {g : Grammar} {input : Array UInt8} {config : Config} {spare : Nat}
  {call₁ call₂ : NodeId → Nat → Walk Step} {id : NodeId} {pos : Nat}

theorem repeated_stays {node : NodeId} {min : Nat} {max : Option Nat} (hpos : pos ≤ input.size)
    (htry : Congruence.Tries (Stays input.size) input.size call₁ call₂ [node] pos) :
    Stays input.size (Step.Within pos input.size)
      (repeated spare call₁ input node min max pos)
      (Walk.repeated call₂ input node min max pos) := by
  have hmin : min ≤ Nat.max min 1 := Nat.le_max_left min 1
  have hdues : dues min input.size #[] pos = min + (input.size - pos) := rfl
  unfold repeated Walk.repeated
  refine Stays.bind (loop_stays repetition_succ
    (fun _ _ hlo hhi => round_stays hlo hhi htry) (Nat.le_refl pos) hpos ?_ ?_)
    fun run hrun => ?_
  · omega
  · omega
  · exact Congruence.ite ((stays_congruence input.size).fail rfl hrun.1 hrun.2)
      (Stays.pure hrun)

theorem sepBy_stays {node separator : NodeId} {min : Nat} (hpos : pos ≤ input.size)
    (htry : Congruence.Tries (Stays input.size) input.size call₁ call₂ [node, separator] pos) :
    Stays input.size (Step.Within pos input.size)
      (sepBy spare call₁ input node separator min pos)
      (Walk.sepBy call₂ input node separator min pos) := by
  unfold sepBy Walk.sepBy
  refine Stays.bind (htry node (by simp) pos (Nat.le_refl pos) hpos) fun step hstep => ?_
  cases step with
  | failed failure =>
      exact Congruence.ite (Stays.pure ⟨Nat.le_refl pos, hpos⟩)
        ((stays_congruence input.size).fail rfl (Nat.le_refl pos) hpos)
  | matched token stop =>
      have hremaining : remaining input.size #[token] stop = input.size - stop := rfl
      refine Stays.bind (loop_stays separated_succ
        (fun _ _ hlo hhi => pair_stays hlo hhi htry) hstep.1 hstep.2 ?_ ?_)
        fun run hrun => Stays.pure hrun
      · omega
      · omega

/-- Two ways of trying a node's children that do the same give answers of the node
that do. -/
theorem answer_stays {node : Node} (hnode : g.node? id = some node)
    (hbound : node ≠ .indirect none) (hpos : pos ≤ input.size)
    (htry : Congruence.Tries (Stays input.size) input.size call₁ call₂ node.children pos) :
    Stays input.size (Step.Within pos input.size) (answer ⟨g, input, config⟩ spare call₁ id pos)
      (Walk.answer ⟨g, input, config⟩ call₂ id pos) := by
  have hshared : Stays input.size (Step.Within pos input.size)
      (Walk.answer ⟨g, input, config⟩ call₁ id pos)
      (Walk.answer ⟨g, input, config⟩ call₂ id pos) :=
    (stays_congruence input.size).answer hnode hbound hpos htry
  cases node with
  | repeated inner min max =>
      simp only [answer, Walk.answer, hnode]
      exact repeated_stays hpos htry
  | sepBy inner separator min =>
      simp only [answer, Walk.answer, hnode]
      exact sepBy_stays hpos htry
  | _ =>
      simp only [answer, hnode]
      exact hshared

theorem visit_stays {depth size : Nat} {work₁ work₂ : Walk Step} (hpos : pos ≤ size)
    (hwork : Stays size (Step.Within pos size) work₁ work₂) :
    Stays size (Step.Within pos size) (visit config id pos depth work₁)
      (visit config id pos depth work₂) := by
  have hleave : ∀ step : Step, step.Within pos size →
      Stays size (Step.Within pos size) (do emit (leaving id pos depth step); return step)
        (do emit (leaving id pos depth step); return step) :=
    fun step hstep => Stays.bind (Stays.emit (leaving_within hstep)) fun _ _ => Stays.pure hstep
  unfold visit
  refine Stays.bind (Stays.emit hpos) fun _ _ => ?_
  refine Congruence.ite ?_ ?_
  · exact Stays.bind (remembered_stays hpos hwork) hleave
  · exact Stays.bind hwork hleave

/-- A walk from inside the input stays there, and the loops on the way end by
themselves. -/
theorem invoke_stays (hg : g.WellFormed) :
    ∀ {allowance : Nat} (depth : Nat) {id : NodeId} {pos : Nat}, g.contains id = true →
      pos ≤ input.size →
      Stays input.size (Step.Within pos input.size)
        (invoke ⟨g, input, config⟩ spare allowance depth id pos)
        (Walk.invoke ⟨g, input, config⟩ allowance depth id pos) := by
  intro allowance
  induction allowance with
  | zero => intro depth id pos _ hpos; exact Stays.throw ⟨pos, hpos, rfl⟩
  | succ allowance ih =>
      intro depth id pos hid hpos
      obtain ⟨node, hnode⟩ := Grammar.exists_node_of_contains hid
      have hmem := Grammar.mem_of_node?_eq_some hnode
      rw [invoke, invoke_eq_visit]
      refine visit_stays hpos (answer_stays hnode (fun heq => hg.bound (heq ▸ hmem)) hpos ?_)
      exact fun child hchild p _ hp => ih _ (hg.children_mem node hmem child hchild) hp

end Nodes

end Packrat.Walk.Metered

namespace Packrat.Parser

/-- The walk from a node over the whole input, with loops that have nothing to fall
back on and so many turns to spare. -/
def meteredWalk (p : Parser) (spare : Nat) (start : NodeId) (input : List UInt8) :
    EStateM.Result Error Progress Step :=
  Walk.Metered.invoke ⟨p.grammar, input.toArray, p.config⟩ spare p.config.maxDepth 1 start 0
    ⟨none, ∅, #[]⟩

/-- No loop of a parse uses up its budget. -/
theorem meteredWalk_eq {p : Parser} (hg : p.grammar.WellFormed) {start : NodeId}
    (hstart : p.grammar.contains start = true) (spare : Nat) (input : List UInt8) :
    p.meteredWalk spare start input = p.walk start input :=
  (Walk.Metered.invoke_stays hg 1 hstart (Nat.zero_le _) _ Walk.within_start).1

end Packrat.Parser
