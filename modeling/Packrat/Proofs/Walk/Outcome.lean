import Packrat.Parser
import Packrat.Proofs.Walk.Answers

/-!
# From a walk's answer to a parse's outcome

A parse starts with nothing remembered and no failure met, and turns the end of
its walk into an outcome. Once it is known what the walk answers, or over what it
gives up, the outcome is known: `verdict` writes it down.
-/

namespace Packrat

/-- The parse gave up at the depth limit. -/
def Outcome.ReachesLimit : Outcome → Prop
  | .error ⟨.recursionLimit _, _⟩ => True
  | _ => False

/-- The outcome of a walk that answers `step` and met `found`. -/
def Parser.verdict (p : Parser) (size : Nat) (step : Step) (found : Option Failure) : Outcome :=
  match step with
  | .matched token stop =>
    if p.config.fullConsumption ∧ stop < size then
      .error (.located (.trailingInput (size - stop)) stop)
    else .ok ⟨token, stop⟩
  | .failed own => .error (.located (found.getD own).kind (found.getD own).position)

namespace Parser

variable {p : Parser} {start : NodeId} {input : List UInt8} {I : Memory → Prop}

theorem verdict_whole {size : Nat} {token : Token} {found : Option Failure} :
    p.verdict size (.matched token size) found = .ok ⟨token, size⟩ :=
  if_neg fun h => Nat.lt_irrefl size h.2

theorem verdict_trailing {size stop : Nat} {token : Token} {found : Option Failure}
    (hfull : p.config.fullConsumption = true) (hstop : stop < size) :
    p.verdict size (.matched token stop) found =
      .error (.located (.trailingInput (size - stop)) stop) :=
  if_pos ⟨hfull, hstop⟩

/-- A start node of another grammar is refused, and nothing is seen of it. -/
theorem watch_of_not_contains (h : ¬ p.grammar.contains start = true) :
    p.watch start input = (.error (.plain (.foreignNode start.index)), []) := by
  have hnode : p.grammar.node start = .error (.plain (.foreignNode start.index)) := by
    rw [Grammar.node, Grammar.node?, if_neg h]
  rw [watch, hnode]

theorem runFrom_of_not_contains (h : ¬ p.grammar.contains start = true) :
    p.runFrom start input = .error (.plain (.foreignNode start.index)) := by
  rw [runFrom, watch_of_not_contains h]

theorem watch_of_contains (h : p.grammar.contains start = true) :
    p.watch start input
      = (conclude ⟨p.grammar, input.toArray, p.config⟩ (p.walk start input),
        .start start input.length :: ((seen (p.walk start input)).toList
          ++ closing (conclude ⟨p.grammar, input.toArray, p.config⟩ (p.walk start input)))) := by
  obtain ⟨node, hnode⟩ := Grammar.exists_node_of_contains h
  have hfound : p.grammar.node start = .ok node := by
    rw [Grammar.node, hnode]
  rw [watch, hfound]

theorem runFrom_of_contains (h : p.grammar.contains start = true) :
    p.runFrom start input
      = conclude ⟨p.grammar, input.toArray, p.config⟩ (p.walk start input) := by
  rw [runFrom, watch_of_contains h]

/-- A success comes from a walk that matched. -/
theorem walk_of_runFrom_ok {parsed : Parsed} (h : p.runFrom start input = .ok parsed) :
    p.grammar.contains start = true ∧
      ∃ s, p.walk start input = .ok (.matched parsed.token parsed.consumed) s := by
  by_cases hstart : p.grammar.contains start = true
  · refine ⟨hstart, ?_⟩
    rw [runFrom_of_contains hstart] at h
    cases hwalk : p.walk start input with
    | error e s => rw [hwalk] at h; cases h
    | ok step s =>
        rw [hwalk] at h
        cases step with
        | failed own => cases h
        | matched token stop =>
            simp only [conclude] at h
            split at h
            · cases h
            · cases h
              exact ⟨s, rfl⟩
  · rw [runFrom_of_not_contains hstart] at h
    cases h

theorem runFrom_of_answers (hstart : p.grammar.contains start = true) (hI : I ∅) {step : Step}
    {found : Option Failure}
    (h : Walk.Answers I (Walk.invoke ⟨p.grammar, input.toArray, p.config⟩ p.config.maxDepth 1
      start 0) step found) :
    p.runFrom start input = p.verdict input.length step found := by
  obtain ⟨s, hrun, hfurthest, _⟩ := h ⟨none, ∅, #[]⟩ hI
  rw [Walk.none_join] at hfurthest
  rw [runFrom_of_contains hstart, walk, hrun]
  cases step with
  | matched token stop => simp only [conclude, verdict, List.size_toArray]
  | failed own => simp only [conclude, verdict, hfurthest]

theorem runFrom_of_aborts (hstart : p.grammar.contains start = true) (hI : I ∅) {e : Error}
    (h : Walk.Aborts I (Walk.invoke ⟨p.grammar, input.toArray, p.config⟩ p.config.maxDepth 1
      start 0) e) :
    p.runFrom start input = .error e := by
  obtain ⟨s, hrun⟩ := h ⟨none, ∅, #[]⟩ hI
  rw [runFrom_of_contains hstart, walk, hrun]
  rfl

end Parser

end Packrat
