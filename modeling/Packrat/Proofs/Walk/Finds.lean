import Packrat.Proofs.Walk.Outcome

/-!
# Answers together with the failures met

A failed parse tells the furthest failure of its walk, so to know what is told one has
to know what nodes meet besides what they answer. `Finds` says both of a node. Where
two stretches of a walk come after each other their failures are joined, and a failure
that is not in front of any before it is the one that is left (`join_later`).
-/

namespace Packrat.Walk

/-! ## Single bytes -/

section Bytes

variable {I : Memory → Prop} {input : Array UInt8} {check : UInt8 → Option Error.Kind} {pos : Nat}

theorem fail_answers (kind : Error.Kind) (pos : Nat) :
    Answers I (fail kind pos) (.failed ⟨kind, pos⟩) (some ⟨kind, pos⟩) :=
  fun _ hs => ⟨_, rfl, rfl, hs⟩

theorem oneByte_passes {b : UInt8} (hb : input[pos]? = some b) (hcheck : check b = none) :
    Answers I (oneByte input check pos) (.matched (.byte b) (pos + 1)) none := by
  simp only [oneByte, hb, hcheck]
  exact Answers.pure _

theorem oneByte_fails (h : ∀ b, input[pos]? = some b → ∃ kind, check b = some kind) :
    ∃ kind, Answers I (oneByte input check pos) (.failed ⟨kind, pos⟩) (some ⟨kind, pos⟩) := by
  cases hb : input[pos]? with
  | none =>
      refine ⟨.inputExhausted, ?_⟩
      simp only [oneByte, hb]
      exact fail_answers _ _
  | some b =>
      obtain ⟨kind, hkind⟩ := h b hb
      refine ⟨kind, ?_⟩
      simp only [oneByte, hb, hkind]
      exact fail_answers _ _

end Bytes

/-! ## Nodes -/

/-- A later failure is the one to tell, whatever was met before it. -/
theorem join_later {found : Option Failure} {failure : Failure}
    (h : ∀ before ∈ found, before.position ≤ failure.position) :
    join found (some failure) = some failure := by
  cases found with
  | none => rfl
  | some before => exact if_pos (h before rfl)

/-- Tried with `n` levels left, the node answers `step` and meets `found`. -/
def Finds (task : Task) (n : Nat) (id : NodeId) (pos : Nat) (step : Step)
    (found : Option Failure) : Prop :=
  ∀ depth, Answers Unread (invoke task n depth id pos) step found

section Finds

variable {task : Task} {n pos stop : Nat} {id inner : NodeId} {token : Token} {step : Step}
  {found : Option Failure}

theorem Finds.of_answer (hplain : task.config.memoize = false)
    (h : ∀ depth, Answers Unread (answer task (invoke task n depth) id pos) step found) :
    Finds task (n + 1) id pos step found := by
  intro depth
  simp only [invoke, hplain, Bool.false_eq_true, if_false]
  exact (h (depth + 1)).around _ _

/-! ### One byte -/

section OneByte

variable {check : UInt8 → Option Error.Kind}

theorem Finds.byte (hplain : task.config.memoize = false)
    (hnode : ∀ call, answer task call id pos = oneByte task.input check pos) {b : UInt8}
    (hb : task.input[pos]? = some b) (hcheck : check b = none) :
    Finds task (n + 1) id pos (.matched (.byte b) (pos + 1)) none := by
  refine .of_answer hplain fun depth => ?_
  rw [hnode]
  exact oneByte_passes hb hcheck

theorem Finds.no_byte (hplain : task.config.memoize = false)
    (hnode : ∀ call, answer task call id pos = oneByte task.input check pos)
    (h : ∀ b, task.input[pos]? = some b → ∃ kind, check b = some kind) :
    ∃ kind, Finds task (n + 1) id pos (.failed ⟨kind, pos⟩) (some ⟨kind, pos⟩) := by
  obtain ⟨kind, hkind⟩ := oneByte_fails (I := Unread) h
  refine ⟨kind, .of_answer hplain fun depth => ?_⟩
  rw [hnode]
  exact hkind

end OneByte

/-! ### Actions and pairs -/

section Action

variable {action : Action}

theorem Finds.of_action (hplain : task.config.memoize = false)
    (hnode : task.grammar.node? id = some (.action inner action)) {result : Token}
    (h : Finds task n inner pos (.matched token stop) found)
    (hresult : action.apply token = some result) :
    Finds task (n + 1) id pos (.matched result stop) found := by
  refine .of_answer hplain fun depth => ?_
  simp only [answer, hnode]
  rw [← join_none found]
  refine (h depth).bind ?_
  simp only [hresult]
  exact Answers.pure _

/-- The refusal is told, since nothing was met behind the match. -/
theorem Finds.of_action_rejected (hplain : task.config.memoize = false)
    (hnode : task.grammar.node? id = some (.action inner action))
    (h : Finds task n inner pos (.matched token stop) found)
    (hresult : action.apply token = none)
    (hfound : ∀ before ∈ found, before.position ≤ stop) :
    Finds task (n + 1) id pos (.failed ⟨.actionRejected action.name, stop⟩)
      (some ⟨.actionRejected action.name, stop⟩) := by
  refine .of_answer hplain fun depth => ?_
  simp only [answer, hnode]
  rw [← join_later hfound]
  refine (h depth).bind ?_
  simp only [hresult]
  exact fail_answers _ _

theorem Finds.of_action_failed (hplain : task.config.memoize = false)
    (hnode : task.grammar.node? id = some (.action inner action)) {failure : Failure}
    (h : Finds task n inner pos (.failed failure) found) :
    Finds task (n + 1) id pos (.failed failure) found := by
  refine .of_answer hplain fun depth => ?_
  simp only [answer, hnode]
  rw [← join_none found]
  exact (h depth).bind (Answers.pure _)

end Action

section Pair

variable {first second : NodeId} {mid : Nat} {a : Token} {found' : Option Failure}

/-- What a pair makes of its second member's step. -/
def behind (a : Token) : Step → Step
  | .matched b stop => .matched (.seq [a, b]) stop
  | .failed failure => .failed failure

theorem Finds.pair (hplain : task.config.memoize = false)
    (hnode : task.grammar.node? id = some (.sequence [first, second]))
    (ha : Finds task n first pos (.matched a mid) found)
    (hb : Finds task n second mid step found') :
    Finds task (n + 1) id pos (behind a step) (join found found') := by
  refine .of_answer hplain fun depth => ?_
  simp only [answer, hnode, members, bind_assoc]
  refine (ha depth).bind ?_
  simp only [bind_assoc]
  rw [← join_none found']
  refine (hb depth).bind ?_
  cases step with
  | matched b stop => exact Answers.pure _
  | failed failure => exact Answers.pure _

end Pair

end Finds

end Packrat.Walk
