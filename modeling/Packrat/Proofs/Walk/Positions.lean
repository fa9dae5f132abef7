import Packrat.Proofs.Walk.Guarded
import Packrat.Proofs.Walk.Memory

/-!
# Positions stay inside the input

A node is tried inside the input, and wherever it leaves the walk, by a match, a
failure or a fatal error, that is inside the input as well and not before the
place where it was tried. `Within` says so of steps, and here also of errors,
events, and all that a walk carries along. For the memory that is an invariant of
every entry, because an entry is given again as an answer.

`Stays` compares the walk with its arithmetic checked to the plain one. They do the
same and stay inside. Both come out of one induction, and they have to: a check
passes because of where the nodes before it ended. `Stays` is a congruence, so for
the nodes that the two walks share there is nothing left to show.
-/

namespace Packrat

/-! ## What is inside -/

/-- An error with a position in an input of `size` bytes. -/
def Error.Within (size : Nat) (e : Error) : Prop := ∃ p ≤ size, e.position = some p

/-- An outcome that speaks of an input of `size` bytes. -/
def Outcome.Within (size : Nat) : Outcome → Prop
  | .ok parsed => parsed.consumed ≤ size
  | .error e => e.Within size

/-- An event inside an input of `size` bytes. -/
def Event.Within (size : Nat) : Event → Prop
  | .start _ length => length = size
  | .enter _ pos _ => pos ≤ size
  | .matched _ pos stop _ => pos ≤ stop ∧ stop ≤ size
  | .failed _ pos _ position _ => pos ≤ position ∧ position ≤ size
  | .memoHit _ pos _ => pos ≤ size
  | .aborted e => e.Within size
  | .finish outcome => Outcome.Within size outcome

/-- What a walk carries along speaks of an input of `size` bytes. -/
structure Progress.Within (size : Nat) (s : Progress) : Prop where
  furthest : ∀ failure ∈ s.furthest, failure.position ≤ size
  memo : ∀ (index pos : Nat) (step : Step) (found : Option Failure),
    s.memo[(index, pos)]? = some (step, found) →
      step.Within pos size ∧ ∀ failure ∈ found, failure.position ≤ size
  events : ∀ event ∈ s.events, event.Within size

namespace Walk

/-- The end of a walk over `size` bytes, with `Q` of its answer. -/
def EndsWithin (size : Nat) {α : Type} (Q : α → Prop) : EStateM.Result Error Progress α → Prop
  | .ok a s => Q a ∧ s.Within size
  | .error e s => e.Within size ∧ s.Within size

/-- Both walks do the same, and neither leaves the input. -/
def Stays (size : Nat) {α : Type} (Q : α → Prop) (x y : Walk α) : Prop :=
  ∀ s : Progress, s.Within size → x s = y s ∧ EndsWithin size Q (y s)

section Progress

variable {size : Nat} {s s' : Progress}

theorem further_le {current : Option Failure} {later : Failure}
    (hcurrent : ∀ failure ∈ current, failure.position ≤ size) (hlater : later.position ≤ size) :
    ∀ failure ∈ further current later, failure.position ≤ size := by
  intro failure hmem
  cases current with
  | none =>
      simp only [further, Option.mem_def, Option.some.injEq] at hmem
      rw [← hmem]
      exact hlater
  | some first =>
      simp only [further] at hmem
      split at hmem
      · rw [← Option.some.inj hmem]
        exact hlater
      · exact hcurrent failure hmem

theorem join_le {before found : Option Failure}
    (hbefore : ∀ failure ∈ before, failure.position ≤ size)
    (hfound : ∀ failure ∈ found, failure.position ≤ size) :
    ∀ failure ∈ join before found, failure.position ≤ size := by
  cases found with
  | none => exact hbefore
  | some failure => exact further_le hbefore (hfound failure rfl)

theorem within_start : Progress.Within size ⟨none, ∅, #[]⟩ where
  furthest := nofun
  memo := by
    intro index pos step found h
    rw [Std.HashMap.getElem?_empty] at h
    cases h
  events := fun event hmem => absurd hmem (Array.not_mem_empty event)

theorem within_push (h : s.Within size) {event : Event} (hevent : event.Within size) :
    Progress.Within size { s with events := s.events.push event } :=
  { h with
    events := by
      intro e he
      rcases Array.mem_push.mp he with hmem | rfl
      · exact h.events e hmem
      · exact hevent }

theorem within_insert (h : s.Within size) {index pos : Nat} {step : Step}
    {found : Option Failure} (hstep : step.Within pos size)
    (hfound : ∀ failure ∈ found, failure.position ≤ size) :
    Progress.Within size { s with memo := s.memo.insert (index, pos) (step, found) } :=
  { h with
    memo := by
      intro index' pos' step' found' hentry
      rw [Std.HashMap.getElem?_insert] at hentry
      split at hentry
      · next hkey =>
          rw [beq_iff_eq] at hkey
          injection hkey with hindex hpos
          injection hentry with hentry
          injection hentry with hstep' hfound'
          rw [← hpos, ← hstep', ← hfound']
          exact ⟨hstep, hfound⟩
      · exact h.memo index' pos' step' found' hentry }

end Progress

/-! ## Staying inside is a congruence -/

section Congruence

variable {size : Nat}

theorem Stays.pure {α : Type} {Q : α → Prop} {a : α} (ha : Q a) :
    Stays size Q (Pure.pure a) (Pure.pure a) :=
  fun _ hs => ⟨rfl, ha, hs⟩

theorem Stays.throw {α : Type} {Q : α → Prop} {e : Error} (he : e.Within size) :
    Stays size Q (throw e) (throw e) :=
  fun _ hs => ⟨rfl, he, hs⟩

theorem Stays.emit {event : Event} (hevent : event.Within size) :
    Stays size (fun _ => True) (Walk.emit event) (Walk.emit event) :=
  fun _ hs => ⟨rfl, trivial, within_push hs hevent⟩

theorem Stays.bind {α β : Type} {P : α → Prop} {Q : β → Prop} {x y : Walk α}
    {f g : α → Walk β} (hxy : Stays size P x y) (hfg : ∀ a, P a → Stays size Q (f a) (g a)) :
    Stays size Q (x >>= f) (y >>= g) := by
  intro s hs
  obtain ⟨hsame, hends⟩ := hxy s hs
  cases hrun : y s with
  | ok a s' =>
      rw [hrun] at hsame hends
      rw [bind_of_ok hsame, bind_of_ok hrun]
      exact hfg a hends.1 s' hends.2
  | error e s' =>
      rw [hrun] at hsame hends
      rw [bind_of_error hsame, bind_of_error hrun]
      exact ⟨rfl, hends⟩

theorem stays_congruence (size : Nat) : Congruence size (Stays size) where
  pure := Stays.pure
  bind := Stays.bind
  offer _ hpos := fun _ hs => ⟨rfl, trivial, { hs with furthest := further_le hs.furthest hpos }⟩
  invalidLength hpos := Stays.throw ⟨_, hpos, rfl⟩

end Congruence

/-! ## Checked nodes stay inside -/

section Nodes

variable {g : Grammar} {input : Array UInt8} {config : Config}
  {call₁ call₂ : NodeId → Nat → Walk Step} {id : NodeId} {pos : Nat}

theorem lengthBytes_stays {length : NodeId} (hpos : pos ≤ input.size)
    (htry : Congruence.Tries (Stays input.size) input.size call₁ call₂ [length] pos) :
    Stays input.size (Step.Within pos input.size) (Guarded.lengthBytes call₁ input length pos)
      (Walk.lengthValue call₂ input length .byte pos) := by
  unfold Guarded.lengthBytes Walk.lengthValue
  refine Stays.bind (htry length List.mem_cons_self pos (Nat.le_refl pos) hpos) ?_
  intro step hstep
  cases step with
  | failed failure => exact Stays.pure hstep
  | matched countToken start =>
      simp only []
      cases countToken.count? with
      | none => exact Stays.throw ⟨start, hstep.2, rfl⟩
      | some declared =>
          have hlo := hstep.1
          have hhi := hstep.2
          simp only [Guarded.payload_eq hhi]
          split
          · exact Stays.pure ⟨by omega, by omega⟩
          · exact (stays_congruence input.size).fail rfl hlo hhi

/-- Two ways of trying a node's children that stay inside give answers of the node
that do, with its arithmetic checked on one side. -/
theorem answer_stays {node : Node} (hnode : g.node? id = some node)
    (hbound : node ≠ .indirect none)
    (hwidth : ∀ width, node = .signed width → width = 1 ∨ width = 2 ∨ width = 4 ∨ width = 8)
    (hpos : pos ≤ input.size)
    (htry : Congruence.Tries (Stays input.size) input.size call₁ call₂ node.children pos) :
    Stays input.size (Step.Within pos input.size)
      (Guarded.answer ⟨g, input, config⟩ call₁ id pos)
      (Walk.answer ⟨g, input, config⟩ call₂ id pos) := by
  have hshared : Stays input.size (Step.Within pos input.size)
      (Walk.answer ⟨g, input, config⟩ call₁ id pos)
      (Walk.answer ⟨g, input, config⟩ call₂ id pos) :=
    (stays_congruence input.size).answer hnode hbound hpos htry
  cases node with
  | signed width =>
      simp only [Guarded.answer, hnode, Guarded.signed_eq (hwidth width rfl)]
      simpa only [Walk.answer, hnode] using hshared
  | whitespace inner =>
      simp only [Guarded.answer, hnode, Guarded.whitespace_eq hpos]
      simpa only [Walk.answer, hnode] using hshared
  | endOfInput =>
      simp only [Guarded.answer, hnode, Guarded.endOfInput_eq hpos]
      simpa only [Walk.answer, hnode] using hshared
  | lengthValue length element =>
      cases element with
      | byte =>
          simp only [Guarded.answer, Walk.answer, hnode]
          exact lengthBytes_stays hpos htry
      | node inner =>
          simp only [Guarded.answer, hnode]
          exact hshared
  | _ =>
      simp only [Guarded.answer, hnode]
      exact hshared

/-- An answer that is remembered stays inside because the memory does. -/
theorem remembered_stays {size depth : Nat} {work₁ work₂ : Walk Step}
    (hpos : pos ≤ size) (hwork : Stays size (Step.Within pos size) work₁ work₂) :
    Stays size (Step.Within pos size) (remembered id pos depth work₁)
      (remembered id pos depth work₂) := by
  intro s hs
  cases hentry : s.memo[(id.index, pos)]? with
  | some entry =>
      obtain ⟨step, found⟩ := entry
      obtain ⟨hstep, hfound⟩ := hs.memo id.index pos step found hentry
      have htold : Progress.Within size { s with furthest := join s.furthest found } :=
        { hs with furthest := join_le hs.furthest hfound }
      rw [remembered_hit hentry, remembered_hit hentry]
      exact ⟨rfl, hstep, within_push htold hpos⟩
  | none =>
      obtain ⟨hsame, hends⟩ := hwork { s with furthest := none } { hs with furthest := nofun }
      cases hrun : work₂ { s with furthest := none } with
      | ok step s' =>
          rw [hrun] at hsame hends
          obtain ⟨hstep, hs'⟩ := hends
          have htold : Progress.Within size
              { s' with furthest := join s.furthest s'.furthest } :=
            { hs' with furthest := join_le hs.furthest hs'.furthest }
          rw [remembered_miss hentry hsame, remembered_miss hentry hrun]
          exact ⟨rfl, hstep, within_insert htold hstep hs'.furthest⟩
      | error e s' =>
          rw [hrun] at hsame hends
          rw [remembered_miss_error hentry hsame, remembered_miss_error hentry hrun]
          exact ⟨rfl, hends⟩

end Nodes

/-! ## Walks stay inside -/

theorem leaving_within {id : NodeId} {pos depth size : Nat} {step : Step}
    (h : step.Within pos size) : (leaving id pos depth step).Within size := by
  cases step with
  | matched token stop => exact h
  | failed failure => exact h

/-- A walk from inside the input stays there, and every check of its arithmetic
passes. -/
theorem invoke_stays {g : Grammar} {input : Array UInt8} {config : Config} (hg : g.WellFormed)
    (hwidth : ∀ width, Node.signed width ∈ g.nodes →
      width = 1 ∨ width = 2 ∨ width = 4 ∨ width = 8) :
    ∀ {allowance : Nat} (depth : Nat) {id : NodeId} {pos : Nat},
      g.contains id = true → pos ≤ input.size →
      Stays input.size (Step.Within pos input.size)
        (Guarded.invoke ⟨g, input, config⟩ allowance depth id pos)
        (invoke ⟨g, input, config⟩ allowance depth id pos) := by
  intro allowance
  induction allowance with
  | zero => intro depth id pos _ hpos; exact Stays.throw ⟨pos, hpos, rfl⟩
  | succ allowance ih =>
      intro depth id pos hid hpos
      obtain ⟨node, hnode⟩ := Grammar.exists_node_of_contains hid
      have hmem := Grammar.mem_of_node?_eq_some hnode
      have htry : Congruence.Tries (Stays input.size) input.size
          (Guarded.invoke ⟨g, input, config⟩ allowance (depth + 1))
          (invoke ⟨g, input, config⟩ allowance (depth + 1)) node.children pos :=
        fun child hchild p _ hp => ih _ (hg.children_mem node hmem child hchild) hp
      have hanswer : Stays input.size (Step.Within pos input.size)
          (Guarded.answer ⟨g, input, config⟩
            (Guarded.invoke ⟨g, input, config⟩ allowance (depth + 1)) id pos)
          (answer ⟨g, input, config⟩ (invoke ⟨g, input, config⟩ allowance (depth + 1)) id pos) :=
        answer_stays hnode (fun heq => hg.bound (heq ▸ hmem))
          (fun width heq => hwidth width (heq ▸ hmem)) hpos htry
      have hleave : ∀ step : Step, step.Within pos input.size →
          Stays input.size (Step.Within pos input.size)
            (do emit (leaving id pos depth step); return step)
            (do emit (leaving id pos depth step); return step) :=
        fun step hstep =>
          Stays.bind (Stays.emit (leaving_within hstep)) fun _ _ => Stays.pure hstep
      rw [Guarded.invoke, invoke]
      refine Stays.bind (Stays.emit hpos) fun _ _ => ?_
      refine Congruence.ite ?_ ?_
      · exact Stays.bind (remembered_stays hpos hanswer) hleave
      · exact Stays.bind hanswer hleave

/-- So does the walk of a whole parse. -/
theorem run_stays {g : Grammar} {input : Array UInt8} {config : Config} (hg : g.WellFormed)
    (hwidth : ∀ width, Node.signed width ∈ g.nodes →
      width = 1 ∨ width = 2 ∨ width = 4 ∨ width = 8)
    {start : NodeId} (hstart : g.contains start = true) :
    Stays input.size (Step.Within 0 input.size) (Guarded.run ⟨g, input, config⟩ start)
      (invoke ⟨g, input, config⟩ config.maxDepth 1 start 0) := by
  rw [← bind_pure (invoke ⟨g, input, config⟩ config.maxDepth 1 start 0)]
  refine Stays.bind (invoke_stays hg hwidth 1 hstart (Nat.zero_le _)) ?_
  intro step hstep
  cases step with
  | failed failure => exact Stays.pure hstep
  | matched token stop =>
      simp only [Guarded.minus_of_le hstep.2, pure_bind]
      exact Stays.pure hstep

end Walk

/-! ## Parses stay inside -/

namespace Parser

variable {p : Parser}

theorem conclude_within {task : Task} {result : EStateM.Result Error Progress Step}
    (h : Walk.EndsWithin task.input.size (Step.Within 0 task.input.size) result) :
    Outcome.Within task.input.size (conclude task result) := by
  cases result with
  | error e s => exact h.1
  | ok step s =>
      obtain ⟨hstep, hs⟩ := h
      cases step with
      | failed own =>
          refine ⟨_, ?_, rfl⟩
          cases hfurthest : s.furthest with
          | none => exact hstep.2
          | some failure => exact hs.furthest failure hfurthest
      | matched token stop =>
          simp only [conclude]
          split
          · exact ⟨stop, hstep.2, rfl⟩
          · exact hstep.2

theorem consumed_eq {task : Task} {result : EStateM.Result Error Progress Step} {parsed : Parsed}
    (h : Walk.EndsWithin task.input.size (Step.Within 0 task.input.size) result)
    (hfull : task.config.fullConsumption = true) (hok : conclude task result = .ok parsed) :
    parsed.consumed = task.input.size := by
  cases result with
  | error e s => cases hok
  | ok step s =>
      cases step with
      | failed own => cases hok
      | matched token stop =>
          have hle : stop ≤ task.input.size := h.1.2
          simp only [conclude] at hok
          split at hok
          · cases hok
          · next hwhole =>
              cases hok
              exact Nat.le_antisymm hle (Nat.le_of_not_lt fun hlt => hwhole ⟨hfull, hlt⟩)

theorem seen_within {size : Nat} {result : EStateM.Result Error Progress Step}
    (h : Walk.EndsWithin size (Step.Within 0 size) result) :
    ∀ event ∈ seen result, event.Within size := by
  cases result with
  | error e s => exact h.2.events
  | ok step s => exact h.2.events

theorem closing_within {size : Nat} {outcome : Outcome} (h : Outcome.Within size outcome) :
    ∀ event ∈ closing outcome, event.Within size := by
  intro event hevent
  cases outcome with
  | ok parsed =>
      rw [List.mem_singleton.mp hevent]
      exact h
  | error e =>
      simp only [closing] at hevent
      split at hevent
      · simp only [List.mem_cons, List.not_mem_nil, or_false] at hevent
        rcases hevent with rfl | rfl
        · exact h
        · exact h
      · rw [List.mem_singleton.mp hevent]
        exact h

/-- The outcome of a parse speaks of its input. -/
theorem runFrom_within (hg : p.grammar.WellFormed)
    (hwidth : ∀ width, Node.signed width ∈ p.grammar.nodes →
      width = 1 ∨ width = 2 ∨ width = 4 ∨ width = 8)
    {start : NodeId} (hstart : p.grammar.contains start = true) (input : List UInt8) :
    Outcome.Within input.length (p.runFrom start input) := by
  rw [runFrom_of_contains hstart]
  exact conclude_within (Walk.run_stays hg hwidth hstart _ Walk.within_start).2

/-- The walk from a node over the whole input, with its arithmetic checked. -/
def guardedWalk (p : Parser) (start : NodeId) (input : List UInt8) :
    EStateM.Result Error Progress Step :=
  Walk.Guarded.run ⟨p.grammar, input.toArray, p.config⟩ start ⟨none, ∅, #[]⟩

end Parser

/-- With a built grammar, no slice and no subtraction of a parse is out of range:
with a check in front of each the walk does the same. Every event of the parse
stays inside the input and does not go back, and so does its outcome; if all input
has to be used, a success has used all of it. -/
theorem parse_stays_inside {b : Builder} {root : NodeId} {g : Grammar}
    (hbuild : b.build root = .ok g) (config : Config) {start : NodeId}
    (hstart : g.contains start = true) (input : List UInt8) :
    Parser.guardedWalk ⟨g, config⟩ start input = Parser.walk ⟨g, config⟩ start input ∧
    (∀ event ∈ (Parser.watch ⟨g, config⟩ start input).2, event.Within input.length) ∧
    Outcome.Within input.length (Parser.runFrom ⟨g, config⟩ start input) ∧
    (config.fullConsumption = true → ∀ parsed,
      Parser.runFrom ⟨g, config⟩ start input = .ok parsed → parsed.consumed = input.length) := by
  have hstays : Walk.Stays input.toArray.size (Step.Within 0 input.toArray.size)
      (Walk.Guarded.run ⟨g, input.toArray, config⟩ start)
      (Walk.invoke ⟨g, input.toArray, config⟩ config.maxDepth 1 start 0) :=
    Walk.run_stays (Builder.wellFormed_of_build hbuild)
      (fun width hmem => Builder.signed_width_of_build hbuild hmem) hstart
  obtain ⟨hsame, hends⟩ := hstays _ Walk.within_start
  rw [Parser.runFrom_of_contains hstart, Parser.watch_of_contains hstart]
  have houtcome : Outcome.Within input.length
      (Parser.conclude ⟨g, input.toArray, config⟩ (Parser.walk ⟨g, config⟩ start input)) :=
    Parser.conclude_within hends
  refine ⟨hsame, ?_, houtcome, fun hfull parsed hok => Parser.consumed_eq hends hfull hok⟩
  intro event hevent
  rcases List.mem_cons.mp hevent with rfl | hevent
  · exact rfl
  · rcases List.mem_append.mp hevent with hseen | hclosing
    · exact Parser.seen_within hends event (Array.mem_toList_iff.mp hseen)
    · exact Parser.closing_within houtcome event hclosing

/-- A payload behind its length, a signed integer, and blanks before the end. -/
def frame : NodeId × Builder :=
  Id.run <| StateT.run (do
    let length ← Builder.unsigned 1
    let payload ← Builder.lengthValue length .byte
    let number ← Builder.signed 2
    let stop ← Builder.endOfInput
    let blanks ← Builder.whitespace stop
    Builder.sequence [payload, number, blanks]) (Builder.new 0)

def frameGrammar : Grammar := ⟨frame.2.arena, frame.2.nodes, frame.2.names, frame.1⟩

/-- A payload of one byte, the integer -2 and a blank, with answers remembered. -/
theorem parse_stays_inside_frame :
    frame.2.build frame.1 = .ok frameGrammar ∧
    frameGrammar.contains frame.1 = true ∧
    Parser.guardedWalk ⟨frameGrammar, true, 8, true⟩ frame.1 [0x01, 0x61, 0xff, 0xfe, 0x20] =
      Parser.walk ⟨frameGrammar, true, 8, true⟩ frame.1 [0x01, 0x61, 0xff, 0xfe, 0x20] ∧
    (∀ event ∈ (Parser.watch ⟨frameGrammar, true, 8, true⟩ frame.1
      [0x01, 0x61, 0xff, 0xfe, 0x20]).2, event.Within 5) ∧
    (∀ parsed, Parser.runFrom ⟨frameGrammar, true, 8, true⟩ frame.1
      [0x01, 0x61, 0xff, 0xfe, 0x20] = .ok parsed → parsed.consumed = 5) := by
  have hbuild : frame.2.build frame.1 = .ok frameGrammar := rfl
  have hstart : frameGrammar.contains frame.1 = true := rfl
  obtain ⟨hsame, hevents, _, hwhole⟩ :=
    parse_stays_inside hbuild ⟨true, 8, true⟩ hstart [0x01, 0x61, 0xff, 0xfe, 0x20]
  exact ⟨hbuild, hstart, hsame, hevents, hwhole rfl⟩

end Packrat
