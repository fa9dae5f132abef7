import Mathlib.Data.List.Induction
import Packrat.Proofs.Walk.Outcome
import Packrat.Proofs.Walk.Triples

/-!
# Which failure a parse reports

A walk notes a failure where it is made, and an event tells of one for every node
that is left with it. So the events tell more: a sequence that hands on the failure
of a member has an event of its own, and notes nothing. Still the failure that got
furthest can be read off the events alone. It is the last one of those at the
greatest position.

The reason is that a failure that is handed on is told of again at once, before
anything else is noted, and being told of the same failure again makes no
difference (`further_further`). `Told` says that what is noted and what was told of
agree. It holds between nodes, and where it does not, one failure is due.
-/

namespace Packrat

/-! ## The failures that were told of -/

/-- The failure that an event tells of. -/
def Event.failure? : Event → Option Failure
  | .failed _ _ kind position _ => some ⟨kind, position⟩
  | _ => none

/-- The failures that events tell of, in order. -/
def failures (events : List Event) : List Failure := events.filterMap Event.failure?

/-- The last one of those failures that got furthest. -/
def LastFurthest (failures : List Failure) (failure : Failure) : Prop :=
  ∃ before after, failures = before ++ failure :: after ∧
    (∀ other ∈ before, other.position ≤ failure.position) ∧
    ∀ other ∈ after, other.position < failure.position

namespace Walk

/-- The failure to tell about after several. -/
def furthestOf (failures : List Failure) : Option Failure := failures.foldl further none

theorem furthestOf_append (failures : List Failure) (later : Failure) :
    furthestOf (failures ++ [later]) = further (furthestOf failures) later := by
  rw [furthestOf, List.foldl_append]
  rfl

theorem further_further (current : Option Failure) (later : Failure) :
    further (further current later) later = further current later := by
  cases current with
  | none => simp [further]
  | some failure =>
      by_cases hle : failure.position ≤ later.position
      · simp [further, hle]
      · simp [further, hle]

/-- Once there is a failure there always is one. -/
theorem exists_further (current : Option Failure) (later : Failure) :
    ∃ failure, further current later = some failure := by
  cases current with
  | none => exact ⟨later, rfl⟩
  | some failure =>
      by_cases hle : failure.position ≤ later.position
      · exact ⟨later, by simp [further, hle]⟩
      · exact ⟨failure, by simp [further, hle]⟩

theorem le_of_lastFurthest {failures : List Failure} {failure other : Failure}
    (h : LastFurthest failures failure) (hmem : other ∈ failures) :
    other.position ≤ failure.position := by
  obtain ⟨before, after, rfl, hbefore, hafter⟩ := h
  rcases List.mem_append.mp hmem with hin | hin
  · exact hbefore other hin
  · rcases List.mem_cons.mp hin with rfl | hin
    · exact Nat.le_refl _
    · exact Nat.le_of_lt (hafter other hin)

theorem eq_nil_of_furthestOf {failures : List Failure} (h : furthestOf failures = none) :
    failures = [] := by
  cases failures using List.reverseRecOn with
  | nil => rfl
  | append_singleton earlier later =>
      obtain ⟨failure, hfailure⟩ := exists_further (furthestOf earlier) later
      rw [furthestOf_append, hfailure] at h
      cases h

/-- What is left of several failures is the last one that got furthest. -/
theorem lastFurthest_of_furthestOf {failures : List Failure} {failure : Failure}
    (h : furthestOf failures = some failure) : LastFurthest failures failure := by
  induction failures using List.reverseRecOn generalizing failure with
  | nil => cases h
  | append_singleton earlier later ih =>
      rw [furthestOf_append] at h
      cases hearlier : furthestOf earlier with
      | none =>
          rw [hearlier] at h
          obtain rfl : later = failure := Option.some.inj h
          rw [eq_nil_of_furthestOf hearlier]
          exact ⟨[], [], rfl, nofun, nofun⟩
      | some old =>
          have hold := ih hearlier
          rw [hearlier] at h
          simp only [further] at h
          split at h
          · next hle =>
              obtain rfl : later = failure := Option.some.inj h
              refine ⟨earlier, [], rfl, fun other hmem => ?_, nofun⟩
              exact Nat.le_trans (le_of_lastFurthest hold hmem) hle
          · next hlt =>
              obtain rfl : old = failure := Option.some.inj h
              obtain ⟨before, after, rfl, hbefore, hafter⟩ := hold
              refine ⟨before, after ++ [later], by simp, hbefore, fun other hmem => ?_⟩
              rcases List.mem_append.mp hmem with hin | hin
              · exact hafter other hin
              · rw [List.mem_singleton.mp hin]
                exact Nat.lt_of_not_le hlt

/-! ## What is noted and what was told of -/

/-- The failure to tell about after the events of a walk. -/
def toldOf (s : Progress) : Option Failure := furthestOf (failures s.events.toList)

/-- The walk would tell about the failure that its events told of. -/
def Told (s : Progress) : Prop := s.furthest = toldOf s

/-- The walk would tell about it if it were told of one more failure. -/
def ToldBut (failure : Failure) (s : Progress) : Prop :=
  s.furthest = further (toldOf s) failure

theorem told_start : Told ⟨none, ∅, #[]⟩ := rfl

theorem notes_toldBut : Notes Told ToldBut := by
  intro s failure hs
  show further s.furthest failure = further (toldOf s) failure
  rw [hs]

theorem failures_push (s : Progress) (event : Event) :
    failures (s.events.push event).toList =
      failures s.events.toList ++ event.failure?.toList := by
  rw [Array.toList_push, failures, List.filterMap_append]
  cases h : event.failure? <;> simp [failures, h]

theorem toldOf_push_quiet (s : Progress) {event : Event} (h : event.failure? = none) :
    toldOf { s with events := s.events.push event } = toldOf s := by
  simp only [toldOf, failures_push, h, Option.toList_none, List.append_nil]

theorem toldOf_push_failed (s : Progress) {event : Event} {failure : Failure}
    (h : event.failure? = some failure) :
    toldOf { s with events := s.events.push event } = further (toldOf s) failure := by
  simp only [toldOf, failures_push, h, Option.toList_some, furthestOf_append]

theorem enter_ensures (id : NodeId) (pos depth : Nat) :
    Ensures Told (emit (.enter id pos depth)) fun _ => Told := by
  intro s hs _ s' hrun
  cases hrun
  show s.furthest = _
  rw [toldOf_push_quiet s rfl]
  exact hs

/-- Leaving a node tells of the failure that is due. -/
theorem leaving_ensures (id : NodeId) (pos depth : Nat) (step : Step) :
    Ensures (Answered Told ToldBut step) (emit (leaving id pos depth step))
      fun _ => Tried Told ToldBut step := by
  intro s hs _ s' hrun
  cases hrun
  cases step with
  | matched token stop =>
      have htold : Told { s with events := s.events.push (.matched id pos stop depth) } := by
        show s.furthest = _
        rw [toldOf_push_quiet s rfl]
        exact hs
      exact ⟨htold, htold⟩
  | failed failure =>
      have htold := toldOf_push_failed s
        (show (leaving id pos depth (.failed failure)).failure? = some failure from rfl)
      refine ⟨?_, ?_⟩
      · show s.furthest = _
        rw [htold]
        exact hs
      · show s.furthest = further _ failure
        rw [htold, further_further]
        exact hs

/-- A plain walk would tell about the failure that its events told of, and if it
failed itself, being told of that failure again makes no difference. -/
theorem invoke_ensures {task : Task} (hplain : task.config.memoize = false) :
    ∀ {allowance depth : Nat} {id : NodeId} {pos : Nat},
      Ensures Told (invoke task allowance depth id pos) (Tried Told ToldBut) := by
  intro allowance
  induction allowance with
  | zero => intro depth id pos; exact Ensures.throw
  | succ allowance ih =>
      intro depth id pos
      simp only [invoke, hplain, Bool.false_eq_true, if_false]
      refine Ensures.bind (enter_ensures id pos depth) fun _ => ?_
      refine Ensures.bind (answer_ensures notes_toldBut fun _ _ => ih) fun step => ?_
      exact Ensures.bind (leaving_ensures id pos depth step) fun _ => Ensures.pure fun _ hs => hs

/-- A walk from a stranger answers nothing. -/
theorem contains_of_invoke {task : Task} (hplain : task.config.memoize = false)
    {allowance depth : Nat} {id : NodeId} {pos : Nat} {step : Step} {s s' : Progress}
    (h : invoke task allowance depth id pos s = .ok step s') :
    task.grammar.contains id = true := by
  cases hid : task.grammar.contains id with
  | true => rfl
  | false =>
      have hnode : task.grammar.node? id = none := by
        rw [Grammar.node?, hid, if_neg Bool.false_ne_true]
      cases allowance with
      | zero => cases h
      | succ allowance =>
          simp only [invoke, hplain, Bool.false_eq_true, if_false, answer, hnode] at h
          cases h

end Walk

/-! ## Reports -/

theorem failures_closing (outcome : Outcome) : failures (Parser.closing outcome) = [] := by
  cases outcome with
  | ok parsed => rfl
  | error e =>
      simp only [Parser.closing]
      split <;> rfl

/-- The failures of a parse are those of its walk. -/
theorem failures_watch {p : Parser} {start : NodeId} (hstart : p.grammar.contains start = true)
    (input : List UInt8) :
    failures (p.watch start input).2 =
      failures (Parser.seen (p.walk start input)).toList := by
  rw [Parser.watch_of_contains hstart]
  show failures ((Parser.seen _).toList ++ Parser.closing _) = _
  rw [failures, List.filterMap_append]
  show failures _ ++ failures _ = _
  rw [failures_closing, List.append_nil]

/-- If the start node of a plain parse fails, the parse reports a failure that its
events tell of: the last one of those at the greatest position. -/
theorem reports_last_furthest {p : Parser} (hplain : p.config.memoize = false) {start : NodeId}
    {input : List UInt8} {own : Failure} {s : Progress}
    (h : p.walk start input = .ok (.failed own) s) :
    ∃ failure, LastFurthest (failures (p.watch start input).2) failure ∧
      p.runFrom start input = .error (.located failure.kind failure.position) := by
  have hstart : p.grammar.contains start = true := Walk.contains_of_invoke hplain h
  obtain ⟨htold, hown⟩ := Walk.invoke_ensures hplain _ Walk.told_start _ _ h
  obtain ⟨failure, hfailure⟩ := Walk.exists_further (Walk.toldOf s) own
  have hnoted : s.furthest = some failure := Eq.trans hown hfailure
  refine ⟨failure, ?_, ?_⟩
  · rw [failures_watch hstart, h]
    exact Walk.lastFurthest_of_furthestOf (htold.symm.trans hnoted)
  · rw [Parser.runFrom_of_contains hstart, h]
    simp only [Parser.conclude, hnoted, Option.getD_some]

/-- An `a` with a `b` behind it, if that is there, and then a `c`. -/
def optionalPair : NodeId × Builder :=
  Id.run <| StateT.run (do
    let a ← Builder.literal 0x61
    let b ← Builder.literal 0x62
    let ab ← Builder.sequence [a, b]
    let pair ← Builder.optional ab
    let c ← Builder.literal 0x63
    Builder.sequence [pair, c]) (Builder.new 0)

def optionalPairGrammar : Grammar :=
  ⟨optionalPair.2.arena, optionalPair.2.nodes, optionalPair.2.names, optionalPair.1⟩

/-- The failure inside the optional pair got further than the one that ended the
parse. -/
theorem reports_last_furthest_optional :
    Config.standard.memoize = false ∧
    (∃ own s, Parser.walk ⟨optionalPairGrammar, Config.standard⟩ optionalPair.1 [0x61, 0x78] =
      .ok (.failed own) s) ∧
    LastFurthest
      (failures (Parser.watch ⟨optionalPairGrammar, Config.standard⟩ optionalPair.1
        [0x61, 0x78]).2) ⟨.literalMismatch 0x62 0x78, 1⟩ ∧
    Parser.runFrom ⟨optionalPairGrammar, Config.standard⟩ optionalPair.1 [0x61, 0x78] =
      .error (.located (.literalMismatch 0x62 0x78) 1) := by
  have hwalk : ∃ own s, Parser.walk ⟨optionalPairGrammar, Config.standard⟩ optionalPair.1
      [0x61, 0x78] = .ok (.failed own) s := ⟨_, _, rfl⟩
  have hrun : Parser.runFrom ⟨optionalPairGrammar, Config.standard⟩ optionalPair.1
      [0x61, 0x78] = .error (.located (.literalMismatch 0x62 0x78) 1) := rfl
  obtain ⟨own, s, hfails⟩ := hwalk
  obtain ⟨⟨kind, position⟩, hlast, hreport⟩ :=
    reports_last_furthest (p := ⟨optionalPairGrammar, Config.standard⟩) rfl hfails
  rw [hrun] at hreport
  cases hreport
  exact ⟨rfl, ⟨own, s, hfails⟩, hlast, hrun⟩

end Packrat
