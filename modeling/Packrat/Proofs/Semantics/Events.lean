import Packrat.Proofs.Semantics.Soundness
import Packrat.Proofs.Walk.Brackets
import Packrat.Proofs.Walk.Furthest

/-!
# What events tell is true

Whenever a node is left, an event says how. It can be taken at its word: the node
yields a match that ends there, or that failure. This holds of walks that remember and
of parts of walks that were cut off as well, since every answer is what its node yields.

So what is known of the meaning of a grammar is known of everything that can be seen of
a parse. One case is the failure that a parse reports. It is the failure of some node,
and there are not many reasons that a node can have.
-/

namespace Packrat

open Semantics

/-- What the event says of a node is what the node yields. -/
def Event.Tells (g : Grammar) (input : Array UInt8) : Event → Prop
  | .matched id pos stop _ => ∃ token, Yields g input id pos (.matched token stop)
  | .failed id pos kind position _ => Yields g input id pos (.failed ⟨kind, position⟩)
  | _ => True

/-- What opens and ends a parse tells nothing of a node. -/
theorem Event.tells_of_depth? {g : Grammar} {input : Array UInt8} {event : Event}
    (h : event.depth? = none) : event.Tells g input := by
  cases event with
  | start _ _ | aborted _ | finish _ => trivial
  | enter _ _ _ | matched _ _ _ _ | failed _ _ _ _ _ | memoHit _ _ _ => cases h

namespace Walk

variable {g : Grammar} {input : Array UInt8} {config : Config}

/-- Adding events that are true. -/
def truthful (g : Grammar) (input : Array UInt8) : Effect where
  answers s s' :=
    (∀ event ∈ s.events, event.Tells g input) → ∀ event ∈ s'.events, event.Tells g input
  aborts _ s s' :=
    (∀ event ∈ s.events, event.Tells g input) → ∀ event ∈ s'.events, event.Tells g input

theorem truthful_composes (g : Grammar) (input : Array UInt8) (size : Nat) :
    (truthful g input).Composes size where
  refl _ := id
  trans h h' := fun hs => h' (h hs)
  absorb h h' := fun hs => h' (h hs)
  offer _ _ := id
  invalidLength _ := id

theorem tells_push {events : Array Event} {event : Event}
    (h : ∀ other ∈ events, other.Tells g input) (hevent : event.Tells g input) :
    ∀ other ∈ events.push event, other.Tells g input := by
  intro other hmem
  rcases Array.mem_push.mp hmem with hold | rfl
  · exact h other hold
  · exact hevent

theorem tells_leaving {id : NodeId} {pos depth : Nat} {step : Step}
    (h : Yields g input id pos step) : (leaving id pos depth step).Tells g input := by
  cases step with
  | matched token stop => exact ⟨token, h⟩
  | failed failure => exact h

theorem invoke_truthful (hg : g.WellFormed) :
    ∀ {allowance : Nat} (depth : Nat) {id : NodeId} {pos : Nat},
      g.contains id = true → pos ≤ input.size →
      Has (Yielded g input) (truthful g input) (Step.Within pos input.size)
        (invoke ⟨g, input, config⟩ allowance depth id pos) := by
  intro allowance
  induction allowance with
  | zero => intro depth id pos _ _; exact Has.throw fun _ h => h
  | succ allowance ih =>
      intro depth id pos hid hpos s hs
      have hwork : Has (Yielded g input) (truthful g input) (Step.Within pos input.size)
          (answer ⟨g, input, config⟩ (invoke ⟨g, input, config⟩ allowance (depth + 1)) id pos) :=
        Has.answer hg (truthful_composes g input _) (fun _ _ hchild hp => ih _ hchild hp) hid hpos
      have hentered : ∀ {events : Array Event}, (∀ event ∈ events, event.Tells g input) →
          ∀ event ∈ events.push (.enter id pos depth), event.Tells g input :=
        fun h => tells_push h trivial
      refine ⟨?_, fun step s' hrun => ?_⟩
      · cases hrun : invoke ⟨g, input, config⟩ (allowance + 1) depth id pos s with
        | error e s' =>
            rw [invoke_eq_visit] at hrun
            intro htells
            cases visited hrun with
            | plainAborts _ hrun' | foundAborts _ _ hrun' =>
                exact hwork.aborts hrun' hs (hentered htells)
        | ok step s' =>
            have hleft : (leaving id pos depth step).Tells g input :=
              tells_leaving (invoke_yields hg hid hpos hs hrun).1
            rw [invoke_eq_visit] at hrun
            intro htells
            cases visited hrun with
            | plain _ hrun' | found _ _ hrun' =>
                exact tells_push (hwork.answers hrun' hs (hentered htells)) hleft
            | told _ _ => exact tells_push (tells_push (hentered htells) trivial) hleft
      · obtain ⟨hstep, hs'⟩ := invoke_yields hg hid hpos hs hrun
        exact ⟨hstep.within hg hid hpos, hs'⟩

end Walk

/-! ## Parses -/

namespace Parser

variable {p : Parser} {start : NodeId} {input : List UInt8}

theorem watch_tells (hg : p.grammar.WellFormed) :
    ∀ event ∈ (p.watch start input).2, event.Tells p.grammar input.toArray := by
  by_cases hstart : p.grammar.contains start = true
  · have hwalk : ∀ event ∈ seen (p.walk start input), event.Tells p.grammar input.toArray := by
      have hcovers : (Walk.truthful p.grammar input.toArray).Covers ⟨none, ∅, #[]⟩
          (p.walk start input) :=
        (Walk.invoke_truthful hg 1 hstart (Nat.zero_le _) _ yielded_empty).1
      have hnone : ∀ event ∈ (#[] : Array Event), event.Tells p.grammar input.toArray :=
        fun event hmem => absurd hmem (Array.not_mem_empty event)
      cases hwalk : p.walk start input with
      | ok step s => rw [hwalk] at hcovers; exact hcovers hnone
      | error e s => rw [hwalk] at hcovers; exact hcovers hnone
    rw [watch_of_contains hstart]
    intro event hevent
    rcases List.mem_cons.mp hevent with rfl | hevent
    · trivial
    · rcases List.mem_append.mp hevent with hseen | hclosing
      · exact hwalk event (Array.mem_toList_iff.mp hseen)
      · exact Event.tells_of_depth? (depth?_closing _ event hclosing)
  · rw [watch_of_not_contains hstart]
    exact fun event hevent => absurd hevent List.not_mem_nil

/-- How the start node is left is seen of every parse whose walk answers. -/
theorem leaving_mem_watch {step : Step} {s : Progress} (hstart : p.grammar.contains start = true)
    (hwalk : p.walk start input = .ok step s) :
    Walk.leaving start 0 1 step ∈ (p.watch start input).2 := by
  have hlast : ∃ before : Array Event, s.events = before.push (Walk.leaving start 0 1 step) := by
    rw [walk] at hwalk
    cases hlevels : p.config.maxDepth with
    | zero =>
        rw [hlevels] at hwalk
        cases hwalk
    | succ levels =>
        rw [hlevels, Walk.invoke_eq_visit] at hwalk
        cases Walk.visited hwalk with
        | plain _ _ => exact ⟨_, rfl⟩
        | told _ _ => exact ⟨_, rfl⟩
        | found _ _ _ => exact ⟨_, rfl⟩
  obtain ⟨before, hevents⟩ := hlast
  have hmem : Walk.leaving start 0 1 step ∈ s.events.toList := by
    rw [hevents]
    exact Array.mem_toList_iff.mpr Array.mem_push_self
  rw [watch_of_contains hstart, hwalk]
  exact List.mem_cons_of_mem _ (List.mem_append_left _ hmem)

/-- Every failure that is told of has a reason that a node can have. -/
theorem ofNode_of_failures (hg : p.grammar.WellFormed) {failure : Failure}
    (h : failure ∈ failures (p.watch start input).2) : failure.kind.OfNode := by
  obtain ⟨event, hevent, hfailure⟩ := List.mem_filterMap.mp h
  have htells := watch_tells hg event hevent
  cases event with
  | failed id pos kind position depth =>
      cases hfailure
      exact htells.ofNode
  | start _ _ | aborted _ | finish _ | enter _ _ _ | matched _ _ _ _ | memoHit _ _ _ =>
      cases hfailure

/-- A plain parse from a node of the grammar is cut off, or it fails for a reason that a
node can have. Input that is left over is such a reason as well. -/
theorem cutsOff_or_ofNode (hg : p.grammar.WellFormed) (hplain : p.config.memoize = false)
    (hstart : p.grammar.contains start = true) {e : Error}
    (h : p.runFrom start input = .error e) :
    e.CutsOff p.config.maxDepth input.length ∨ e.kind.OfNode := by
  rw [runFrom_of_contains hstart] at h
  cases hwalk : p.walk start input with
  | error e' s =>
      rw [hwalk] at h
      cases h
      exact .inl (cutsOff_of_walk hg hstart hwalk)
  | ok step s =>
      cases step with
      | matched token stop =>
          rw [hwalk] at h
          simp only [conclude] at h
          split at h
          · cases h
            exact .inr trivial
          · cases h
      | failed own =>
          obtain ⟨htold, hown⟩ := Walk.invoke_ensures hplain _ Walk.told_start _ _ hwalk
          obtain ⟨failure, hfailure⟩ := Walk.exists_further (Walk.toldOf s) own
          have hnoted : s.furthest = some failure := Eq.trans hown hfailure
          have hmem : failure ∈ failures (p.watch start input).2 := by
            obtain ⟨before, after, hfailures, _⟩ :=
              Walk.lastFurthest_of_furthestOf (htold.symm.trans hnoted)
            rw [failures_watch hstart, hwalk]
            exact hfailures ▸ List.mem_append_right _ (List.mem_cons_self ..)
          rw [hwalk] at h
          simp only [conclude, hnoted, Option.getD_some] at h
          cases h
          exact .inr (ofNode_of_failures hg hmem)

end Parser

end Packrat
