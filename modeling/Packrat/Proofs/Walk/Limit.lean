import Std.Internal.Do
import Packrat.Proofs.Semantics.Soundness
import Packrat.Proofs.Walk.Outcome

/-!
# Raising the limit changes nothing

No part of a walk knows how many levels are left. The limit is compared with the
depth when a node is tried, and the error that follows is the only thing that ever
tells one limit from another. Nothing that a walk carries along depends on it: not
the failure to tell about, not the events, not what is remembered.

So a walk that ended without coming to the limit is replayed under a higher one,
step for step and with the same progress from beginning to end. `Replays` says this
of two walks from one and the same progress. That is a congruence, so for the nodes
there is nothing left to show, and what remains is to walk around a node once.
-/

namespace Packrat.Walk

/-- The walk gave up at the limit. -/
def CutShort (limit : Nat) {α : Type} : EStateM.Result Error Progress α → Prop
  | .error e _ => ∃ pos, e = .located (.recursionLimit limit) pos
  | .ok _ _ => False

/-- From any progress with a sound memory `y` ends just as `x` does, unless `x` is cut
short. -/
def Replays (I : Memory → Prop) (limit : Nat) {α : Type} (Q : α → Prop) (x y : Walk α) :
    Prop :=
  ∀ s, I s.memo → CutShort limit (x s) ∨
    (y s = x s ∧ ∀ a s', x s = .ok a s' → Q a ∧ I s'.memo)

section Replaying

variable {I : Memory → Prop} {limit : Nat}

theorem bind_eq_of_eq {α β : Type} {x y : Walk α} {s : Progress} (h : y s = x s)
    (f : α → Walk β) : (y >>= f) s = (x >>= f) s := by
  cases hrun : x s with
  | ok a s' => rw [bind_of_ok hrun, bind_of_ok (h.trans hrun)]
  | error e s' => rw [bind_of_error hrun, bind_of_error (h.trans hrun)]

theorem CutShort.bind {α β : Type} {x : Walk α} {s : Progress} (h : CutShort limit (x s))
    (f : α → Walk β) : CutShort limit ((x >>= f) s) := by
  cases hrun : x s with
  | ok a s' => rw [hrun] at h; exact h.elim
  | error e s' => rw [hrun] at h; rw [bind_of_error hrun]; exact h

theorem replays_congruence (I : Memory → Prop) (limit size : Nat) :
    Congruence size (Replays I limit) where
  pure ha := by
    intro s hs
    refine .inr ⟨rfl, fun a s' hrun => ?_⟩
    cases hrun
    exact ⟨ha, hs⟩
  offer _ _ := by
    intro s hs
    refine .inr ⟨rfl, fun a s' hrun => ?_⟩
    cases hrun
    exact ⟨trivial, hs⟩
  invalidLength _ := fun s _ => .inr ⟨rfl, nofun⟩
  bind := by
    intro α β P Q x y f k hxy hfk s hs
    rcases hxy s hs with hcut | ⟨hsame, hends⟩
    · exact .inl (hcut.bind f)
    · cases hrun : x s with
      | error e s₁ =>
          rw [bind_of_error hrun, bind_of_error (hsame.trans hrun)]
          exact .inr ⟨rfl, nofun⟩
      | ok a s₁ =>
          obtain ⟨ha, hs₁⟩ := hends a s₁ hrun
          rw [bind_of_ok hrun, bind_of_ok (hsame.trans hrun)]
          exact hfk a ha s₁ hs₁

/-! ## Around a node

The work on a node is run from one progress only, whatever the memory says, so it is
enough that the two works agree there. -/

section Node

variable (id : NodeId) (pos depth : Nat) {work work' : Walk Step} {s : Progress}

theorem remembered_replays
    (h : ∀ t : Progress, t.memo = s.memo → CutShort limit (work t) ∨ work' t = work t) :
    CutShort limit (remembered id pos depth work s) ∨
      remembered id pos depth work' s = remembered id pos depth work s := by
  cases hentry : s.memo[(id.index, pos)]? with
  | some entry =>
      have hhit : ∀ x : Walk Step, remembered id pos depth x s = .ok entry.1 _ :=
        fun _ => remembered_hit hentry
      exact .inr ((hhit work').trans (hhit work).symm)
  | none =>
      unfold remembered
      simp only [get_bind, hentry, modify_bind]
      rcases h { s with furthest := none } rfl with hcut | hsame
      · exact .inl (hcut.bind _)
      · exact .inr (bind_eq_of_eq hsame _)

theorem visit_replays {config config' : Config} (hmemo : config'.memoize = config.memoize)
    (h : ∀ t : Progress, t.memo = s.memo → CutShort limit (work t) ∨ work' t = work t) :
    CutShort limit (visit config id pos depth work s) ∨
      visit config' id pos depth work' s = visit config id pos depth work s := by
  unfold visit
  rw [hmemo, emit_bind, emit_bind]
  by_cases hon : config.memoize = true
  · rw [if_pos hon, if_pos hon]
    have hinner := remembered_replays id pos depth
      (s := { s with events := s.events.push (.enter id pos depth) }) h
    rcases hinner with hcut | hsame
    · exact .inl (hcut.bind _)
    · exact .inr (bind_eq_of_eq hsame _)
  · rw [if_neg hon, if_neg hon]
    rcases h { s with events := s.events.push (.enter id pos depth) } rfl with hcut | hsame
    · exact .inl (hcut.bind _)
    · exact .inr (bind_eq_of_eq hsame _)

end Node

/-! ## Whole walks -/

theorem invoke_replays {g : Grammar} {input : Array UInt8} {config config' : Config}
    (hg : g.WellFormed) (hmemo : config'.memoize = config.memoize) :
    ∀ {allowance allowance' : Nat} (depth : Nat) {id : NodeId} {pos : Nat},
      allowance ≤ allowance' → g.contains id = true → pos ≤ input.size →
      Replays (Semantics.Yielded g input) config.maxDepth (Step.Within pos input.size)
        (invoke ⟨g, input, config⟩ allowance depth id pos)
        (invoke ⟨g, input, config'⟩ allowance' depth id pos) := by
  intro allowance
  induction allowance with
  | zero => intro allowance' depth id pos _ _ _ s _; exact .inl ⟨pos, rfl⟩
  | succ allowance ih =>
      intro allowance' depth id pos hle hid hpos s hs
      obtain ⟨m, rfl⟩ : ∃ m, allowance' = m + 1 := ⟨allowance' - 1, by omega⟩
      obtain ⟨node, hnode⟩ := Grammar.exists_node_of_contains hid
      have hmem := Grammar.mem_of_node?_eq_some hnode
      have htry : Congruence.Tries (Replays (Semantics.Yielded g input) config.maxDepth)
          input.size (invoke ⟨g, input, config⟩ allowance (depth + 1))
          (invoke ⟨g, input, config'⟩ m (depth + 1)) node.children pos :=
        fun child hchild p _ hp => ih _ (by omega) (hg.children_mem node hmem child hchild) hp
      have hwork : Replays (Semantics.Yielded g input) config.maxDepth
          (Step.Within pos input.size)
          (answer ⟨g, input, config⟩ (invoke ⟨g, input, config⟩ allowance (depth + 1)) id pos)
          (answer ⟨g, input, config'⟩ (invoke ⟨g, input, config'⟩ m (depth + 1)) id pos) :=
        (replays_congruence _ _ input.size).answer hnode
          (fun heq => hg.bound (heq ▸ hmem)) hpos htry
      have hvisit := visit_replays id pos depth hmemo
        (fun t ht => (hwork t (ht ▸ hs)).imp_right And.left)
      rw [invoke_eq_visit, invoke_eq_visit]
      refine hvisit.imp_right fun hsame => ⟨hsame, fun step s' hrun => ?_⟩
      rw [← invoke_eq_visit] at hrun
      obtain ⟨hstep, hs'⟩ := Semantics.invoke_yields hg hid hpos hs hrun
      exact ⟨hstep.within hg hid hpos, hs'⟩

end Replaying

end Packrat.Walk

namespace Packrat

/-! ## Parses -/

/-- A parse that did not come to the limit ends in the same outcome under a higher one,
and passes through the same events. -/
theorem raised_limit_changes_nothing {b : Builder} {root : NodeId} {g : Grammar}
    (hbuild : b.build root = .ok g) (start : NodeId) (input : List UInt8)
    (full memoize : Bool) {limit limit' : Nat} (hle : limit ≤ limit')
    (hfree : ¬ (Parser.runFrom ⟨g, full, limit, memoize⟩ start input).ReachesLimit) :
    Parser.watch ⟨g, full, limit', memoize⟩ start input =
      Parser.watch ⟨g, full, limit, memoize⟩ start input := by
  by_cases hstart : g.contains start = true
  · have hg := Builder.wellFormed_of_build hbuild
    have hmemo : Config.memoize ⟨full, limit', memoize⟩ =
        Config.memoize ⟨full, limit, memoize⟩ := rfl
    have hreplays : Walk.Replays (Semantics.Yielded g input.toArray) limit
        (Step.Within 0 input.toArray.size)
        (Walk.invoke ⟨g, input.toArray, full, limit, memoize⟩ limit 1 start 0)
        (Walk.invoke ⟨g, input.toArray, full, limit', memoize⟩ limit' 1 start 0) :=
      Walk.invoke_replays hg hmemo 1 hle hstart (Nat.zero_le _)
    rcases hreplays ⟨none, ∅, #[]⟩ Semantics.yielded_empty with hcut | ⟨hsame, _⟩
    · refine absurd ?_ hfree
      rw [Parser.runFrom_of_contains hstart, Parser.walk]
      cases hwalk : Walk.invoke ⟨g, input.toArray, full, limit, memoize⟩ limit 1 start 0
          ⟨none, ∅, #[]⟩ with
      | ok step s => rw [hwalk] at hcut; exact hcut.elim
      | error e s =>
          rw [hwalk] at hcut
          obtain ⟨pos, rfl⟩ := hcut
          exact trivial
    · have hwalk : Parser.walk ⟨g, full, limit', memoize⟩ start input =
          Parser.walk ⟨g, full, limit, memoize⟩ start input := hsame
      rw [Parser.watch_of_contains hstart, Parser.watch_of_contains hstart, hwalk]
      rfl
  · have hforeign : g.node start = .error (.plain (.foreignNode start.index)) := by
      rw [Grammar.node, Grammar.node?, if_neg hstart]
    simp only [Parser.watch, hforeign]

/-- With answers remembered, six levels are just enough for a pair of parentheses, so two
hundred and fifty more change nothing. -/
theorem raised_limit_changes_nothing_nested :
    Semantics.nested.2.build Semantics.nested.1 = .ok Semantics.nestedGrammar ∧
    Parser.runFrom ⟨Semantics.nestedGrammar, true, 5, true⟩ Semantics.nested.1 [0x28, 0x29] =
      .error (.located (.recursionLimit 5) 1) ∧
    Parser.runFrom ⟨Semantics.nestedGrammar, true, 6, true⟩ Semantics.nested.1 [0x28, 0x29] =
      .ok ⟨.none, 2⟩ ∧
    Parser.watch ⟨Semantics.nestedGrammar, true, 256, true⟩ Semantics.nested.1 [0x28, 0x29] =
      Parser.watch ⟨Semantics.nestedGrammar, true, 6, true⟩ Semantics.nested.1 [0x28, 0x29] := by
  have hbuild : Semantics.nested.2.build Semantics.nested.1 = .ok Semantics.nestedGrammar := rfl
  have hfew : Parser.runFrom ⟨Semantics.nestedGrammar, true, 5, true⟩ Semantics.nested.1
      [0x28, 0x29] = .error (.located (.recursionLimit 5) 1) := by
    rw [Semantics.nestedGrammar_eq, Semantics.nested_root]
    cbv
  have henough : Parser.runFrom ⟨Semantics.nestedGrammar, true, 6, true⟩ Semantics.nested.1
      [0x28, 0x29] = .ok ⟨.none, 2⟩ := by
    have hplain : Parser.runFrom ⟨Semantics.nestedGrammar, true, 6, false⟩ Semantics.nested.1
        [0x28, 0x29] = .ok ⟨.none, 2⟩ := rfl
    have hfree : ¬ (Parser.runFrom ⟨Semantics.nestedGrammar, true, 6, false⟩ Semantics.nested.1
        [0x28, 0x29]).ReachesLimit := by
      rw [hplain]
      exact id
    rw [Parser.runFrom_remembering (Builder.wellFormed_of_build hbuild) hfree, hplain]
  refine ⟨hbuild, hfew, henough, ?_⟩
  apply raised_limit_changes_nothing hbuild Semantics.nested.1 [0x28, 0x29] true true
    (show 6 ≤ 256 by omega)
  rw [henough]
  exact id

end Packrat
