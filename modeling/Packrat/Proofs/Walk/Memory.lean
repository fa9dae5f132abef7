import Packrat.Proofs.Walk.Outcome

/-!
# Remembering answers changes no answer

A walk that remembers leaves out work, and what it leaves out could have been
told apart in two ways: by the answer, and by the failures met on the way, which
decide what a failed parse reports. The memory keeps both. `Faithful` says that it
keeps them right: every entry is what the plain walk answers at that node and
position, with the furthest failure that the plain walk meets there, at some
number of levels.

The number of levels is not part of an entry, and need not be. A plain walk that
answers at all answers the same wherever it is tried with levels enough
(`invoke_outlasts`), so an entry made near the surface may be given again in the
depth. The only thing that can differ is the limit: the plain walk may reach it
where the other already knows the answer.
-/

namespace Packrat

namespace Walk

section Remembering

variable {g : Grammar} {input : Array UInt8} {config config' : Config}

/-- Every entry is an answer of the plain walk. -/
def Faithful (g : Grammar) (input : Array UInt8) (config : Config) (memory : Memory) : Prop :=
  ∀ index pos step found, memory[(index, pos)]? = some (step, found) →
    ∃ allowance depth,
      Answers Unread (invoke ⟨g, input, config⟩ allowance depth ⟨g.arena, index⟩ pos) step found

theorem faithful_empty : Faithful g input config ∅ := by
  intro index pos step found h
  rw [Std.HashMap.getElem?_empty] at h
  cases h

theorem Faithful.insert {memory : Memory} (h : Faithful g input config memory)
    {id : NodeId} (hid : g.contains id = true) {allowance depth pos : Nat} {step : Step}
    {found : Option Failure}
    (hnew : Answers Unread (invoke ⟨g, input, config⟩ allowance depth id pos) step found) :
    Faithful g input config (memory.insert (id.index, pos) (step, found)) := by
  intro index pos' step' found' hentry
  rw [Std.HashMap.getElem?_insert] at hentry
  split at hentry
  · next hkey =>
      rw [beq_iff_eq] at hkey
      injection hkey with hindex hpos
      injection hentry with hentry
      injection hentry with hstep hfound
      subst hindex hpos hstep hfound
      rw [← Grammar.eq_of_contains hid]
      exact ⟨allowance, depth, hnew⟩
  · exact h index pos' step' found' hentry

end Remembering

/-! ## One node -/

section OneNode

variable {id : NodeId} {pos depth : Nat} {work : Walk Step} {s s' : Progress}

theorem forM_offer (found : Option Failure) (s : Progress) :
    (found.forM offer : Walk PUnit) s
      = .ok ⟨⟩ { s with furthest := join s.furthest found } := by
  cases found <;> rfl

/-- What is remembered is given again, with its failure. -/
theorem remembered_hit {step : Step} {found : Option Failure}
    (h : s.memo[(id.index, pos)]? = some (step, found)) :
    remembered id pos depth work s
      = .ok step { s with
          furthest := join s.furthest found
          events := s.events.push (.memoHit id pos depth) } := by
  unfold remembered
  rw [get_bind, h]
  simp only []
  rw [emit_bind, bind_of_ok (forM_offer found _)]
  rfl

theorem remembered_miss {step : Step} (h : s.memo[(id.index, pos)]? = none)
    (hwork : work { s with furthest := none } = .ok step s') :
    remembered id pos depth work s
      = .ok step { s' with
          furthest := join s.furthest s'.furthest
          memo := s'.memo.insert (id.index, pos) (step, s'.furthest) } := by
  unfold remembered
  rw [get_bind, h]
  simp only []
  rw [get_bind, modify_bind, bind_of_ok hwork, get_bind, modify_bind,
    bind_of_ok (forM_offer s'.furthest _), modify_bind]
  rfl

theorem remembered_miss_error {e : Error} (h : s.memo[(id.index, pos)]? = none)
    (hwork : work { s with furthest := none } = .error e s') :
    remembered id pos depth work s = .error e s' := by
  unfold remembered
  rw [get_bind, h]
  simp only []
  rw [get_bind, modify_bind, bind_of_error hwork]

end OneNode

/-! ## Whole walks -/

section Whole

variable {g : Grammar} {input : Array UInt8} {plain memoizing : Config}
  {allowance depth depth' : Nat} {id : NodeId} {pos : Nat} {work : Walk Step}

/-- What the memory has on a node is what a plain walk answers there. -/
theorem Faithful.entry_eq (hg : g.WellFormed) (hplain : plain.memoize = false)
    (hid : g.contains id = true) (hpos : pos ≤ input.size) {memory : Memory}
    (hmemory : Faithful g input plain memory) {step step' : Step}
    {found found' : Option Failure} (hentry : memory[(id.index, pos)]? = some (step', found'))
    (h : Answers Unread (invoke ⟨g, input, plain⟩ allowance depth id pos) step found) :
    step' = step ∧ found' = found := by
  obtain ⟨m, k, hm⟩ := hmemory _ _ _ _ hentry
  rw [← Grammar.eq_of_contains hid] at hm
  have hm' := hm.mono hg hplain hplain 0 (Nat.le_max_left m allowance) hid hpos
  have h' := h.mono hg hplain hplain 0 (Nat.le_max_right m allowance) hid hpos
  exact hm'.unique h'

theorem remembered_answers (hg : g.WellFormed) (hplain : plain.memoize = false)
    (hid : g.contains id = true) (hpos : pos ≤ input.size) {step : Step}
    {found : Option Failure}
    (h : Answers Unread (invoke ⟨g, input, plain⟩ allowance depth id pos) step found)
    (hwork : Answers (Faithful g input plain) work step found) :
    Answers (Faithful g input plain) (remembered id pos depth' work) step found := by
  intro s hs
  cases hentry : s.memo[(id.index, pos)]? with
  | some entry =>
      obtain ⟨step', found'⟩ := entry
      obtain ⟨rfl, rfl⟩ := hs.entry_eq hg hplain hid hpos hentry h
      exact ⟨_, remembered_hit hentry, rfl, hs⟩
  | none =>
      obtain ⟨s', hrun, hfurthest, hs'⟩ := hwork { s with furthest := none } hs
      rw [none_join] at hfurthest
      subst hfurthest
      exact ⟨_, remembered_miss hentry hrun, rfl, hs'.insert hid h⟩

theorem remembered_aborts (hg : g.WellFormed) (hplain : plain.memoize = false)
    (hid : g.contains id = true) (hpos : pos ≤ input.size) {shape : Token.Shape} {p : Nat}
    (h : Aborts Unread (invoke ⟨g, input, plain⟩ allowance depth id pos)
      (.located (.invalidLength shape) p))
    (hwork : Aborts (Faithful g input plain) work (.located (.invalidLength shape) p)) :
    Aborts (Faithful g input plain) (remembered id pos depth' work)
      (.located (.invalidLength shape) p) := by
  intro s hs
  cases hentry : s.memo[(id.index, pos)]? with
  | some entry =>
      obtain ⟨m, k, hm⟩ := hs _ _ _ _ hentry
      rw [← Grammar.eq_of_contains hid] at hm
      have hm' := hm.mono hg hplain hplain 0 (Nat.le_max_left m allowance) hid hpos
      have h' := h.mono hg hplain hplain 0 (Nat.le_max_right m allowance) hid hpos
      exact absurd h' hm'.not_aborts
  | none =>
      obtain ⟨s', hrun⟩ := hwork { s with furthest := none } hs
      exact ⟨s', remembered_miss_error hentry hrun⟩

/-- A walk that remembers does what the plain walk does, unless that one reaches
the limit. -/
theorem invoke_remembering (hg : g.WellFormed) (hplain : plain.memoize = false)
    (hmemo : memoizing.memoize = true) :
    ∀ {allowance : Nat} (depth : Nat) {id : NodeId} {pos : Nat},
      g.contains id = true → pos ≤ input.size →
      Outlasts (Faithful g input plain) plain.maxDepth input.size (Step.Within pos input.size)
        (invoke ⟨g, input, plain⟩ allowance depth id pos)
        (invoke ⟨g, input, memoizing⟩ allowance depth id pos) := by
  intro allowance
  induction allowance with
  | zero => intro depth id pos _ hpos; exact .limit pos hpos (Aborts.throw _)
  | succ allowance ih =>
      intro depth id pos hid hpos
      obtain ⟨node, hnode⟩ := Grammar.exists_node_of_contains hid
      have hmem := Grammar.mem_of_node?_eq_some hnode
      have htry : Congruence.Tries
          (Outlasts (Faithful g input plain) plain.maxDepth input.size) input.size
          (invoke ⟨g, input, plain⟩ allowance (depth + 1))
          (invoke ⟨g, input, memoizing⟩ allowance (depth + 1)) node.children pos :=
        fun child hchild p _ hp => ih _ (hg.children_mem node hmem child hchild) hp
      have hbound : node ≠ .indirect none := fun heq => hg.bound (heq ▸ hmem)
      have hanswer : Outlasts (Faithful g input plain) plain.maxDepth input.size
          (Step.Within pos input.size)
          (answer ⟨g, input, plain⟩ (invoke ⟨g, input, plain⟩ allowance (depth + 1)) id pos)
          (answer ⟨g, input, memoizing⟩
            (invoke ⟨g, input, memoizing⟩ allowance (depth + 1)) id pos) :=
        (outlasts_congruence (Faithful g input plain) plain.maxDepth input.size).answer
          hnode hbound hpos htry
      simp only [invoke, hplain, hmemo, Bool.false_eq_true, if_false, if_true]
      refine Outlasts.around ?_ _ _ _ _
      cases hanswer with
      | answers step found post left right =>
          have hwhole : Answers Unread (invoke ⟨g, input, plain⟩ (allowance + 1) depth id pos)
              step found := by
            simp only [invoke, hplain, Bool.false_eq_true, if_false]
            exact left.around _ _
          exact .answers step found post left
            (remembered_answers hg hplain hid hpos hwhole right)
      | misuse shape p inside left right =>
          have hwhole : Aborts Unread (invoke ⟨g, input, plain⟩ (allowance + 1) depth id pos)
              (.located (.invalidLength shape) p) := by
            simp only [invoke, hplain, Bool.false_eq_true, if_false]
            exact left.around _ _
          exact .misuse shape p inside left (remembered_aborts hg hplain hid hpos hwhole right)
      | limit p inside left => exact .limit p inside left

end Whole

end Walk

/-! ## Parses -/

/-- A plain parse that does not reach the limit ends like the one that remembers. -/
theorem Parser.runFrom_remembering {g : Grammar} (hg : g.WellFormed) {start : NodeId}
    {input : List UInt8} {full : Bool} {maxDepth : Nat}
    (hfree : ¬ (Parser.runFrom ⟨g, full, maxDepth, false⟩ start input).ReachesLimit) :
    Parser.runFrom ⟨g, full, maxDepth, true⟩ start input =
      Parser.runFrom ⟨g, full, maxDepth, false⟩ start input := by
  by_cases hstart : g.contains start = true
  · have hwalk : Walk.Outlasts (Walk.Faithful g input.toArray ⟨full, maxDepth, false⟩)
        maxDepth input.toArray.size (Step.Within 0 input.toArray.size)
        (Walk.invoke ⟨g, input.toArray, full, maxDepth, false⟩ maxDepth 1 start 0)
        (Walk.invoke ⟨g, input.toArray, full, maxDepth, true⟩ maxDepth 1 start 0) :=
      Walk.invoke_remembering hg rfl rfl 1 hstart (Nat.zero_le _)
    cases hwalk with
    | answers step found _ left right =>
        rw [Parser.runFrom_of_answers hstart Walk.faithful_empty right,
          Parser.runFrom_of_answers hstart trivial left]
        rfl
    | misuse shape pos _ left right =>
        rw [Parser.runFrom_of_aborts hstart Walk.faithful_empty right,
          Parser.runFrom_of_aborts hstart trivial left]
    | limit pos _ left =>
        rw [Parser.runFrom_of_aborts hstart trivial left] at hfree
        exact absurd trivial hfree
  · rw [Parser.runFrom_of_not_contains hstart, Parser.runFrom_of_not_contains hstart]

/-- Unless the plain parse reaches the depth limit, the parse that remembers ends
in the same outcome. So they can only differ where the plain one is cut off. -/
theorem memoizing_run_eq_plain_run {b : Builder} {root : NodeId} {g : Grammar}
    (hbuild : b.build root = .ok g) (start : NodeId) (input : List UInt8) (full : Bool)
    (maxDepth : Nat) :
    (¬ (Parser.runFrom ⟨g, full, maxDepth, false⟩ start input).ReachesLimit →
      Parser.runFrom ⟨g, full, maxDepth, true⟩ start input =
        Parser.runFrom ⟨g, full, maxDepth, false⟩ start input) ∧
    ((Parser.runFrom ⟨g, full, maxDepth, true⟩ start input).ReachesLimit →
      (Parser.runFrom ⟨g, full, maxDepth, false⟩ start input).ReachesLimit) := by
  have hg := Builder.wellFormed_of_build hbuild
  refine ⟨Parser.runFrom_remembering hg, fun hlimit => Classical.byContradiction fun hfree => ?_⟩
  rw [Parser.runFrom_remembering hg hfree] at hlimit
  exact hfree hlimit

/-- Two alternatives that begin with the same byte. -/
def sharedPrefix : NodeId × Builder :=
  Id.run <| StateT.run (do
    let a ← Builder.literal 0x61
    let b ← Builder.literal 0x62
    let c ← Builder.literal 0x63
    let ab ← Builder.sequence [a, b]
    let ac ← Builder.sequence [a, c]
    Builder.choice [ab, ac]) (Builder.new 0)

def sharedPrefixGrammar : Grammar :=
  ⟨sharedPrefix.2.arena, sharedPrefix.2.nodes, sharedPrefix.2.names, sharedPrefix.1⟩

/-- The second alternative is told `a` from memory, and its own failure is the one
reported. -/
theorem memoizing_run_eq_plain_run_shared_prefix :
    sharedPrefix.2.build sharedPrefix.1 = .ok sharedPrefixGrammar ∧
    ¬ (Parser.runFrom ⟨sharedPrefixGrammar, false, 8, false⟩ sharedPrefix.1
        [0x61, 0x78]).ReachesLimit ∧
    Parser.runFrom ⟨sharedPrefixGrammar, false, 8, true⟩ sharedPrefix.1 [0x61, 0x78] =
      .error (.located (.literalMismatch 0x63 0x78) 1) := by
  have hbuild : sharedPrefix.2.build sharedPrefix.1 = .ok sharedPrefixGrammar := rfl
  have hplain : Parser.runFrom ⟨sharedPrefixGrammar, false, 8, false⟩ sharedPrefix.1
      [0x61, 0x78] = .error (.located (.literalMismatch 0x63 0x78) 1) := rfl
  have hfree : ¬ (Parser.runFrom ⟨sharedPrefixGrammar, false, 8, false⟩ sharedPrefix.1
      [0x61, 0x78]).ReachesLimit := by
    rw [hplain]
    exact id
  refine ⟨hbuild, hfree, ?_⟩
  rw [(memoizing_run_eq_plain_run hbuild sharedPrefix.1 [0x61, 0x78] false 8).1 hfree, hplain]

end Packrat
