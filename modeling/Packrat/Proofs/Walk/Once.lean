import Packrat.Proofs.Walk.Orderly

/-!
# With memory, each node is evaluated once at each position

The memory learns an answer only after it was found, so it does not keep a node from
being entered again at the same position from inside. What does is the meaning. A node
that yields a step has a lowest derivation of it, and all that is tried to find the
step has lower ones; so the node itself is not among it.

The memory also answers sooner than a derivation goes, which is why a walk that
remembers cannot be asked for levels. It is compared with the plain walk at its side
that has just the levels of the lowest derivation. That one is the guide: it tries the
same nodes, and nothing it tries has more levels than it has itself.
-/

namespace Packrat

namespace Walk

/-! ## Guides -/

/-- The plain walk `x` guides `y`: if it answers, and `y` answers from a sound memory,
the answer is the same, and `y` has the effect. -/
inductive Guides (I : Memory → Prop) (E : Effect) {α : Type} (Q : α → Prop) (x y : Walk α) :
    Prop where
  | answers (a : α) (found : Option Failure) (post : Q a) (left : Answers Unread x a found)
      (right : ∀ {s b s'}, I s.memo → y s = .ok b s' → b = a ∧ I s'.memo ∧ E.answers s s')
  | aborts (e : Error) (left : Aborts Unread x e)

theorem guides_congruence {I : Memory → Prop} {E : Effect} {size : Nat}
    (hE : E.Composes size) : Congruence size (Guides I E) where
  pure ha := by
    refine .answers _ none ha (Answers.pure _) fun hs hrun => ?_
    cases hrun
    exact ⟨rfl, hs, hE.refl _⟩
  offer hkind hpos := by
    refine .answers () _ trivial (Answers.offer _) fun hs hrun => ?_
    cases hrun
    exact ⟨rfl, hs, hE.offer hkind hpos⟩
  invalidLength _ := .aborts _ (Aborts.throw _)
  bind := by
    intro α β P Q x y f k hxy hfk
    cases hxy with
    | aborts e left => exact .aborts e left.bind
    | answers a found post left right =>
        cases hfk a post with
        | aborts e left' => exact .aborts e (left.bind_aborts left')
        | answers c found' post' left' right' =>
            refine .answers c _ post' (left.bind left') fun {s b s'} hs hrun => ?_
            cases hfirst : y s with
            | error e s₁ =>
                rw [bind_of_error hfirst] at hrun
                cases hrun
            | ok a' s₁ =>
                rw [bind_of_ok hfirst] at hrun
                obtain ⟨rfl, hs₁, heffect⟩ := right hs hfirst
                obtain ⟨rfl, hs', heffect'⟩ := right' hs₁ hrun
                exact ⟨rfl, hs', hE.trans heffect heffect'⟩

/-! ## What a walk recalls -/

/-- The answer of the node at this position is remembered. -/
def Knows (g : Grammar) (memory : Memory) (id : NodeId) (pos : Nat) : Prop :=
  id.arena = g.arena ∧ (id.index, pos) ∈ memory

/-- Trying nodes in order, all of which yield a step by derivations of at most
`levels` levels, and remembering them. -/
def recalls (g : Grammar) (input : Array UInt8) (levels depth : Nat) : Effect where
  answers s s' := Adds (fun word => Visits true depth word ∧
    Orderly g input (Knows g s.memo) word ∧
    (∀ id pos, Entered id pos word →
      pos ≤ input.size ∧ ∃ step, Semantics.YieldsWithin g input levels id pos step) ∧
    ∀ id pos, Knows g s'.memo id pos ↔ Knows g s.memo id pos ∨ Entered id pos word) s s'
  aborts _ _ _ := True

theorem recalls_nothing {g : Grammar} {input : Array UInt8} {levels depth : Nat}
    {s s' : Progress} (hevents : s'.events = s.events) (hmemo : s'.memo = s.memo) :
    (recalls g input levels depth).answers s s' := by
  refine .none hevents ⟨.nil, orderly_nil, fun _ _ h => absurd h not_entered_nil, ?_⟩
  intro id pos
  rw [hmemo, or_iff_left not_entered_nil]

theorem recalls_composes (g : Grammar) (input : Array UInt8) (levels depth size : Nat) :
    (recalls g input levels depth).Composes size where
  refl _ := recalls_nothing rfl rfl
  trans h h' := by
    refine h.append h' fun word word' hword hword' => ?_
    obtain ⟨hvisits, horder, hlevels, hknows⟩ := hword
    obtain ⟨hvisits', horder', hlevels', hknows'⟩ := hword'
    refine ⟨hvisits.append hvisits', horder.append horder' hknows, ?_, ?_⟩
    · intro id pos hentered
      rcases entered_append.mp hentered with hin | hin
      · exact hlevels id pos hin
      · exact hlevels' id pos hin
    · intro id pos
      rw [hknows', hknows, or_assoc, entered_append]
  absorb _ _ := trivial
  offer _ _ := recalls_nothing rfl rfl
  invalidLength _ := trivial

theorem knows_insert {g : Grammar} {memory : Memory} {id : NodeId}
    (hid : g.contains id = true) (pos : Nat) (entry : Step × Option Failure) (id' : NodeId)
    (pos' : Nat) :
    Knows g (memory.insert (id.index, pos) entry) id' pos' ↔
      (id' = id ∧ pos' = pos) ∨ Knows g memory id' pos' := by
  simp only [Knows, Std.HashMap.mem_insert, beq_iff_eq, Prod.mk.injEq]
  have hname := Grammar.eq_of_contains hid
  constructor
  · rintro ⟨harena, ⟨hindex, rfl⟩ | hin⟩
    · left
      rw [hname, hindex, ← harena]
      exact ⟨rfl, rfl⟩
    · exact .inr ⟨harena, hin⟩
  · rintro (⟨rfl, rfl⟩ | ⟨harena, hin⟩)
    · rw [hname]
      exact ⟨rfl, .inl ⟨rfl, rfl⟩⟩
    · exact ⟨harena, .inr hin⟩

/-! ## Whole walks -/

section Whole

open Semantics

variable {g : Grammar} {input : Array UInt8} {plain memoizing : Config}
  {allowance levels depth depth' : Nat} {id : NodeId} {pos : Nat} {step : Step}

theorem exists_lowest (hg : g.WellFormed) (hid : g.contains id = true)
    (hpos : pos ≤ input.size) :
    ∀ {levels : Nat}, YieldsWithin g input levels id pos step →
      ∃ m < levels, YieldsWithin g input (m + 1) id pos step ∧
        ∀ other, ¬ YieldsWithin g input m id pos other := by
  intro levels
  induction levels with
  | zero => intro h; exact h.elim
  | succ levels ih =>
      intro h
      by_cases hlower : ∃ other, YieldsWithin g input levels id pos other
      · obtain ⟨other, hother⟩ := hlower
        have hsame := (yields_of_yieldsWithin hother).unique hg hid hpos (yields_of_yieldsWithin h)
        obtain ⟨m, hm, hrest⟩ := ih (hsame ▸ hother)
        exact ⟨m, Nat.lt_succ_of_lt hm, hrest⟩
      · exact ⟨levels, Nat.lt_succ_self levels, h, fun other hother => hlower ⟨other, hother⟩⟩

/-- A node that was not known, found out by work that recalls lower nodes. -/
theorem recalls_found {s s₀ s₁ s' : Progress} {m : Nat} (hid : g.contains id = true)
    (hpos : pos ≤ input.size) (hunknown : ¬ Knows g s.memo id pos) (hm : m ≤ levels)
    (hstep : YieldsWithin g input levels id pos step)
    (hlowest : ∀ other, ¬ YieldsWithin g input m id pos other)
    (hwork : (recalls g input m (depth + 1)).answers s₀ s₁)
    (hbefore : s₀.events = s.events.push (.enter id pos depth)) (hmemo : s₀.memo = s.memo)
    (hafter : s'.events = s₁.events.push (leaving id pos depth step))
    (hmemo' : ∃ entry, s'.memo = s₁.memo.insert (id.index, pos) entry) :
    (recalls g input levels depth).answers s s' := by
  obtain ⟨entry, hmemo'⟩ := hmemo'
  refine Adds.around hwork hbefore hafter fun inner hinner => ?_
  obtain ⟨hvisits, horder, hlevels, hknows⟩ := hinner
  rw [hmemo] at horder
  -- entered again inside, the node would have a derivation below its lowest
  have hnot : ¬ Entered id pos inner := by
    intro hin
    obtain ⟨_, other, hother⟩ := hlevels id pos hin
    exact hlowest other hother
  have hentered : ∀ id' pos',
      Entered id' pos' (.enter id pos depth :: (inner ++ [leaving id pos depth step])) ↔
        (id' = id ∧ pos' = pos) ∨ Entered id' pos' inner := by
    intro id' pos'
    have hleave : ¬ Entered id' pos' [leaving id pos depth step] :=
      not_entered_of_closes (closes_leaving id pos depth step)
    rw [entered_enter_cons, entered_append, or_iff_left hleave]
  refine ⟨?_, ?_, ?_, ?_⟩
  · exact .one (.evaluated hvisits (closes_leaving id pos depth step))
  · exact orderly_first (yields_of_yieldsWithin hstep) hunknown hvisits horder hnot
  · intro id' pos' hin
    rcases (hentered id' pos').mp hin with ⟨rfl, rfl⟩ | hin
    · exact ⟨hpos, step, hstep⟩
    · obtain ⟨hpos', other, hother⟩ := hlevels id' pos' hin
      exact ⟨hpos', other, hother.mono hm⟩
  · intro id' pos'
    rw [hmemo', knows_insert hid, hknows, hmemo, hentered, or_left_comm]

theorem recalls_told {s s' : Progress} (hpos : pos ≤ input.size)
    (hknown : Knows g s.memo id pos) (hstep : YieldsWithin g input levels id pos step)
    (hevents : s'.events =
      ((s.events.push (.enter id pos depth)).push (.memoHit id pos depth)).push
        (leaving id pos depth step))
    (hmemo : s'.memo = s.memo) :
    (recalls g input levels depth).answers s s' := by
  have hleave := closes_leaving id pos depth step
  have hentered : ∀ id' pos', Entered id' pos'
      [.enter id pos depth, .memoHit id pos depth, leaving id pos depth step] →
        id' = id ∧ pos' = pos := by
    intro id' pos' hin
    rcases entered_enter_cons.mp hin with heq | ⟨depth', hin⟩
    · exact heq
    · rcases List.mem_cons.mp hin with heq | hin
      · cases heq
      · exact absurd ⟨depth', hin⟩ (not_entered_of_closes hleave)
  refine Adds.three hevents ⟨?_, ?_, ?_, ?_⟩
  · exact .one (.told rfl hleave)
  · exact orderly_again (yields_of_yieldsWithin hstep) hknown
  · intro id' pos' hin
    obtain ⟨rfl, rfl⟩ := hentered id' pos' hin
    exact ⟨hpos, step, hstep⟩
  · intro id' pos'
    rw [hmemo]
    constructor
    · exact .inl
    · rintro (hk | hin)
      · exact hk
      · obtain ⟨rfl, rfl⟩ := hentered id' pos' hin
        exact hknown

/-- Work at the side of the plain walk that has just the levels it needs. -/
theorem work_recalls {call : NodeId → Nat → Walk Step} (hg : g.WellFormed)
    (hplain : plain.memoize = false) (hid : g.contains id = true) (hpos : pos ≤ input.size)
    (hcall : ∀ child p, g.contains child = true → p ≤ input.size →
      Guides (Yielded g input) (recalls g input levels depth) (Step.Within p input.size)
        (invoke ⟨g, input, plain⟩ levels (depth' + 1) child p) (call child p))
    (hstep : YieldsWithin g input (levels + 1) id pos step) {s s' : Progress} {other : Step}
    (hrun : Walk.answer ⟨g, input, memoizing⟩ call id pos s = .ok other s')
    (hs : Yielded g input s.memo) :
    (recalls g input levels depth).answers s s' := by
  obtain ⟨node, hnode⟩ := Grammar.exists_node_of_contains hid
  have hmem := Grammar.mem_of_node?_eq_some hnode
  have hbound : node ≠ .indirect none := fun heq => hg.bound (heq ▸ hmem)
  have htry : Congruence.Tries (Guides (Yielded g input) (recalls g input levels depth))
      input.size (invoke ⟨g, input, plain⟩ levels (depth' + 1)) call node.children pos :=
    fun child hchild p _ hp => hcall child p (hg.children_mem node hmem child hchild) hp
  have hguides : Guides (Yielded g input) (recalls g input levels depth)
      (Step.Within pos input.size)
      (Walk.answer ⟨g, input, plain⟩ (invoke ⟨g, input, plain⟩ levels (depth' + 1)) id pos)
      (Walk.answer ⟨g, input, memoizing⟩ call id pos) :=
    (guides_congruence (recalls_composes g input levels depth input.size)).answer
      hnode hbound hpos htry
  cases hguides with
  | answers found _ _ _ right => exact (right hs hrun).2.2
  | aborts e left =>
      -- the plain walk has the levels for this node, so its work does not give up
      obtain ⟨found, hanswers⟩ :=
        (decides_invoke hg hplain depth' hid hpos).answers_iff.mpr hstep
      have hwhole : Aborts Unread (invoke ⟨g, input, plain⟩ (levels + 1) depth' id pos) e := by
        simp only [invoke, hplain, Bool.false_eq_true, if_false]
        exact left.around _ _
      exact absurd hwhole hanswers.not_aborts

/-- A plain walk guides a walk that remembers, whatever the levels of the two. -/
theorem invoke_guides (hg : g.WellFormed) (hplain : plain.memoize = false)
    (hmemo : memoizing.memoize = true) :
    ∀ {allowance : Nat} (levels depth depth' : Nat) {id : NodeId} {pos : Nat},
      g.contains id = true → pos ≤ input.size →
      Guides (Yielded g input) (recalls g input levels depth) (Step.Within pos input.size)
        (invoke ⟨g, input, plain⟩ levels depth' id pos)
        (invoke ⟨g, input, memoizing⟩ allowance depth id pos) := by
  intro allowance
  induction allowance with
  | zero =>
      intro levels depth depth' id pos hid hpos
      have hdecides : Decides (invoke ⟨g, input, plain⟩ levels depth' id pos)
          (YieldsWithin g input levels id pos) := decides_invoke hg hplain depth' hid hpos
      cases hdecides with
      | answers step found run _ =>
          exact .answers step found (step_within hg hplain hid hpos run) run nofun
      | aborts e run _ => exact .aborts e run
  | succ allowance ih =>
      intro levels depth depth' id pos hid hpos
      have hdecides : Decides (invoke ⟨g, input, plain⟩ levels depth' id pos)
          (YieldsWithin g input levels id pos) := decides_invoke hg hplain depth' hid hpos
      cases hdecides with
      | aborts e run _ => exact .aborts e run
      | answers step found run holds =>
          have hstep : YieldsWithin g input levels id pos step := (holds step).mpr rfl
          refine .answers step found (step_within hg hplain hid hpos run) run ?_
          intro s other s' hs hrun
          obtain ⟨hother, hs'⟩ := invoke_yields hg hid hpos hs hrun
          obtain rfl := hother.unique hg hid hpos (yields_of_yieldsWithin hstep)
          refine ⟨rfl, hs', ?_⟩
          have harena : id.arena = g.arena := by rw [Grammar.eq_of_contains hid]
          rw [invoke_eq_visit] at hrun
          cases visited hrun with
          | plain off _ => rw [hmemo] at off; cases off
          | told _ known =>
              have hknown : Knows g s.memo id pos :=
                ⟨harena, Std.HashMap.mem_iff_isSome_getElem?.mpr (by rw [known]; rfl)⟩
              exact recalls_told hpos hknown hstep rfl rfl
          | found _ unknown hrun' =>
              have hunknown : ¬ Knows g s.memo id pos := by
                intro hknown
                have hsome := Std.HashMap.mem_iff_isSome_getElem?.mp hknown.2
                rw [unknown] at hsome
                cases hsome
              -- a guide with more levels than the lowest derivation would do for the answer,
              -- but would not say that what is tried inside has lower derivations
              obtain ⟨m, hm, hlow, hlowest⟩ := exists_lowest hg hid hpos hstep
              have hwork := work_recalls hg hplain hid hpos
                (fun _ _ => ih m (depth + 1) (depth' + 1)) hlow hrun' hs
              exact recalls_found hid hpos hunknown (Nat.le_of_lt hm) hstep hlowest hwork
                rfl rfl rfl ⟨_, rfl⟩

end Whole

end Walk

/-! ## Parses -/

/-- Among the events the node is evaluated once at this position, with this answer: the
first time that it is entered there. Every other time there is a hit instead. -/
structure Once (id : NodeId) (pos : Nat) (step : Step) (word : List Event) : Prop where
  first : ∀ before depth after, word = before ++ .enter id pos depth :: after →
    ¬ Entered id pos before → FoundOut id pos depth step after
  again : ∀ before depth after, word = before ++ .enter id pos depth :: after →
    Entered id pos before → GivenAgain id pos depth step after
  evaluated : (evaluations word).count (id, pos) = 1

section Parses

variable {g : Grammar} {config : Config} {start : NodeId} {input : List UInt8} {word : List Event}

theorem once_of_orderly {known : NodeId → Nat → Prop} (hg : g.WellFormed)
    (h : Orderly g input.toArray known word) (hknown : ∀ id pos, ¬ known id pos)
    {id : NodeId} {pos : Nat} (hid : g.contains id = true) (hpos : pos ≤ input.toArray.size)
    (hentered : Entered id pos word) :
    ∃ step, Semantics.Yields g input.toArray id pos step ∧ Once id pos step word := by
  obtain ⟨depth, hin⟩ := hentered
  obtain ⟨before, after, hword⟩ := List.append_of_mem hin
  obtain ⟨step, hstep, _⟩ := h before id pos depth after hword
  have hsame : ∀ {other}, Semantics.Yields g input.toArray id pos other → other = step :=
    fun hother => hother.unique hg hid hpos hstep
  obtain ⟨hnodup, hmem⟩ := evaluations_from h hknown word [] rfl
  refine ⟨step, hstep, ?_, ?_, ?_⟩
  · intro before' depth' after' hword' hnot
    obtain ⟨other, hother, _, hfirst⟩ := h before' id pos depth' after' hword'
    rw [← hsame hother]
    exact hfirst (not_or.mpr ⟨hknown id pos, hnot⟩)
  · intro before' depth' after' hword' hbefore
    obtain ⟨other, hother, hagain, _⟩ := h before' id pos depth' after' hword'
    rw [← hsame hother]
    exact hagain (.inr hbefore)
  · exact List.count_eq_one_of_mem hnodup ((hmem id pos).mpr ⟨⟨depth, hin⟩, not_entered_nil⟩)

theorem walk_recalls (hg : g.WellFormed) (hmemo : config.memoize = true)
    (hstart : g.contains start = true) {step : Step} {s : Progress}
    (h : Parser.walk ⟨g, config⟩ start input = .ok step s) :
    ∃ levels, (Walk.recalls g input.toArray levels 1).answers ⟨none, ∅, #[]⟩ s := by
  have hrun : Walk.invoke ⟨g, input.toArray, config⟩ config.maxDepth 1 start 0
      ⟨none, ∅, #[]⟩ = .ok step s := h
  have hpos : 0 ≤ input.toArray.size := Nat.zero_le _
  obtain ⟨hstep, _⟩ := Semantics.invoke_yields hg hstart hpos Semantics.yielded_empty hrun
  obtain ⟨levels, hlevels⟩ := Semantics.yields_iff_yieldsWithin.mp hstep
  have hdecides : Semantics.Decides
      (Walk.invoke ⟨g, input.toArray, Config.standard⟩ levels 1 start 0)
      (Semantics.YieldsWithin g input.toArray levels start 0) :=
    Semantics.decides_invoke hg rfl 1 hstart hpos
  obtain ⟨found, hanswers⟩ := hdecides.answers_iff.mpr hlevels
  have hguides : Walk.Guides (Semantics.Yielded g input.toArray)
      (Walk.recalls g input.toArray levels 1) (Step.Within 0 input.toArray.size)
      (Walk.invoke ⟨g, input.toArray, Config.standard⟩ levels 1 start 0)
      (Walk.invoke ⟨g, input.toArray, config⟩ config.maxDepth 1 start 0) :=
    Walk.invoke_guides hg rfl hmemo levels 1 1 hstart hpos
  cases hguides with
  | answers _ _ _ _ right => exact ⟨levels, (right Semantics.yielded_empty hrun).2.2⟩
  | aborts e left => exact absurd left hanswers.not_aborts

/-- A parse that remembers, and does not end in a fatal error, evaluates each node at
most once at each position. -/
theorem evaluates_once {b : Builder} {root : NodeId} (hbuild : b.build root = .ok g)
    (hmemo : config.memoize = true) (hstart : g.contains start = true)
    (hend : ∀ e, Parser.runFrom ⟨g, config⟩ start input = .error e → e.isFatal = false) :
    ∃ word, (Parser.watch ⟨g, config⟩ start input).2 =
        .start start input.length ::
          (word ++ [.finish (Parser.runFrom ⟨g, config⟩ start input)]) ∧
      (∀ id pos, Entered id pos word →
        ∃ step, Semantics.Yields g input.toArray id pos step ∧ Once id pos step word) ∧
      (evaluations word).length ≤ g.size * (input.length + 1) := by
  have hg := Builder.wellFormed_of_build hbuild
  rw [Parser.runFrom_of_contains hstart] at hend
  rw [Parser.runFrom_of_contains hstart, Parser.watch_of_contains hstart]
  cases hwalk : Parser.walk ⟨g, config⟩ start input with
  | error e s =>
      have hfatal := (Parser.cutsOff_of_walk hg hstart hwalk).isFatal
      rw [hwalk] at hend
      rw [hend e rfl] at hfatal
      cases hfatal
  | ok step s =>
      rw [hwalk] at hend
      obtain ⟨levels, word, hevents, _, horder, hlevels, _⟩ := walk_recalls hg hmemo hstart hwalk
      have hseen : (Parser.seen (.ok step s)).toList = word := hevents
      have hknown : ∀ id pos, ¬ Walk.Knows g ∅ id pos :=
        fun _ _ h => Std.HashMap.not_mem_empty h.2
      have hinside : ∀ id pos, Entered id pos word →
          g.contains id = true ∧ pos ≤ input.toArray.size := by
        intro id pos hentered
        obtain ⟨hpos, other, hother⟩ := hlevels id pos hentered
        exact ⟨Semantics.contains_of_yieldsWithin hother, hpos⟩
      obtain ⟨hnodup, hmem⟩ := evaluations_from horder hknown word [] rfl
      refine ⟨word, ?_, ?_, ?_⟩
      · show _ :: ((Parser.seen (.ok step s)).toList ++ _) = _
        rw [hseen, closing_of_ordinary hend]
      · intro id pos hentered
        obtain ⟨hid, hpos⟩ := hinside id pos hentered
        exact once_of_orderly hg horder hknown hid hpos hentered
      · exact length_evaluations_le hnodup fun id pos hin => hinside id pos ((hmem id pos).mp hin).1

end Parses

/-- The parse of `ac` that remembers its answers ends like the plain one. -/
theorem sharedPrefix_remembers :
    Parser.runFrom ⟨sharedPrefixGrammar, false, 8, true⟩ sharedPrefix.1 [0x61, 0x63] =
      .ok ⟨.seq [.byte 0x61, .byte 0x63], 2⟩ := by
  have hbuild : sharedPrefix.2.build sharedPrefix.1 = .ok sharedPrefixGrammar := rfl
  have hplain : Parser.runFrom ⟨sharedPrefixGrammar, false, 8, false⟩ sharedPrefix.1
      [0x61, 0x63] = .ok ⟨.seq [.byte 0x61, .byte 0x63], 2⟩ := rfl
  have hfree : ¬ (Parser.runFrom ⟨sharedPrefixGrammar, false, 8, false⟩ sharedPrefix.1
      [0x61, 0x63]).ReachesLimit := by
    rw [hplain]
    exact id
  rw [Parser.runFrom_remembering (Builder.wellFormed_of_build hbuild) hfree, hplain]

/-- The byte that both alternatives begin with is evaluated once. -/
theorem evaluates_once_shared_prefix :
    sharedPrefix.2.build sharedPrefix.1 = .ok sharedPrefixGrammar ∧
    sharedPrefixGrammar.contains sharedPrefix.1 = true ∧
    (∀ e, Parser.runFrom ⟨sharedPrefixGrammar, false, 8, true⟩ sharedPrefix.1 [0x61, 0x63] =
      .error e → e.isFatal = false) ∧
    ∃ word, (Parser.watch ⟨sharedPrefixGrammar, false, 8, true⟩ sharedPrefix.1
        [0x61, 0x63]).2 = .start sharedPrefix.1 2 ::
          (word ++ [.finish (.ok ⟨.seq [.byte 0x61, .byte 0x63], 2⟩)]) ∧
      (∀ id pos, Entered id pos word → ∃ step, Once id pos step word) ∧
      (evaluations word).length ≤ 6 * 3 := by
  have hbuild : sharedPrefix.2.build sharedPrefix.1 = .ok sharedPrefixGrammar := rfl
  have hstart : sharedPrefixGrammar.contains sharedPrefix.1 = true := rfl
  have hend : ∀ e, Parser.runFrom ⟨sharedPrefixGrammar, false, 8, true⟩ sharedPrefix.1
      [0x61, 0x63] = .error e → e.isFatal = false := by
    rw [sharedPrefix_remembers]
    nofun
  obtain ⟨word, hevents, honce, hlength⟩ := evaluates_once hbuild rfl hstart hend
  rw [sharedPrefix_remembers] at hevents
  refine ⟨hbuild, hstart, hend, word, hevents, fun id pos hin => ?_, hlength⟩
  obtain ⟨step, _, hstep⟩ := honce id pos hin
  exact ⟨step, hstep⟩

end Packrat
