import Packrat.Proofs.Semantics.Compounds
import Packrat.Proofs.Semantics.Leaves
import Packrat.Proofs.Semantics.Levels

/-!
# The plain walk computes the meaning

A plain walk that is allowed a number of levels decides what its node yields by
derivations of that many levels: if there is such a derivation, of a match or of a
failure, the walk answers just that step, and if there is none, it gives up.

The proof has one step and one induction. The step says that the program of a node
decides the node's rules if trying its children decides what they yield
(`decides_answer`); the induction is on the levels, and what the walk does to the
depth it counts or to the events plays no part in it.
-/

namespace Packrat.Semantics

open Walk

variable {g : Grammar} {input : Array UInt8} {config : Config}

/-! ## One node -/

section OneNode

variable {call : NodeId → Nat → Walk Step} {R : Judgement} {id : NodeId} {pos : Nat}

theorem leaf_iff_rule {node : Node} (hterminal : node.isTerminal = true) {step : Step} :
    Leaf input node pos step ↔ Rule input R node pos step := by
  constructor
  · exact .leaf
  · intro hrule
    cases hrule with
    | leaf hleaf => exact hleaf
    | _ => cases hterminal

theorem decides_leaf {node : Node} (hnode : g.node? id = some node)
    (hterminal : node.isTerminal = true) :
    Decides (answer ⟨g, input, config⟩ call id pos) (Leaf input node pos) := by
  unfold answer
  simp only [hnode]
  cases node with
  | literal expected => exact decides_literal
  | range low high => exact decides_range
  | set allowed => exact decides_set
  | anyByte => exact decides_anyByte
  | bytes expected => exact decides_byteString
  | unsigned width => exact decides_unsigned
  | signed width => exact decides_signed
  | endOfInput => exact decides_endOfInput
  | epsilon => exact decides_epsilon
  | nothing => exact decides_nothing
  | _ => cases hterminal

theorem Members.length_eq {ids : List NodeId} {tokens : List Token} {stop : Nat}
    (h : Members R ids pos tokens stop) : tokens.length = ids.length := by
  induction h with
  | nil => rfl
  | cons _ _ ih => rw [List.length_cons, List.length_cons, ih]

theorem decides_sequence {nodes : List NodeId} (hnode : g.node? id = some (.sequence nodes))
    (hpos : pos ≤ input.size) (h : Computes call R input.size nodes pos) :
    Decides (answer ⟨g, input, config⟩ call id pos) (Rule input R (.sequence nodes) pos) := by
  unfold answer
  simp only [hnode]
  refine (decides_membersStep (fun tokens => .seq tokens.toList) h hpos).congr fun step => ?_
  constructor
  · rintro (⟨tokens, stop, hmembers, rfl⟩ | ⟨failure, hfails, rfl⟩)
    · exact .sequence hmembers
    · exact .sequence_fails hfails
  · intro hrule
    cases hrule with
    | leaf hleaf => cases hleaf
    | sequence hmembers => exact .inl ⟨_, _, hmembers, rfl⟩
    | sequence_fails hfails => exact .inr ⟨_, hfails, rfl⟩

/-- The kept token is always there, so the default in the program is never used. -/
theorem decides_pick {nodes : List NodeId} {keep : Nat}
    (hnode : g.node? id = some (.pick nodes keep)) (hkeep : keep < nodes.length)
    (hpos : pos ≤ input.size) (h : Computes call R input.size nodes pos) :
    Decides (answer ⟨g, input, config⟩ call id pos) (Rule input R (.pick nodes keep) pos) := by
  unfold answer
  simp only [hnode]
  refine (decides_membersStep (fun tokens => tokens[keep]?.getD .none) h hpos).congr
    fun step => ?_
  constructor
  · rintro (⟨tokens, stop, hmembers, rfl⟩ | ⟨failure, hfails, rfl⟩)
    · have hlt : keep < tokens.length := by
        rw [hmembers.length_eq]
        exact hkeep
      refine .pick hmembers ?_
      simp [List.getElem?_eq_getElem hlt]
    · exact .pick_fails hfails
  · intro hrule
    cases hrule with
    | leaf hleaf => cases hleaf
    | pick hmembers htoken =>
        exact .inl ⟨_, _, hmembers, by simp [htoken]⟩
    | pick_fails hfails => exact .inr ⟨_, hfails, rfl⟩

theorem decides_choice {nodes : List NodeId} (hnode : g.node? id = some (.choice nodes))
    (hpos : pos ≤ input.size) (h : Computes call R input.size nodes pos) :
    Decides (answer ⟨g, input, config⟩ call id pos) (Rule input R (.choice nodes) pos) := by
  unfold answer
  simp only [hnode]
  refine (decides_firstOf hpos h).congr fun step => ?_
  constructor
  · intro hend
    cases step with
    | matched token stop => exact .choice hend
    | failed failure =>
        obtain ⟨rfl, hall⟩ := hend
        exact .choice_fails hall
  · intro hrule
    cases hrule with
    | leaf hleaf => cases hleaf
    | choice hfirst => exact hfirst
    | choice_fails hall => exact ⟨rfl, hall⟩

theorem decides_optional {inner : NodeId} (hnode : g.node? id = some (.optional inner))
    (hinner : Decides (call inner pos) (R inner pos)) :
    Decides (answer ⟨g, input, config⟩ call id pos) (Rule input R (.optional inner) pos) := by
  unfold answer
  simp only [hnode]
  refine Decides.tried hinner (fun _ _ _ => Decides.pure _) (fun _ _ => Decides.pure _)
    fun step => ?_
  constructor
  · rintro (⟨token, stop, hstep, rfl⟩ | ⟨failure, hstep, rfl⟩)
    · exact .optional hstep
    · exact .optional_none hstep
  · intro hrule
    cases hrule with
    | leaf hleaf => cases hleaf
    | optional hstep => exact .inl ⟨_, _, hstep, rfl⟩
    | optional_none hstep => exact .inr ⟨_, hstep, rfl⟩

/-- What an action makes of a match. -/
def ActionEnd (action : Action) (token : Token) (stop : Nat) (step : Step) : Prop :=
  (∃ result, action.apply token = some result ∧ step = .matched result stop) ∨
    action.apply token = none ∧ step = .failed ⟨.actionRejected action.name, stop⟩

theorem decides_action {inner : NodeId} {action : Action}
    (hnode : g.node? id = some (.action inner action))
    (hinner : Decides (call inner pos) (R inner pos)) :
    Decides (answer ⟨g, input, config⟩ call id pos)
      (Rule input R (.action inner action) pos) := by
  unfold answer
  simp only [hnode]
  refine Decides.tried (M := ActionEnd action) hinner (fun token stop _ => ?_)
    (fun _ _ => Decides.pure _) fun step => ?_
  · cases hresult : action.apply token with
    | some result =>
        simp only [hresult]
        refine (Decides.pure _).congr fun step => ?_
        simp [ActionEnd, hresult]
    | none =>
        simp only [hresult]
        refine (Decides.fail _ _).congr fun step => ?_
        simp [ActionEnd, hresult]
  · constructor
    · rintro (⟨token, stop, hstep, ⟨result, hresult, rfl⟩ | ⟨hnone, rfl⟩⟩ |
        ⟨failure, hstep, rfl⟩)
      · exact .action hstep hresult
      · exact .action_rejects hstep hnone
      · exact .action_fails hstep
    · intro hrule
      cases hrule with
      | leaf hleaf => cases hleaf
      | action hstep hresult => exact .inl ⟨_, _, hstep, .inl ⟨_, hresult, rfl⟩⟩
      | action_rejects hstep hnone => exact .inl ⟨_, _, hstep, .inr ⟨hnone, rfl⟩⟩
      | action_fails hstep => exact .inr ⟨_, hstep, rfl⟩

/-- What a lookahead answers whose condition is `holds`. -/
def LookEnd (holds : Prop) (pos : Nat) (step : Step) : Prop :=
  holds ∧ step = .matched .none pos ∨ ¬ holds ∧ step = .failed ⟨.lookaheadFailed, pos⟩

theorem decides_lookahead {inner : NodeId} {positive : Bool}
    (hnode : g.node? id = some (.lookahead inner positive))
    (hinner : Decides (call inner pos) (R inner pos)) :
    Decides (answer ⟨g, input, config⟩ call id pos)
      (Rule input R (.lookahead inner positive) pos) := by
  unfold answer
  simp only [hnode]
  refine Decides.tried (M := fun _ _ => LookEnd (true = positive) pos)
    (F := fun _ => LookEnd (false = positive) pos) hinner
    (fun _ _ _ => Decides.ite (fun _ => Decides.pure _) fun _ => Decides.fail _ _)
    (fun _ _ => Decides.ite (fun _ => Decides.pure _) fun _ => Decides.fail _ _)
    fun step => ?_
  constructor
  · rintro (⟨token, stop, hstep, ⟨rfl, rfl⟩ | ⟨hheld, rfl⟩⟩ |
      ⟨failure, hstep, ⟨rfl, rfl⟩ | ⟨hheld, rfl⟩⟩)
    · exact .followed hstep
    · obtain rfl : positive = false := by simpa using hheld
      exact .notFollowed_fails hstep
    · exact .notFollowed hstep
    · obtain rfl : positive = true := by simpa using hheld
      exact .followed_fails hstep
  · intro hrule
    cases hrule with
    | leaf hleaf => cases hleaf
    | followed hstep => exact .inl ⟨_, _, hstep, .inl ⟨rfl, rfl⟩⟩
    | followed_fails hstep => exact .inr ⟨_, hstep, .inr ⟨Bool.noConfusion, rfl⟩⟩
    | notFollowed hstep => exact .inr ⟨_, hstep, .inl ⟨rfl, rfl⟩⟩
    | notFollowed_fails hstep => exact .inl ⟨_, _, hstep, .inr ⟨Bool.noConfusion, rfl⟩⟩

theorem decides_whitespace {inner : NodeId} (hnode : g.node? id = some (.whitespace inner))
    (hinner : Decides (call inner (pos + blanks input pos)) (R inner (pos + blanks input pos))) :
    Decides (answer ⟨g, input, config⟩ call id pos) (Rule input R (.whitespace inner) pos) := by
  unfold answer
  simp only [hnode]
  refine hinner.congr fun step => ?_
  constructor
  · exact .whitespace blankRun_blanks
  · intro hrule
    cases hrule with
    | leaf hleaf => cases hleaf
    | whitespace hrun hstep => rwa [hrun.unique blankRun_blanks] at hstep

theorem decides_indirect {target : NodeId}
    (hnode : g.node? id = some (.indirect (some target)))
    (htarget : Decides (call target pos) (R target pos)) :
    Decides (answer ⟨g, input, config⟩ call id pos)
      (Rule input R (.indirect (some target)) pos) := by
  unfold answer
  simp only [hnode]
  refine htarget.congr fun step => ?_
  constructor
  · exact .indirect
  · intro hrule
    cases hrule with
    | leaf hleaf => cases hleaf
    | indirect hstep => exact hstep

/-- The program of a node decides the node's rules, given how to try its children. -/
theorem decides_answer {node : Node} (hnode : g.node? id = some node)
    (hbound : node ≠ .indirect none)
    (hkeep : ∀ members keep, node = .pick members keep → keep < members.length)
    (hpos : pos ≤ input.size) (h : Computes call R input.size node.children pos) :
    Decides (answer ⟨g, input, config⟩ call id pos) (Rule input R node pos) := by
  have hchild : ∀ child ∈ node.children, Decides (call child pos) (R child pos) :=
    fun child hmem => h.decides child hmem pos (Nat.le_refl pos) hpos
  cases node with
  | sequence nodes => exact decides_sequence hnode hpos h
  | pick nodes keep => exact decides_pick hnode (hkeep nodes keep rfl) hpos h
  | choice nodes => exact decides_choice hnode hpos h
  | optional inner => exact decides_optional hnode (hchild inner List.mem_cons_self)
  | action inner action => exact decides_action hnode (hchild inner List.mem_cons_self)
  | lookahead inner positive => exact decides_lookahead hnode (hchild inner List.mem_cons_self)
  | whitespace inner =>
      exact decides_whitespace hnode (h.decides inner List.mem_cons_self _
        (Nat.le_add_right pos _) (Congruence.add_blanks_le hpos))
  | indirect target =>
      cases target with
      | none => exact absurd rfl hbound
      | some target => exact decides_indirect hnode (hchild target List.mem_cons_self)
  | repeated inner min max =>
      unfold answer
      simp only [hnode]
      exact decides_repeated h hpos
  | sepBy inner separator min =>
      unfold answer
      simp only [hnode]
      exact decides_sepBy h hpos
  | lengthValue length element =>
      unfold answer
      simp only [hnode]
      cases element with
      | byte => exact decides_lengthBytes h hpos
      | node node => exact decides_lengthNodes h hpos
  | _ => exact (decides_leaf hnode rfl).congr fun _ => leaf_iff_rule rfl

end OneNode

/-! ## Whole walks -/

section WholeWalks

theorem step_within (hg : g.WellFormed) (hplain : config.memoize = false) {levels depth : Nat}
    {id : NodeId} {pos : Nat} {step : Step} {found : Option Failure}
    (hid : g.contains id = true) (hpos : pos ≤ input.size)
    (h : Answers Unread (invoke ⟨g, input, config⟩ levels depth id pos) step found) :
    step.Within pos input.size := by
  cases invoke_outlasts hg hplain hplain depth depth (Nat.le_refl levels) hid hpos with
  | answers step' found' post left _ =>
      rw [(h.unique left).1]
      exact post
  | misuse shape p _ left _ => exact absurd left h.not_aborts
  | limit p _ left => exact absurd left h.not_aborts

theorem decides_invoke (hg : g.WellFormed) (hplain : config.memoize = false) :
    ∀ {levels : Nat} (depth : Nat) {id : NodeId} {pos : Nat},
      g.contains id = true → pos ≤ input.size →
      Decides (invoke ⟨g, input, config⟩ levels depth id pos)
        (YieldsWithin g input levels id pos) := by
  intro levels
  induction levels with
  | zero =>
      intro depth id pos _ _
      exact Decides.throw _
  | succ levels ih =>
      intro depth id pos hid hpos
      obtain ⟨node, hnode⟩ := Grammar.exists_node_of_contains hid
      have hmem := Grammar.mem_of_node?_eq_some hnode
      have hchild : ∀ child ∈ node.children, g.contains child = true :=
        fun child hchild => hg.children_mem node hmem child hchild
      -- a walk ends inside the input, so what it decides does too
      have htry : Computes (invoke ⟨g, input, config⟩ levels (depth + 1))
          (YieldsWithin g input levels) input.size node.children pos := by
        constructor
        · exact fun child hmem p _ hp => ih (depth + 1) (hchild child hmem) hp
        · intro child hmem p _ hp step hstep
          obtain ⟨found, hrun⟩ := (ih (depth + 1) (hchild child hmem) hp).answers_iff.mpr hstep
          exact step_within hg hplain (hchild child hmem) hp hrun
      have hbound : node ≠ .indirect none := fun heq => hg.bound (heq ▸ hmem)
      have hkeep : ∀ members keep, node = .pick members keep → keep < members.length :=
        fun members keep heq => hg.keep_lt members keep (heq ▸ hmem)
      have hanswer : Decides
          (answer ⟨g, input, config⟩ (invoke ⟨g, input, config⟩ levels (depth + 1)) id pos)
          (Rule input (YieldsWithin g input levels) node pos) :=
        decides_answer hnode hbound hkeep hpos htry
      simp only [invoke, hplain, Bool.false_eq_true, if_false]
      refine (hanswer.around _ _).congr fun step => ?_
      constructor
      · exact fun hrule => ⟨node, hnode, hrule⟩
      · rintro ⟨node', hnode', hrule⟩
        rw [hnode] at hnode'
        cases hnode'
        exact hrule

theorem Yields.unique (hg : g.WellFormed) {id : NodeId} {pos : Nat} {step step' : Step}
    (hid : g.contains id = true) (hpos : pos ≤ input.size) (h : Yields g input id pos step)
    (h' : Yields g input id pos step') : step = step' := by
  -- one walk with levels enough for both derivations decides them
  obtain ⟨n, hn⟩ := yields_iff_yieldsWithin.mp h
  obtain ⟨m, hm⟩ := yields_iff_yieldsWithin.mp h'
  have hdecides : Decides (invoke ⟨g, input, .standard⟩ (max n m) 0 id pos) _ :=
    decides_invoke hg rfl 0 hid hpos
  exact hdecides.unique (hn.mono (Nat.le_max_left n m)) (hm.mono (Nat.le_max_right n m))

/-- A walk that gives up does so at the limit, or over a length, and then nothing
is yielded at any height. -/
theorem gives_up_cases (hg : g.WellFormed) (hplain : config.memoize = false)
    {levels depth : Nat} {id : NodeId} {pos : Nat} {e : Error} (hid : g.contains id = true)
    (hpos : pos ≤ input.size)
    (h : Aborts Unread (invoke ⟨g, input, config⟩ levels depth id pos) e) :
    (∃ p ≤ input.size, e = .located (.recursionLimit config.maxDepth) p) ∨
      ∃ shape, ∃ p ≤ input.size, e = .located (.invalidLength shape) p ∧
        ∀ step, ¬ Yields g input id pos step := by
  cases invoke_outlasts hg hplain hplain depth depth (Nat.le_refl levels) hid hpos with
  | answers step found _ left _ => exact absurd h left.not_aborts
  | limit p hp left => exact .inl ⟨p, hp, h.unique left⟩
  | misuse shape p hp left _ =>
      refine .inr ⟨shape, p, hp, h.unique left, fun step hstep => ?_⟩
      obtain ⟨n, hn⟩ := yields_iff_yieldsWithin.mp hstep
      have hle := Nat.le_max_left levels n
      have hmisuse := Aborts.mono hg hplain hplain depth hle hid hpos left
      obtain ⟨found, hrun⟩ := (decides_invoke hg hplain depth hid hpos).answers_iff.mpr
        (hn.mono (Nat.le_max_right levels n))
      exact hrun.not_aborts hmisuse

end WholeWalks

/-! ## The plain walk and the meaning -/

/-- The plain walk of a built grammar, with `levels` levels allowed, answers what
the node yields by derivations of at most that many levels, and nothing else. The
levels together give all that the node yields, which is one step at most. What is
yielded, but only higher up, ends the walk at the depth limit. The one other way to
give up is a length that is none, and then the node yields nothing. -/
theorem plain_walk_computes_yields {b : Builder} {root : NodeId} {g : Grammar}
    (hbuild : b.build root = .ok g) {config : Config} (hplain : config.memoize = false)
    {input : Array UInt8} {id : NodeId} {pos : Nat} (hid : g.contains id = true)
    (hpos : pos ≤ input.size) (levels depth : Nat) (s : Progress) :
    (∀ step, (∃ s', invoke ⟨g, input, config⟩ levels depth id pos s = .ok step s') ↔
        YieldsWithin g input levels id pos step) ∧
      (∀ step, Yields g input id pos step ↔ ∃ n, YieldsWithin g input n id pos step) ∧
      (∀ step step', Yields g input id pos step → Yields g input id pos step' → step = step') ∧
      (∀ step, Yields g input id pos step → ¬ YieldsWithin g input levels id pos step →
        ∃ p ≤ input.size, ∃ s', invoke ⟨g, input, config⟩ levels depth id pos s =
          .error (.located (.recursionLimit config.maxDepth) p) s') ∧
      ∀ e s', invoke ⟨g, input, config⟩ levels depth id pos s = .error e s' →
        (∃ p ≤ input.size, e = .located (.recursionLimit config.maxDepth) p) ∨
          ∃ shape, ∃ p ≤ input.size, e = .located (.invalidLength shape) p ∧
            ∀ step, ¬ Yields g input id pos step := by
  have hg := Builder.wellFormed_of_build hbuild
  have hunique : ∀ step step', Yields g input id pos step → Yields g input id pos step' →
      step = step' := fun _ _ h h' => h.unique hg hid hpos h'
  have hdecides : Decides (invoke ⟨g, input, config⟩ levels depth id pos)
      (YieldsWithin g input levels id pos) := decides_invoke hg hplain depth hid hpos
  cases hdecides with
  | answers answer found run holds =>
      obtain ⟨after, hrun, _, _⟩ := run s trivial
      have hanswer : YieldsWithin g input levels id pos answer := (holds answer).mpr rfl
      refine ⟨fun step => ?_, fun _ => yields_iff_yieldsWithin, hunique, ?_, ?_⟩
      · rw [holds step, hrun]
        constructor
        · rintro ⟨s', heq⟩
          cases heq
          rfl
        · rintro rfl
          exact ⟨after, rfl⟩
      · intro step hstep hlow
        rw [hunique step answer hstep (yields_of_yieldsWithin hanswer)] at hlow
        exact absurd hanswer hlow
      · intro e s' heq
        rw [hrun] at heq
        cases heq
  | aborts e run fails =>
      obtain ⟨after, hrun⟩ := run s trivial
      have hcases := gives_up_cases hg hplain hid hpos run
      refine ⟨fun step => ?_, fun _ => yields_iff_yieldsWithin, hunique, ?_, ?_⟩
      · rw [hrun]
        constructor
        · rintro ⟨s', heq⟩
          cases heq
        · exact fun h => absurd h (fails step)
      · intro step hstep _
        rcases hcases with ⟨p, hp, rfl⟩ | ⟨_, _, _, _, hnothing⟩
        · exact ⟨p, hp, after, hrun⟩
        · exact absurd hstep (hnothing step)
      · intro e' s' heq
        rw [hrun] at heq
        cases heq
        exact hcases

/-- Pairs of parentheses, each inside the one before. -/
def nested : NodeId × Builder :=
  Id.run <| StateT.run (do
    let inner ← Builder.indirect
    let opening ← Builder.literal 0x28
    let closing ← Builder.literal 0x29
    let pair ← Builder.middle opening inner closing
    let any ← Builder.optional pair
    let _ ← Builder.define inner any
    return any) (Builder.new 0)

def nestedGrammar : Grammar := ⟨nested.2.arena, nested.2.nodes, nested.2.names, nested.1⟩

theorem nested_root : nested.1 = ⟨0, 4⟩ := rfl

theorem nestedGrammar_eq :
    nestedGrammar = ⟨0, #[.indirect (some ⟨0, 4⟩), .literal 0x28, .literal 0x29,
      .pick [⟨0, 1⟩, ⟨0, 0⟩, ⟨0, 2⟩] 1, .optional ⟨0, 3⟩], [], ⟨0, 4⟩⟩ :=
  rfl

/-- The innermost attempt, which fails, is what takes the sixth level. -/
theorem plain_walk_computes_yields_nested :
    nested.2.build nested.1 = .ok nestedGrammar ∧
    YieldsWithin nestedGrammar #[0x28, 0x29] 6 nested.1 0 (.matched .none 2) ∧
    ¬ YieldsWithin nestedGrammar #[0x28, 0x29] 5 nested.1 0 (.matched .none 2) := by
  have hbuild : nested.2.build nested.1 = .ok nestedGrammar := rfl
  have hwalk : ∀ levels, (∃ s', invoke ⟨nestedGrammar, #[0x28, 0x29], .standard⟩ levels 1
      nested.1 0 ⟨none, ∅, #[]⟩ = .ok (.matched .none 2) s') ↔
        YieldsWithin nestedGrammar #[0x28, 0x29] levels nested.1 0 (.matched .none 2) :=
    fun levels =>
      (plain_walk_computes_yields hbuild rfl rfl (Nat.zero_le _) levels 1 _).1 _
  refine ⟨hbuild, (hwalk 6).mp ⟨_, rfl⟩, fun h => ?_⟩
  obtain ⟨s', hrun⟩ := (hwalk 5).mpr h
  cases hrun

end Packrat.Semantics
