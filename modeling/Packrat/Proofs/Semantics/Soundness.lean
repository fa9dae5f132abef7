import Packrat.Proofs.Semantics.Adequacy
import Packrat.Proofs.Walk.Effects

/-!
# What a walk answers is what its node yields

The plain walk computes the meaning, level by level. A walk that remembers needs
fewer levels than that: it may answer where the plain walk, with as many levels
allowed, is cut off. So its answers are compared here with the meaning itself, of
which no level is asked. As long as the memory holds nothing but what nodes yield,
any walk that answers, answers what its node yields, and leaves such a memory
behind.

The comparison takes a way of trying nodes that knows the meaning, the `oracle`. It
is no program, but the program of a node over it decides the node's rules, and a
walk that answers over another way of trying answers the same over this one.
-/

namespace Packrat.Semantics

open Walk

variable {g : Grammar} {input : Array UInt8}

/-! ## The oracle -/

open Classical in
/-- Answers at once what a node yields, and gives up where it yields nothing. -/
noncomputable def oracle (g : Grammar) (input : Array UInt8) (id : NodeId) (pos : Nat) :
    Walk Step :=
  if h : ∃ step, Yields g input id pos step then return h.choose
  else throw (.located (.recursionLimit 0) pos)

theorem oracle_answers (hg : g.WellFormed) {id : NodeId} {pos : Nat} {step : Step}
    (hid : g.contains id = true) (hpos : pos ≤ input.size) (h : Yields g input id pos step) :
    Answers Unread (oracle g input id pos) step none := by
  have hyields : ∃ step, Yields g input id pos step := ⟨step, h⟩
  have hstep : hyields.choose = step := hyields.choose_spec.unique hg hid hpos h
  rw [oracle, dif_pos hyields, hstep]
  exact Answers.pure step

theorem oracle_decides (hg : g.WellFormed) {id : NodeId} {pos : Nat}
    (hid : g.contains id = true) (hpos : pos ≤ input.size) :
    Decides (oracle g input id pos) (Yields g input id pos) := by
  by_cases hyields : ∃ step, Yields g input id pos step
  · obtain ⟨step, hstep⟩ := hyields
    refine .answers step none (oracle_answers hg hid hpos hstep) fun other => ?_
    constructor
    · exact fun hother => hother.unique hg hid hpos hstep
    · rintro rfl
      exact hstep
  · refine .aborts (.located (.recursionLimit 0) pos) ?_ fun step hstep => hyields ⟨step, hstep⟩
    rw [oracle, dif_neg hyields]
    exact Aborts.throw _

theorem Yields.within (hg : g.WellFormed) {id : NodeId} {pos : Nat} {step : Step}
    (hid : g.contains id = true) (hpos : pos ≤ input.size) (h : Yields g input id pos step) :
    step.Within pos input.size := by
  obtain ⟨n, hn⟩ := yields_iff_yieldsWithin.mp h
  have hdecides : Decides (invoke ⟨g, input, .standard⟩ n 0 id pos)
      (YieldsWithin g input n id pos) := decides_invoke hg rfl 0 hid hpos
  obtain ⟨found, hrun⟩ := hdecides.answers_iff.mpr hn
  exact step_within hg rfl hid hpos hrun

theorem contains_of_yieldsWithin {levels : Nat} {id : NodeId} {pos : Nat} {step : Step}
    (h : YieldsWithin g input levels id pos step) : g.contains id = true := by
  cases levels with
  | zero => exact h.elim
  | succ levels =>
      obtain ⟨node, hnode, _⟩ := h
      exact Grammar.contains_of_node?_eq_some hnode

/-- The program of a node over the oracle decides what the node yields. -/
theorem answer_oracle_decides (hg : g.WellFormed) {config : Config} {id : NodeId} {node : Node}
    {pos : Nat} (hnode : g.node? id = some node) (hpos : pos ≤ input.size) :
    Decides (answer ⟨g, input, config⟩ (oracle g input) id pos)
      (Rule input (Yields g input) node pos) := by
  have hmem := Grammar.mem_of_node?_eq_some hnode
  have hchild := hg.children_mem node hmem
  refine decides_answer hnode (fun heq => hg.bound (heq ▸ hmem))
    (fun members keep heq => hg.keep_lt members keep (heq ▸ hmem)) hpos ⟨?_, ?_⟩
  · exact fun child hin p _ hp => oracle_decides hg (hchild child hin) hp
  · exact fun child hin p _ hp step hstep => hstep.within hg (hchild child hin) hp

/-! ## Walks that say nothing else -/

/-- The memory holds nothing but what nodes yield. -/
def Yielded (g : Grammar) (input : Array UInt8) (memory : Memory) : Prop :=
  ∀ index pos step found, memory[(index, pos)]? = some (step, found) →
    Yields g input ⟨g.arena, index⟩ pos step

theorem yielded_empty : Yielded g input ∅ := by
  intro index pos step found h
  rw [Std.HashMap.getElem?_empty] at h
  cases h

theorem Yielded.entry {memory : Memory} (h : Yielded g input memory) {id : NodeId} {pos : Nat}
    (hid : g.contains id = true) {step : Step} {found : Option Failure}
    (hentry : memory[(id.index, pos)]? = some (step, found)) : Yields g input id pos step := by
  rw [Grammar.eq_of_contains hid]
  exact h _ _ _ _ hentry

theorem Yielded.insert {memory : Memory} (h : Yielded g input memory) {id : NodeId} {pos : Nat}
    (hid : g.contains id = true) {step : Step} (hstep : Yields g input id pos step)
    (found : Option Failure) :
    Yielded g input (memory.insert (id.index, pos) (step, found)) := by
  intro index pos' step' found' hentry
  rw [Std.HashMap.getElem?_insert] at hentry
  split at hentry
  · next hkey =>
      rw [beq_iff_eq] at hkey
      cases hkey
      cases hentry
      rw [← Grammar.eq_of_contains hid]
      exact hstep
  · exact h index pos' step' found' hentry

/-- Where the memory is sound and `y` answers, `x` answers the same. -/
def Confirms (I : Memory → Prop) {α : Type} (Q : α → Prop) (x y : Walk α) : Prop :=
  ∀ s, I s.memo → ∀ a s', y s = .ok a s' →
    (∃ found, Answers Unread x a found) ∧ Q a ∧ I s'.memo

theorem confirms_congruence (I : Memory → Prop) (size : Nat) :
    Congruence size (Confirms I) where
  pure hQ := by
    intro s hs b s' hrun
    cases hrun
    exact ⟨⟨none, Answers.pure _⟩, hQ, hs⟩
  offer _ _ := by
    intro s hs b s' hrun
    cases hrun
    exact ⟨⟨_, Answers.offer _⟩, trivial, hs⟩
  invalidLength _ := by
    intro s _ b s' hrun
    cases hrun
  bind := by
    intro α β P Q x y f k hxy hfk s hs b s' hrun
    cases hfirst : y s with
    | error e s₁ =>
        rw [bind_of_error hfirst] at hrun
        cases hrun
    | ok a s₁ =>
        rw [bind_of_ok hfirst] at hrun
        obtain ⟨⟨found, hx⟩, ha, hs₁⟩ := hxy s hs a s₁ hfirst
        obtain ⟨⟨found', hf⟩, hb, hs'⟩ := hfk a ha s₁ hs₁ b s' hrun
        exact ⟨⟨_, hx.bind hf⟩, hb, hs'⟩

/-- A walk that answers, with any number of levels allowed and whatever it has found
out before, answers what the oracle answers. -/
theorem invoke_confirms (hg : g.WellFormed) {config : Config} :
    ∀ {allowance : Nat} (depth : Nat) {id : NodeId} {pos : Nat},
      g.contains id = true → pos ≤ input.size →
      Confirms (Yielded g input) (Step.Within pos input.size) (oracle g input id pos)
        (invoke ⟨g, input, config⟩ allowance depth id pos) := by
  intro allowance
  induction allowance with
  | zero => intro depth id pos _ _ s _ step s' hrun; cases hrun
  | succ allowance ih =>
      intro depth id pos hid hpos
      obtain ⟨node, hnode⟩ := Grammar.exists_node_of_contains hid
      have hmem := Grammar.mem_of_node?_eq_some hnode
      have hbound : node ≠ .indirect none := fun heq => hg.bound (heq ▸ hmem)
      have htry : Congruence.Tries (Confirms (Yielded g input)) input.size (oracle g input)
          (invoke ⟨g, input, config⟩ allowance (depth + 1)) node.children pos :=
        fun child hchild p _ hp => ih _ (hg.children_mem node hmem child hchild) hp
      -- the program of the node is run over the oracle and over the walk side by side
      have hanswer : Confirms (Yielded g input) (Step.Within pos input.size)
          (answer ⟨g, input, config⟩ (oracle g input) id pos)
          (answer ⟨g, input, config⟩ (invoke ⟨g, input, config⟩ allowance (depth + 1)) id pos) :=
        (confirms_congruence _ input.size).answer hnode hbound hpos htry
      have hwork : ∀ {s step s'},
          answer ⟨g, input, config⟩ (invoke ⟨g, input, config⟩ allowance (depth + 1)) id pos s
            = .ok step s' → Yielded g input s.memo →
          Yields g input id pos step ∧ Yielded g input s'.memo := by
        intro s step s' hrun hs
        obtain ⟨hfound, _, hs'⟩ := hanswer s hs step s' hrun
        have hrule := (answer_oracle_decides hg hnode hpos).answers_iff.mp hfound
        exact ⟨.node (fun _ _ _ hstep => hstep) hnode hrule, hs'⟩
      intro s hs step s' hrun
      rw [invoke_eq_visit] at hrun
      have hboth : Yields g input id pos step ∧ Yielded g input s'.memo := by
        cases visited hrun with
        | plain _ hrun' =>
            obtain ⟨hstep, hmemo⟩ := hwork hrun' hs
            exact ⟨hstep, hmemo⟩
        | told _ hknown => exact ⟨hs.entry hid hknown, hs⟩
        | found _ _ hrun' =>
            obtain ⟨hstep, hmemo⟩ := hwork hrun' hs
            exact ⟨hstep, hmemo.insert hid hstep _⟩
      obtain ⟨hstep, hmemo⟩ := hboth
      exact ⟨⟨none, oracle_answers hg hid hpos hstep⟩, hstep.within hg hid hpos, hmemo⟩

/-- What is answered is yielded, and what is remembered of it too. -/
theorem invoke_yields (hg : g.WellFormed) {config : Config} {allowance depth : Nat}
    {id : NodeId} {pos : Nat} {step : Step} {s s' : Progress} (hid : g.contains id = true)
    (hpos : pos ≤ input.size) (hs : Yielded g input s.memo)
    (hrun : invoke ⟨g, input, config⟩ allowance depth id pos s = .ok step s') :
    Yields g input id pos step ∧ Yielded g input s'.memo := by
  obtain ⟨hfound, _, hs'⟩ := invoke_confirms hg depth hid hpos s hs step s' hrun
  exact ⟨(oracle_decides hg hid hpos).answers_iff.mp hfound, hs'⟩

/-! ## Effects of whole walks -/

/-- Effects by allowance and depth. A walk has the one of its level if giving up at
the limit does, and if a visit does whose work has the one below. Where more is known of
the nodes that are tried with an allowance, it is passed on from each to its children. -/
theorem invoke_has_where (hg : g.WellFormed) {config : Config} {E : Nat → Nat → Effect}
    (Known : Nat → NodeId → Prop)
    (hknown : ∀ allowance id child, Known (allowance + 1) id → g.Child id child →
      Known allowance child)
    (hE : ∀ allowance depth, (E allowance depth).Composes input.size)
    (hlimit : ∀ depth id pos s, Known 0 id → pos ≤ input.size →
      (E 0 depth).aborts (.located (.recursionLimit config.maxDepth) pos) s s)
    (hvisit : ∀ allowance depth id pos work s r, pos ≤ input.size →
      Has (Yielded g input) (E allowance (depth + 1)) (Step.Within pos input.size) work →
      Yielded g input s.memo → Visited config id pos depth work s r →
      (E (allowance + 1) depth).Covers s r) :
    ∀ {allowance : Nat} (depth : Nat) {id : NodeId} {pos : Nat},
      Known allowance id → g.contains id = true → pos ≤ input.size →
      Has (Yielded g input) (E allowance depth) (Step.Within pos input.size)
        (invoke ⟨g, input, config⟩ allowance depth id pos) := by
  intro allowance
  induction allowance with
  | zero =>
      intro depth id pos hid _ hpos
      exact Has.throw fun s => hlimit depth id pos s hid hpos
  | succ allowance ih =>
      intro depth id pos hid hcontains hpos s hs
      refine ⟨?_, fun step s' hrun => ?_⟩
      · have hwork : Has (Yielded g input) (E allowance (depth + 1)) (Step.Within pos input.size)
            (answer ⟨g, input, config⟩ (invoke ⟨g, input, config⟩ allowance (depth + 1)) id pos) :=
          Has.answer_of_children hg (hE allowance (depth + 1)) hcontains hpos
            fun child p hchild hp =>
              ih _ (hknown allowance id child hid hchild) (hchild.contains hg) hp
        rw [invoke_eq_visit]
        exact hvisit allowance depth id pos _ s _ hpos hwork hs (visited rfl)
      · obtain ⟨hstep, hs'⟩ := invoke_yields hg hcontains hpos hs hrun
        exact ⟨hstep.within hg hcontains hpos, hs'⟩

/-- The same where nothing more is known. -/
theorem invoke_has (hg : g.WellFormed) {config : Config} {E : Nat → Nat → Effect}
    (hE : ∀ allowance depth, (E allowance depth).Composes input.size)
    (hlimit : ∀ depth pos s, pos ≤ input.size →
      (E 0 depth).aborts (.located (.recursionLimit config.maxDepth) pos) s s)
    (hvisit : ∀ allowance depth id pos work s r, pos ≤ input.size →
      Has (Yielded g input) (E allowance (depth + 1)) (Step.Within pos input.size) work →
      Yielded g input s.memo → Visited config id pos depth work s r →
      (E (allowance + 1) depth).Covers s r)
    {allowance : Nat} (depth : Nat) {id : NodeId} {pos : Nat}
    (hid : g.contains id = true) (hpos : pos ≤ input.size) :
    Has (Yielded g input) (E allowance depth) (Step.Within pos input.size)
      (invoke ⟨g, input, config⟩ allowance depth id pos) :=
  invoke_has_where hg (fun _ _ => True) (fun _ _ _ _ _ => trivial) hE
    (fun depth _ pos s _ => hlimit depth pos s) hvisit depth trivial hid hpos

/-! ## Parses -/

/-- What the start node yields within the depth limit is what the parse comes to, with or
without a memory. -/
theorem runFrom_of_yieldsWithin (hg : g.WellFormed) (config : Config) {start : NodeId}
    {input : List UInt8} {step : Step}
    (h : YieldsWithin g input.toArray config.maxDepth start 0 step) :
    ∃ found, Parser.runFrom ⟨g, config⟩ start input =
      Parser.verdict ⟨g, config⟩ input.length step found := by
  have hstart := contains_of_yieldsWithin h
  -- the plain walk answers, and one that remembers answers the same
  obtain ⟨found, hplain⟩ : ∃ found, Answers Unread
      (invoke ⟨g, input.toArray, config.fullConsumption, config.maxDepth, false⟩ config.maxDepth 1
        start 0) step found :=
    (decides_invoke hg rfl 1 hstart (Nat.zero_le _)).answers_iff.mpr h
  refine ⟨found, ?_⟩
  obtain ⟨full, maxDepth, memoize⟩ := config
  cases memoize with
  | false => exact Parser.runFrom_of_answers hstart trivial hplain
  | true =>
      have hwalk : Outlasts (Faithful g input.toArray ⟨full, maxDepth, false⟩) maxDepth
          input.toArray.size (Step.Within 0 input.toArray.size)
          (invoke ⟨g, input.toArray, full, maxDepth, false⟩ maxDepth 1 start 0)
          (invoke ⟨g, input.toArray, full, maxDepth, true⟩ maxDepth 1 start 0) :=
        invoke_remembering hg rfl rfl 1 hstart (Nat.zero_le _)
      cases hwalk with
      | answers step' found' _ left right =>
          obtain ⟨rfl, rfl⟩ := hplain.unique left
          exact Parser.runFrom_of_answers hstart faithful_empty right
      | misuse _ _ _ left _ | limit _ _ left => exact absurd left hplain.not_aborts

end Packrat.Semantics
