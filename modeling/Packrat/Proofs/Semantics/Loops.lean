import Packrat.Proofs.Explain.Hearing
import Packrat.Proofs.Semantics.Occasions
import Packrat.Proofs.Walk.Metered
import Packrat.Proofs.Walk.Triples

/-!
# How much a loop takes

A repetition goes on as long as its element matches, and an element may match without
consuming anything. What keeps the loop short is that such a match ends it once there
are enough. So each token but the last has consumed something or was needed for the
least number, and a list of elements and separators is short for the same reason. How
many tokens there are is read off the rules, since a yielded step never stops before
its start.

How often the element is tried is not said by the rules, but by the events. Whatever an
element does is told a level deeper, so the tries of a node's children are the nodes
that were entered one level below it. Each of them puts one token into the list or ends
the loop.
-/

namespace Packrat

/-- How many tokens a loop has collected that answers so. -/
def Step.collected? : Step → Option Nat
  | .matched (.seq tokens) _ => some tokens.length
  | .failed ⟨.repetitionUnsatisfied _ count, _⟩ => some count
  | _ => none

/-! ## Tries at a depth -/

/-- The event is the entering of a node at this depth. -/
def Event.enters (depth : Nat) : Event → Bool
  | .enter _ _ found => found == depth
  | _ => false

/-- How many nodes are tried at a depth. -/
def tries (depth : Nat) (word : List Event) : Nat := word.countP (Event.enters depth)

theorem tries_append {depth : Nat} {word later : List Event} :
    tries depth (word ++ later) = tries depth word + tries depth later :=
  List.countP_append

theorem Closes.not_enters {id : NodeId} {pos depth low : Nat} {exit : Event}
    (h : Closes id pos depth exit) : exit.enters low = false := by
  cases h <;> rfl

theorem tries_around {id : NodeId} {pos depth low : Nat} {inner : List Event} {exit : Event}
    (h : Closes id pos depth exit) :
    tries low (.enter id pos depth :: (inner ++ [exit])) =
      tries low inner + if depth == low then 1 else 0 := by
  have hexit : tries low [exit] = 0 := by simp [tries, h.not_enters]
  rw [tries, List.countP_cons, ← tries, tries_append, hexit]
  rfl

theorem tries_told {id : NodeId} {pos depth low : Nat} {exit : Event}
    (h : Closes id pos depth exit) :
    tries low [.enter id pos depth, .memoHit id pos depth, exit] =
      if depth == low then 1 else 0 := by
  have haround : tries low (.enter id pos depth :: ([.memoHit id pos depth] ++ [exit])) =
      0 + if depth == low then 1 else 0 := tries_around h
  exact haround.trans (Nat.zero_add _)

/-- All that is inside a node is deeper than the node. -/
theorem Visits.tries_eq_zero {memoize : Bool} {depth : Nat} {word : List Event}
    (h : Visits memoize depth word) : ∀ low < depth, tries low word = 0 := by
  have hbelow := Visits.induct (P := fun depth word => ∀ low < depth, tries low word = 0)
    (fun _ _ _ => rfl) ?_ (fun _ _ _ _ _ => rfl) ?_ h
  · exact hbelow
  · intro depth word later _ _ hword hlater low hlow
    rw [tries_append, hword low hlow, hlater low hlow]
  · intro id pos depth inner exit _ hinner hexit low hlow
    rw [tries_around hexit, hinner low (Nat.lt_succ_of_lt hlow), if_neg]
    simpa using Nat.ne_of_gt hlow

/-- A visit is one try at its depth. -/
theorem Visit.tries_eq_one {memoize : Bool} {id : NodeId} {pos depth : Nat} {word : List Event}
    (h : Visit memoize id pos depth word) : tries depth word = 1 := by
  cases h with
  | evaluated hinner hexit =>
      rw [tries_around hexit, hinner.tries_eq_zero depth (Nat.lt_succ_self depth),
        if_pos (beq_self_eq_true depth)]
  | told _ hexit => rw [tries_told hexit, if_pos (beq_self_eq_true depth)]

namespace Semantics

open Walk

variable {g : Grammar} {input : Array UInt8} {R : Judgement} {id element separator : NodeId}
  {min count pos stop size : Nat} {max : Option Nat} {tokens : List Token} {step : Step}

/-! ## Tokens -/

/-- Rounds that go on have moved on or were needed. -/
theorem Rounds.length_le (h : Rounds R element min max count pos tokens stop)
    (hwithin : ∀ p step, p ≤ size → R element p step → step.Within p size) :
    pos ≤ size → tokens.length ≤ (Nat.max min 1 - 1 - count) + (size - pos) + 1 := by
  have hmin : min ≤ Nat.max min 1 := Nat.le_max_left min 1
  induction h with
  | full | fails => intro _; exact Nat.zero_le _
  | stalls => intro _; exact Nat.le_add_left 1 _
  | round _ hstep hgo _ ih =>
      intro hpos
      obtain ⟨hle, hsize⟩ := hwithin _ _ hpos hstep
      have hrest := ih hsize
      rw [List.length_cons]
      omega

/-- There is a round only where the upper bound leaves room. -/
theorem Rounds.length_le_of_max {m : Nat} (h : Rounds R element min max count pos tokens stop)
    (hmax : max = some m) : count ≤ m → count + tokens.length ≤ m := by
  induction h with
  | full | fails => exact id
  | stalls hroom => intro _; exact hroom m hmax
  | round hroom _ _ _ ih =>
      intro _
      have hrest := ih (hroom m hmax)
      rw [List.length_cons]
      omega

/-- Pairs after which there are others have moved on. -/
theorem Pairs.length_le (h : Pairs R element separator pos tokens stop)
    (helement : ∀ p step, p ≤ size → R element p step → step.Within p size)
    (hseparator : ∀ p step, p ≤ size → R separator p step → step.Within p size) :
    pos ≤ size → tokens.length ≤ 1 + (size - pos) := by
  induction h with
  | noSeparator | noElement => intro _; exact Nat.zero_le _
  | stalls => intro _; exact Nat.le_add_right 1 _
  | pair hsep hstep hgo _ ih =>
      intro hpos
      obtain ⟨hnext, hnext'⟩ := hseparator _ _ hpos hsep
      obtain ⟨hafter, hafter'⟩ := helement _ _ hnext' hstep
      have hrest := ih hafter'
      rw [List.length_cons]
      omega

theorem Rule.repeated_collects (h : Rule input R (.repeated element min max) pos step)
    (hwithin : ∀ p step, p ≤ input.size → R element p step → step.Within p input.size)
    (hpos : pos ≤ input.size) :
    ∃ count, step.collected? = some count ∧ count ≤ Nat.max min 1 + (input.size - pos) ∧
      ∀ m, max = some m → count ≤ m := by
  have hbounds : ∀ {tokens stop}, Rounds R element min max 0 pos tokens stop →
      tokens.length ≤ Nat.max min 1 + (input.size - pos) ∧
        ∀ m, max = some m → tokens.length ≤ m := by
    intro tokens stop hrounds
    have hone : 1 ≤ Nat.max min 1 := Nat.le_max_right min 1
    have hlength := hrounds.length_le hwithin hpos
    refine ⟨by omega, fun m hmax => ?_⟩
    have hroom := hrounds.length_le_of_max hmax (Nat.zero_le m)
    omega
  cases h with
  | leaf hleaf => cases hleaf
  | repeated hrounds _ => exact ⟨_, rfl, hbounds hrounds⟩
  | repeated_fails hrounds _ => exact ⟨_, rfl, hbounds hrounds⟩

theorem Rule.sepBy_collects (h : Rule input R (.sepBy element separator min) pos step)
    (helement : ∀ p step, p ≤ input.size → R element p step → step.Within p input.size)
    (hseparator : ∀ p step, p ≤ input.size → R separator p step → step.Within p input.size)
    (hpos : pos ≤ input.size) :
    ∃ count, step.collected? = some count ∧ count ≤ 2 + (input.size - pos) := by
  cases h with
  | leaf hleaf => cases hleaf
  | sepBy hstep hpairs =>
      obtain ⟨hle, hsize⟩ := helement _ _ hpos hstep
      have hlength := hpairs.length_le helement hseparator hsize
      refine ⟨_, rfl, ?_⟩
      rw [List.length_cons]
      omega
  | sepBy_none => exact ⟨0, rfl, Nat.zero_le _⟩
  | sepBy_fails => exact ⟨0, rfl, Nat.zero_le _⟩

/-! ## Tries -/

/-- So many nodes were tried at the depth since `start`. What is remembered are answers. -/
structure SoFar (g : Grammar) (input : Array UInt8) (depth : Nat) (start : Progress)
    (tried : Nat) (s : Progress) : Prop where
  yielded : Yielded g input s.memo
  adds : Adds (fun word => tries depth word = tried) start s

/-- The walk tries one node, and answers from inside the input. -/
def TriesOne (Count : Nat → Progress → Prop) (size : Nat) (pos : Nat) (x : Walk Step) : Prop :=
  ∀ tried, Ensures (Count tried) x fun step s => Count (tried + 1) s ∧ step.Within pos size

theorem invoke_triesOne (hg : g.WellFormed) {config : Config} {allowance depth : Nat}
    {start : Progress} (hid : g.contains id = true) (hpos : pos ≤ input.size) :
    TriesOne (SoFar g input depth start) input.size pos
      (invoke ⟨g, input, config⟩ allowance depth id pos) := by
  intro tried s hs step s' hrun
  obtain ⟨hstep, hyielded⟩ := invoke_yields hg hid hpos hs.yielded hrun
  refine ⟨⟨hyielded, ?_⟩, hstep.within hg hid hpos⟩
  cases allowance with
  | zero => cases hrun
  | succ allowance =>
      have hvisit : (visitAt config.memoize (allowance + 1) id pos depth).Covers s
          (invoke ⟨g, input, config⟩ (allowance + 1) depth id pos s) :=
        invoke_visitAt hg hid hpos hs.yielded
      rw [hrun] at hvisit
      refine hs.adds.append hvisit fun word word' hword hword' => ?_
      rw [tries_append, hword, hword'.1.tries_eq_one]

section Counting

variable {Count : Nat → Progress → Prop} {call : NodeId → Nat → Walk Step}

/-- Each try puts a token into the list or is the last. -/
theorem repetition_tries
    (hcall : ∀ p, p ≤ size → TriesOne Count size p (call element p)) :
    ∀ {budget : Nat} {tokens : Array Token} {cursor tried : Nat}, cursor ≤ size →
      tried ≤ tokens.size →
      Ensures (Count tried) (repetition call element min max budget tokens cursor) fun run s =>
        ∃ tried ≤ run.1.size + 1, Count tried s := by
  intro budget
  induction budget with
  | zero =>
      intro tokens cursor tried _ htried
      exact Ensures.pure fun s hs => ⟨tried, Nat.le_succ_of_le htried, hs⟩
  | succ budget ih =>
      intro tokens cursor tried hcursor htried
      rw [repetition]
      refine Ensures.ite (Ensures.pure fun s hs => ⟨tried, Nat.le_succ_of_le htried, hs⟩) ?_
      refine Ensures.bind (hcall cursor hcursor tried) fun step => ?_
      cases step with
      | failed failure =>
          exact Ensures.pure fun s hs => ⟨tried + 1, Nat.succ_le_succ htried, hs.1⟩
      | matched token stop =>
          have hmore : tried + 1 ≤ (tokens.push token).size := by
            rw [Array.size_push]
            exact Nat.succ_le_succ htried
          refine Ensures.ite (Ensures.pure fun s hs => ⟨tried + 1, ?_, hs.1⟩) ?_
          · exact Nat.le_succ_of_le hmore
          · exact fun s hs => ih hs.2.2 hmore s hs.1

theorem repeated_tries
    (hcall : ∀ p, p ≤ input.size → TriesOne Count input.size p (call element p))
    (hoffer : ∀ tried s failure, Count tried s → Count tried { s with furthest := failure })
    (hpos : pos ≤ input.size) :
    Ensures (Count 0) (repeated call input element min max pos) fun step s =>
      ∀ count, step.collected? = some count → ∃ tried ≤ count + 1, Count tried s := by
  unfold repeated
  refine Ensures.bind (repetition_tries hcall hpos (Nat.zero_le _)) fun run => ?_
  refine Ensures.ite ?_ (Ensures.pure ?_)
  · rintro s ⟨tried, htried, hs⟩ step s' hrun count hcount
    cases hrun
    cases hcount
    exact ⟨tried, htried, hoffer tried s _ hs⟩
  · rintro s ⟨tried, htried, hs⟩ count hcount
    cases hcount
    exact ⟨tried, htried, hs⟩

end Counting

/-- Work below a node, between entering and leaving it. -/
theorem SoFar.around {depth tried bound : Nat} {s s₀ s₁ s' : Progress}
    (h : SoFar g input (depth + 1) s₀ tried s₁) (htried : tried ≤ bound)
    (hbefore : s₀.events = s.events.push (.enter id pos depth))
    (hafter : s'.events = s₁.events.push (leaving id pos depth step)) :
    Adds (fun word => tries (depth + 1) word ≤ bound) s s' := by
  refine h.adds.around hbefore hafter fun inner hinner => ?_
  rw [tries_around (closes_leaving id pos depth step), hinner, if_neg (by simp)]
  exact htried

theorem visit_tries {config : Config} {depth : Nat} {work : Walk Step} {s s' : Progress}
    (hwork : ∀ {s₀ s₁}, work s₀ = .ok step s₁ → Yielded g input s₀.memo →
      ∃ tried ≤ count, SoFar g input (depth + 1) s₀ tried s₁)
    (hs : Yielded g input s.memo) (h : Visited config id pos depth work s (.ok step s')) :
    Adds (fun word => tries (depth + 1) word ≤ count) s s' := by
  cases h with
  | plain _ hrun | found _ _ hrun =>
      obtain ⟨tried, htried, hs₁⟩ := hwork hrun hs
      exact hs₁.around htried rfl rfl
  | told =>
      refine Adds.three rfl ?_
      rw [tries_told (closes_leaving id pos depth step), if_neg (by simp)]
      exact Nat.zero_le _

namespace Occasion

/-- A repetition tries its element once for each token, and at most once more. -/
theorem tries_le (hg : g.WellFormed) (o : Occasion g input)
    (hnode : g.node? id = some (.repeated element min max)) (hpos : pos ≤ input.size)
    {after : Progress} (hrun : o.run id pos = .ok step after)
    (hcount : step.collected? = some count) :
    Adds (fun word => tries (o.depth + 1) word ≤ count + 1) o.before after := by
  have helement : g.contains element = true :=
    (Grammar.child_of_node? hnode List.mem_cons_self).contains hg
  have hwork : ∀ {levels s₀ s₁},
      answer ⟨g, input, o.config⟩ (invoke ⟨g, input, o.config⟩ levels (o.depth + 1)) id pos s₀ =
        .ok step s₁ →
      Yielded g input s₀.memo →
      ∃ tried ≤ count + 1, SoFar g input (o.depth + 1) s₀ tried s₁ := by
    intro levels s₀ s₁ hrun hs₀
    simp only [answer, hnode] at hrun
    exact repeated_tries (fun p hp => invoke_triesOne hg helement hp)
      (fun _ _ _ hs => ⟨hs.yielded, hs.adds⟩) hpos s₀ ⟨hs₀, .none rfl rfl⟩ _ _ hrun count hcount
  rw [run] at hrun
  cases hlevels : o.levels with
  | zero =>
      rw [hlevels] at hrun
      cases hrun
  | succ levels =>
      rw [hlevels, invoke_eq_visit] at hrun
      exact visit_tries hwork o.yielded (visited hrun)

theorem repeated_collects (hg : g.WellFormed) (o : Occasion g input)
    (hnode : g.node? id = some (.repeated element min max)) (hpos : pos ≤ input.size)
    {after : Progress} (hrun : o.run id pos = .ok step after) :
    ∃ count, step.collected? = some count ∧ count ≤ Nat.max min 1 + (input.size - pos) ∧
      (∀ m, max = some m → count ≤ m) ∧
      Adds (fun word => tries (o.depth + 1) word ≤ count + 1) o.before after := by
  have hid := Grammar.contains_of_node?_eq_some hnode
  have helement : g.contains element = true :=
    (Grammar.child_of_node? hnode List.mem_cons_self).contains hg
  obtain ⟨hstep, _⟩ := invoke_yields hg hid hpos o.yielded hrun
  obtain ⟨count, hcount, hle, hmax⟩ := ((yields_iff_rule hnode).mp hstep).repeated_collects
    (fun _ _ hp h => h.within hg helement hp) hpos
  exact ⟨count, hcount, hle, hmax, o.tries_le hg hnode hpos hrun hcount⟩

theorem sepBy_collects (hg : g.WellFormed) (o : Occasion g input)
    (hnode : g.node? id = some (.sepBy element separator min)) (hpos : pos ≤ input.size)
    {after : Progress} (hrun : o.run id pos = .ok step after) :
    ∃ count, step.collected? = some count ∧ count ≤ 2 + (input.size - pos) := by
  have hid := Grammar.contains_of_node?_eq_some hnode
  have helement : g.contains element = true :=
    (Grammar.child_of_node? hnode List.mem_cons_self).contains hg
  have hseparator : g.contains separator = true :=
    (Grammar.child_of_node? hnode (by simp [Node.children])).contains hg
  obtain ⟨hstep, _⟩ := invoke_yields hg hid hpos o.yielded hrun
  exact ((yields_iff_rule hnode).mp hstep).sepBy_collects
    (fun _ _ hp h => h.within hg helement hp) (fun _ _ hp h => h.within hg hseparator hp) hpos

end Occasion

/-- Loops are short, whatever their elements are. On any occasion, a repetition that
answers has collected no more than its least number of tokens, or one, and another for
each byte that is left; never more than its upper bound; and it has tried its element at
most once more. Elements with separators are at most two tokens more than the bytes that
are left. So every parse ends: its loops end by themselves, on any budget that is as
large as theirs, and all that a walk gives up over is the depth limit or a length that is
none. -/
theorem loops_end {b : Builder} {root : NodeId} {g : Grammar} (hbuild : b.build root = .ok g) :
    (∀ {input : Array UInt8} (o : Occasion g input) {id element : NodeId} {min : Nat}
      {max : Option Nat} {pos : Nat} {step : Step} {after : Progress},
      g.node? id = some (.repeated element min max) → pos ≤ input.size →
      o.run id pos = .ok step after →
      ∃ count, step.collected? = some count ∧ count ≤ Nat.max min 1 + (input.size - pos) ∧
        (∀ m, max = some m → count ≤ m) ∧
        Adds (fun word => tries (o.depth + 1) word ≤ count + 1) o.before after) ∧
    (∀ {input : Array UInt8} (o : Occasion g input) {id element separator : NodeId} {min pos : Nat}
      {step : Step} {after : Progress},
      g.node? id = some (.sepBy element separator min) → pos ≤ input.size →
      o.run id pos = .ok step after →
      ∃ count, step.collected? = some count ∧ count ≤ 2 + (input.size - pos)) ∧
    ∀ (config : Config) {start : NodeId}, g.contains start = true →
      ∀ (bytes : List UInt8) (spare : Nat),
        Parser.meteredWalk ⟨g, config⟩ spare start bytes = Parser.walk ⟨g, config⟩ start bytes ∧
        ∀ e s, Parser.meteredWalk ⟨g, config⟩ spare start bytes = .error e s →
          e.CutsOff config.maxDepth bytes.length := by
  have hg := Builder.wellFormed_of_build hbuild
  refine ⟨fun o _ _ _ _ _ _ _ hnode hpos hrun => o.repeated_collects hg hnode hpos hrun,
    fun o _ _ _ _ _ _ _ hnode hpos hrun => o.sepBy_collects hg hnode hpos hrun,
    fun config start hstart bytes spare => ?_⟩
  have hsame := Parser.meteredWalk_eq (p := ⟨g, config⟩) hg hstart spare bytes
  refine ⟨hsame, fun e s hrun => ?_⟩
  rw [hsame] at hrun
  exact Parser.cutsOff_of_walk hg hstart hrun

/-- Loops over nodes that need not consume anything, below a node that begins with itself. -/
def looping : NodeId × Builder :=
  Id.run <| StateT.run (do
    let a ← Builder.literal 0x61
    let element ← Builder.optional a
    let comma ← Builder.literal 0x2c
    let separator ← Builder.optional comma
    let run ← Builder.many element
    let list ← Builder.sepBy element separator
    let again ← Builder.indirect
    let rule ← Builder.sequence [again, run, list]
    let _ ← Builder.define again rule
    return rule) (Builder.new 0)

def loopingGrammar : Grammar := ⟨looping.2.arena, looping.2.nodes, looping.2.names, looping.1⟩

/-- The repetition keeps one match that consumes nothing, and so does the list. The rule gets
nowhere and is stopped by the depth limit. -/
theorem loops_end_looping :
    looping.2.build looping.1 = .ok loopingGrammar ∧
    (∃ after, (Occasion.ofParse loopingGrammar #[0x61, 0x61, 0x62] .standard).run ⟨0, 4⟩ 0 =
        .ok (.matched (.seq [.byte 0x61, .byte 0x61, .none]) 2) after ∧
      3 ≤ Nat.max 0 1 + (3 - 0) ∧
      Adds (fun word => tries 2 word ≤ 3 + 1) ⟨none, ∅, #[]⟩ after) ∧
    (∃ after, (Occasion.ofParse loopingGrammar #[0x61, 0x2c, 0x61] .standard).run ⟨0, 5⟩ 0 =
        .ok (.matched (.seq [.byte 0x61, .byte 0x61, .none]) 3) after ∧ 3 ≤ 2 + (3 - 0)) ∧
    ∃ e s, Parser.meteredWalk ⟨loopingGrammar, true, 8, false⟩ 5 looping.1 [0x61] = .error e s ∧
      e.CutsOff 8 1 := by
  have hbuild : looping.2.build looping.1 = .ok loopingGrammar := rfl
  obtain ⟨hrepeated, hsepBy, hparse⟩ := loops_end hbuild
  have hrun : (Occasion.ofParse loopingGrammar #[0x61, 0x61, 0x62] .standard).Matches ⟨0, 4⟩ 0
      (.seq [.byte 0x61, .byte 0x61, .none]) 2 := by decide +kernel
  have hlist : (Occasion.ofParse loopingGrammar #[0x61, 0x2c, 0x61] .standard).Matches ⟨0, 5⟩ 0
      (.seq [.byte 0x61, .byte 0x61, .none]) 3 := by decide +kernel
  obtain ⟨after, hrun⟩ := hrun
  obtain ⟨after', hlist⟩ := hlist
  obtain ⟨count, hcount, hle, _, htries⟩ := hrepeated _ rfl (Nat.zero_le _) hrun
  obtain ⟨count', hcount', hle'⟩ := hsepBy _ rfl (Nat.zero_le _) hlist
  cases hcount
  cases hcount'
  have hstart : loopingGrammar.contains looping.1 = true := rfl
  obtain ⟨hsame, hcut⟩ := hparse ⟨true, 8, false⟩ hstart [0x61] 5
  have hover : (Occasion.ofParse loopingGrammar #[0x61] ⟨true, 8, false⟩).Overruns looping.1 0 := by
    decide +kernel
  obtain ⟨e, s, hends, _⟩ := hover
  exact ⟨hbuild, ⟨after, hrun, hle, htries⟩, ⟨after', hlist, hle'⟩, e, s, hsame.trans hends,
    hcut e s (hsame.trans hends)⟩

end Semantics

end Packrat
