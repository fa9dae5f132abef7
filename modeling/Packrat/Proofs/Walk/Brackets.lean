import Packrat.Proofs.Walk.Ends

/-!
# The events of a parse are bracketed

A node is entered, other nodes are tried one after another, a level deeper, and then
the node is left: so the events of a walk are a word of brackets, and its nesting is
the recursion of the walk. `Visit` and `Visits` are the grammar of such words. The
only thing beside brackets is a single hit, in place of all that is inside.

A walk that gives up leaves its nodes behind without a word, so its events are the
front of such a word. It is enough to know that some rest would complete it. As the
node that a parse starts from is left last of all, it is that one which stays open.
-/

namespace Packrat

/-! ## Words of brackets -/

/-- The event leaves a node that was entered at this position and depth. -/
inductive Closes (id : NodeId) (pos depth : Nat) : Event → Prop where
  | matched {stop} : Closes id pos depth (.matched id pos stop depth)
  | failed {kind position} : Closes id pos depth (.failed id pos kind position depth)

mutual

/-- The events of one node, from entering it to leaving it. -/
inductive Visit (memoize : Bool) : NodeId → Nat → Nat → List Event → Prop where
  | evaluated {id pos depth inner exit} : Visits memoize (depth + 1) inner →
      Closes id pos depth exit →
      Visit memoize id pos depth (.enter id pos depth :: (inner ++ [exit]))
  | told {id pos depth exit} : memoize = true → Closes id pos depth exit →
      Visit memoize id pos depth [.enter id pos depth, .memoHit id pos depth, exit]

/-- The events of nodes one after another, all at one depth. -/
inductive Visits (memoize : Bool) : Nat → List Event → Prop where
  | nil {depth} : Visits memoize depth []
  | cons {id pos depth word rest} : Visit memoize id pos depth word →
      Visits memoize depth rest → Visits memoize depth (word ++ rest)

end

/-- The depth of a node event. What opens and ends a parse has none. -/
def Event.depth? : Event → Option Nat
  | .enter _ _ depth | .matched _ _ _ depth | .failed _ _ _ _ depth | .memoHit _ _ depth =>
    some depth
  | .start _ _ | .aborted _ | .finish _ => none

/-- A node event from depth `low` up to, but not including, `high`. -/
def Event.Between (low high : Nat) (event : Event) : Prop :=
  ∃ depth, event.depth? = some depth ∧ low ≤ depth ∧ depth < high

theorem Event.Between.mono {low low' high high' : Nat} {event : Event}
    (h : event.Between low high) (hlow : low' ≤ low) (hhigh : high ≤ high') :
    event.Between low' high' := by
  obtain ⟨depth, hdepth, hge, hlt⟩ := h
  exact ⟨depth, hdepth, by omega, by omega⟩

theorem Closes.depth?_eq {id : NodeId} {pos depth : Nat} {event : Event}
    (h : Closes id pos depth event) : event.depth? = some depth := by
  cases h <;> rfl

theorem Visits.one {memoize : Bool} {id : NodeId} {pos depth : Nat} {word : List Event}
    (h : Visit memoize id pos depth word) : Visits memoize depth word := by
  rw [← List.append_nil word]
  exact .cons h .nil

theorem Visits.append {memoize : Bool} {depth : Nat} {later : List Event} :
    ∀ {word : List Event}, Visits memoize depth word → Visits memoize depth later →
      Visits memoize depth (word ++ later)
  | _, .nil, hlater => hlater
  | _, .cons hvisit hrest, hlater => by
      rw [List.append_assoc]
      exact .cons hvisit (hrest.append hlater)

/-- The events of a parse from a node, given how the parse ended. -/
inductive Bracketed (config : Config) (start : NodeId) (size : Nat) :
    Outcome → List Event → Prop where
  | answered {outcome word} : (∀ e, outcome = .error e → e.isFatal = false) →
      Visit config.memoize start 0 1 word →
      Bracketed config start size outcome (.start start size :: (word ++ [.finish outcome]))
  /-- The node that the parse started from is open, and some rest would close it. -/
  | cutOff {e inner rest} : e.isFatal = true →
      Visit config.memoize start 0 1 ((.enter start 0 1 :: inner) ++ rest) → rest ≠ [] →
      (∀ event ∈ inner, ¬ Closes start 0 1 event) →
      Bracketed config start size (.error e)
        (.start start size :: ((.enter start 0 1 :: inner) ++ [.aborted e, .finish (.error e)]))
  /-- With no level allowed, no node is entered at all. -/
  | notEntered {e} : e.isFatal = true → config.maxDepth = 0 →
      Bracketed config start size (.error e)
        [.start start size, .aborted e, .finish (.error e)]

namespace Walk

/-! ## What a walk adds to the events -/

/-- The events that were added are a word that `P` holds of. -/
def Adds (P : List Event → Prop) (s s' : Progress) : Prop :=
  ∃ word, s'.events.toList = s.events.toList ++ word ∧ P word

theorem Adds.none {P : List Event → Prop} {s s' : Progress} (hevents : s'.events = s.events)
    (h : P []) : Adds P s s' :=
  ⟨[], by rw [hevents, List.append_nil], h⟩

theorem Adds.append {P Q R : List Event → Prop} {s s' s'' : Progress} (h : Adds P s s')
    (h' : Adds Q s' s'') (hR : ∀ word word', P word → Q word' → R (word ++ word')) :
    Adds R s s'' := by
  obtain ⟨word, hevents, hword⟩ := h
  obtain ⟨word', hevents', hword'⟩ := h'
  exact ⟨word ++ word', by rw [hevents', hevents, List.append_assoc], hR word word' hword hword'⟩

/-- A node is entered, a stretch of the walk adds what is inside, and the node is
left. -/
theorem Adds.around {P Q : List Event → Prop} {before after : Event} {s s₀ s₁ s' : Progress}
    (h : Adds P s₀ s₁) (hbefore : s₀.events = s.events.push before)
    (hafter : s'.events = s₁.events.push after)
    (hQ : ∀ inner, P inner → Q (before :: (inner ++ [after]))) : Adds Q s s' := by
  obtain ⟨inner, hevents, hinner⟩ := h
  refine ⟨before :: (inner ++ [after]), ?_, hQ inner hinner⟩
  rw [hafter, Array.toList_push, hevents, hbefore, Array.toList_push]
  simp

theorem Adds.three {P : List Event → Prop} {e₁ e₂ e₃ : Event} {s s' : Progress}
    (hevents : s'.events = ((s.events.push e₁).push e₂).push e₃) (h : P [e₁, e₂, e₃]) :
    Adds P s s' :=
  ⟨[e₁, e₂, e₃], by simp [hevents], h⟩

/-- Trying nodes one after another at a depth. -/
def visitsAt (memoize : Bool) (allowance depth : Nat) : Effect where
  answers := Adds fun word =>
    Visits memoize depth word ∧ ∀ event ∈ word, event.Between depth (depth + allowance)
  aborts _ := Adds fun word =>
    (∃ rest, Visits memoize depth (word ++ rest)) ∧
      ∀ event ∈ word, event.Between depth (depth + allowance)

/-- Trying one node at a depth. -/
def visitAt (memoize : Bool) (allowance : Nat) (id : NodeId) (pos depth : Nat) : Effect where
  answers := Adds fun word =>
    Visit memoize id pos depth word ∧ ∀ event ∈ word, event.Between depth (depth + allowance)
  aborts _ := Adds fun word =>
    ∃ inner rest, word = .enter id pos depth :: inner ∧ rest ≠ [] ∧
      Visit memoize id pos depth (word ++ rest) ∧
      ∀ event ∈ inner, event.Between (depth + 1) (depth + allowance)

section Adding

variable {memoize : Bool} {allowance depth : Nat}

theorem visitsAt_composes (memoize : Bool) (allowance depth size : Nat) :
    (visitsAt memoize allowance depth).Composes size where
  refl _ := .none rfl ⟨.nil, nofun⟩
  trans h h' := h.append h' fun _ _ hword hword' =>
    ⟨hword.1.append hword'.1, List.forall_mem_append.mpr ⟨hword.2, hword'.2⟩⟩
  absorb h h' := h.append h' fun word word' hword hword' => by
    obtain ⟨⟨rest, hrest⟩, hdepth⟩ := hword'
    refine ⟨⟨rest, ?_⟩, List.forall_mem_append.mpr ⟨hword.2, hdepth⟩⟩
    rw [List.append_assoc]
    exact hword.1.append hrest
  offer _ _ := .none rfl ⟨.nil, nofun⟩
  invalidLength _ := .none rfl ⟨⟨[], .nil⟩, nofun⟩

theorem visitsAt_of_visitAt {id : NodeId} {pos : Nat} {s : Progress}
    {r : EStateM.Result Error Progress Step}
    (h : (visitAt memoize (allowance + 1) id pos depth).Covers s r) :
    (visitsAt memoize (allowance + 1) depth).Covers s r := by
  cases r with
  | ok step s' =>
      obtain ⟨word, hevents, hword, hdepth⟩ := h
      exact ⟨word, hevents, .one hword, hdepth⟩
  | error e s' =>
      obtain ⟨word, hevents, inner, rest, rfl, _, hword, hdepth⟩ := h
      refine ⟨_, hevents, ⟨rest, .one hword⟩, List.forall_mem_cons.mpr ⟨?_, ?_⟩⟩
      · exact ⟨depth, rfl, Nat.le_refl depth, by omega⟩
      · exact fun event hin => (hdepth event hin).mono (Nat.le_succ depth) (Nat.le_refl _)

theorem closes_leaving (id : NodeId) (pos depth : Nat) (step : Step) :
    Closes id pos depth (leaving id pos depth step) := by
  cases step with
  | matched token stop => exact .matched
  | failed failure => exact .failed

theorem between_enter (id : NodeId) (pos depth allowance : Nat) :
    (Event.enter id pos depth).Between depth (depth + (allowance + 1)) :=
  ⟨depth, rfl, Nat.le_refl depth, by omega⟩

theorem between_leaving (id : NodeId) (pos depth allowance : Nat) (step : Step) :
    (leaving id pos depth step).Between depth (depth + (allowance + 1)) :=
  ⟨depth, (closes_leaving id pos depth step).depth?_eq, Nat.le_refl depth, by omega⟩

variable {I : Memory → Prop} {Q : Step → Prop} {config : Config} {id : NodeId} {pos : Nat}
  {work : Walk Step} {s s₁ : Progress}

/-- Work that tries nodes a level deeper, between entering and leaving. -/
theorem answers_visitAt {s₀ s' : Progress} {step : Step}
    (hwork : (visitsAt memoize allowance (depth + 1)).answers s₀ s₁)
    (hbefore : s₀.events = s.events.push (.enter id pos depth))
    (hafter : s'.events = s₁.events.push (leaving id pos depth step)) :
    (visitAt memoize (allowance + 1) id pos depth).answers s s' := by
  refine Adds.around hwork hbefore hafter fun inner hinner => ?_
  obtain ⟨hvisits, hdepth⟩ := hinner
  refine ⟨.evaluated hvisits (closes_leaving id pos depth step), ?_⟩
  refine List.forall_mem_cons.mpr ⟨between_enter .., List.forall_mem_append.mpr ⟨?_, ?_⟩⟩
  · exact fun event hin => (hdepth event hin).mono (Nat.le_succ depth) (by omega)
  · exact List.forall_mem_singleton.mpr (between_leaving ..)

theorem aborts_visitAt {s₀ : Progress} {e : Error}
    (hwork : (visitsAt memoize allowance (depth + 1)).aborts e s₀ s₁)
    (hbefore : s₀.events = s.events.push (.enter id pos depth)) :
    (visitAt memoize (allowance + 1) id pos depth).aborts e s s₁ := by
  obtain ⟨inner, hevents, ⟨rest, hrest⟩, hdepth⟩ := hwork
  -- a failure would do to leave the node, a match as well
  have hcloses : Closes id pos depth (.failed id pos .noMatch pos depth) := .failed
  refine ⟨.enter id pos depth :: inner, ?_, inner, rest ++ [.failed id pos .noMatch pos depth],
    rfl, List.append_ne_nil_of_right_ne_nil _ (List.cons_ne_nil _ _), ?_, ?_⟩
  · rw [hevents, hbefore, Array.toList_push]
    simp
  · rw [List.cons_append, ← List.append_assoc]
    exact .evaluated hrest hcloses
  · exact fun event hin => (hdepth event hin).mono (Nat.le_refl _) (by omega)

theorem visit_visitAt {r : EStateM.Result Error Progress Step}
    (hwork : Has I (visitsAt config.memoize allowance (depth + 1)) Q work) (hs : I s.memo)
    (h : Visited config id pos depth work s r) :
    (visitAt config.memoize (allowance + 1) id pos depth).Covers s r := by
  cases h with
  | plain _ hrun | found _ _ hrun => exact answers_visitAt (hwork.answers hrun hs) rfl rfl
  | plainAborts _ hrun | foundAborts _ _ hrun => exact aborts_visitAt (hwork.aborts hrun hs) rfl
  | @told step found hon _ =>
      refine Adds.three rfl ⟨.told hon (closes_leaving id pos depth step), ?_⟩
      refine List.forall_mem_cons.mpr ⟨between_enter .., List.forall_mem_cons.mpr ⟨?_, ?_⟩⟩
      · exact ⟨depth, rfl, Nat.le_refl depth, by omega⟩
      · exact List.forall_mem_singleton.mpr (between_leaving ..)

end Adding

/-! ## Whole walks -/

section Whole

variable {g : Grammar} {input : Array UInt8} {config : Config}

theorem invoke_visitsAt (hg : g.WellFormed) {allowance : Nat} (depth : Nat) {id : NodeId}
    {pos : Nat} (hid : g.contains id = true) (hpos : pos ≤ input.size) :
    Has (Semantics.Yielded g input) (visitsAt config.memoize allowance depth)
      (Step.Within pos input.size) (invoke ⟨g, input, config⟩ allowance depth id pos) := by
  refine Semantics.invoke_has hg (E := visitsAt config.memoize) ?_ ?_ ?_ depth hid hpos
  · exact fun _ _ => visitsAt_composes _ _ _ _
  · exact fun _ _ _ _ => .none rfl ⟨⟨[], .nil⟩, nofun⟩
  · exact fun _ _ _ _ _ _ _ _ hwork hs h => visitsAt_of_visitAt (visit_visitAt hwork hs h)

/-- The walk from a node makes one visit, of that node. -/
theorem invoke_visitAt (hg : g.WellFormed) {allowance depth : Nat} {id : NodeId} {pos : Nat}
    (hid : g.contains id = true) (hpos : pos ≤ input.size) {s : Progress}
    (hs : Semantics.Yielded g input s.memo) :
    (visitAt config.memoize (allowance + 1) id pos depth).Covers s
      (invoke ⟨g, input, config⟩ (allowance + 1) depth id pos s) := by
  have hwork : Has (Semantics.Yielded g input) (visitsAt config.memoize allowance (depth + 1))
      (Step.Within pos input.size)
      (answer ⟨g, input, config⟩ (invoke ⟨g, input, config⟩ allowance (depth + 1)) id pos) :=
    Has.answer hg (visitsAt_composes _ _ _ _)
      (fun _ _ hchild hp => invoke_visitsAt hg (depth + 1) hchild hp) hid hpos
  rw [invoke_eq_visit]
  exact visit_visitAt hwork hs (visited rfl)

end Whole

end Walk

/-! ## Parses -/

theorem not_closes_of_between {id : NodeId} {pos depth high : Nat} {event : Event}
    (h : event.Between (depth + 1) high) : ¬ Closes id pos depth event := by
  intro hcloses
  obtain ⟨found, hfound, hlow, _⟩ := h
  rw [hcloses.depth?_eq] at hfound
  cases hfound
  omega

theorem closing_of_fatal {e : Error} (h : e.isFatal = true) :
    Parser.closing (.error e) = [.aborted e, .finish (.error e)] := by
  rw [Parser.closing, if_pos h]

theorem closing_of_ordinary {outcome : Outcome} (h : ∀ e, outcome = .error e → e.isFatal = false) :
    Parser.closing outcome = [.finish outcome] := by
  cases outcome with
  | ok parsed => rfl
  | error e => rw [Parser.closing, h e rfl, if_neg Bool.false_ne_true]

theorem depth_of_watched {start : NodeId} {size maxDepth : Nat} {word closing : List Event}
    (hword : ∀ event ∈ word, event.Between 1 (1 + maxDepth))
    (hclosing : ∀ event ∈ closing, event.depth? = none) :
    ∀ event ∈ Event.start start size :: (word ++ closing), ∀ depth,
      event.depth? = some depth → 1 ≤ depth ∧ depth ≤ maxDepth := by
  intro event hevent depth hdepth
  rcases List.mem_cons.mp hevent with rfl | hin
  · cases hdepth
  · rcases List.mem_append.mp hin with hin | hin
    · obtain ⟨found, hfound, hlow, hhigh⟩ := hword event hin
      rw [hfound] at hdepth
      cases hdepth
      omega
    · rw [hclosing event hin] at hdepth
      cases hdepth

theorem depth?_closing (outcome : Outcome) :
    ∀ event ∈ Parser.closing outcome, event.depth? = none := by
  intro event hevent
  cases outcome with
  | ok parsed => rw [List.mem_singleton.mp hevent]; rfl
  | error e =>
      simp only [Parser.closing] at hevent
      split at hevent
      · rcases List.mem_cons.mp hevent with rfl | hevent
        · rfl
        · rw [List.mem_singleton.mp hevent]; rfl
      · rw [List.mem_singleton.mp hevent]; rfl

theorem walk_of_no_level (g : Grammar) (full memoize : Bool) (start : NodeId)
    (input : List UInt8) :
    Parser.walk ⟨g, full, 0, memoize⟩ start input =
      .error (.located (.recursionLimit 0) 0) ⟨none, ∅, #[]⟩ := rfl

/-- What can be seen of a parse with a built grammar is a word of brackets: the visit
of the node that it starts from, unless a fatal error cuts it off inside of it. No
node is deeper than allowed. -/
theorem watch_bracketed {b : Builder} {root : NodeId} {g : Grammar}
    (hbuild : b.build root = .ok g) (config : Config) {start : NodeId}
    (hstart : g.contains start = true) (input : List UInt8) :
    Bracketed config start input.length (Parser.watch ⟨g, config⟩ start input).1
      (Parser.watch ⟨g, config⟩ start input).2 ∧
    ∀ event ∈ (Parser.watch ⟨g, config⟩ start input).2, ∀ depth, event.depth? = some depth →
      1 ≤ depth ∧ depth ≤ config.maxDepth := by
  have hg := Builder.wellFormed_of_build hbuild
  obtain ⟨full, maxDepth, memoize⟩ := config
  rw [Parser.watch_of_contains hstart]
  cases maxDepth with
  | zero =>
      rw [walk_of_no_level]
      exact ⟨.notEntered rfl rfl, depth_of_watched nofun (depth?_closing _)⟩
  | succ allowance =>
      have hvisit : (Walk.visitAt memoize (allowance + 1) start 0 1).Covers ⟨none, ∅, #[]⟩
          (Parser.walk ⟨g, full, allowance + 1, memoize⟩ start input) :=
        Walk.invoke_visitAt hg hstart (Nat.zero_le _) Semantics.yielded_empty
      cases hwalk : Parser.walk ⟨g, full, allowance + 1, memoize⟩ start input with
      | ok step s =>
          rw [hwalk] at hvisit
          obtain ⟨word, hevents, hword, hdepth⟩ := hvisit
          have hseen : (Parser.seen (.ok step s)).toList = word := hevents
          have hordinary : ∀ e, Parser.conclude ⟨g, input.toArray, full, allowance + 1, memoize⟩
              (.ok step s) = .error e → e.isFatal = false :=
            fun e he => Parser.ordinary_of_walk hg hstart hwalk he
          rw [hseen]
          refine ⟨?_, depth_of_watched hdepth (depth?_closing _)⟩
          rw [closing_of_ordinary hordinary]
          exact .answered hordinary hword
      | error e s =>
          have hfatal := (Parser.cutsOff_of_walk hg hstart hwalk).isFatal
          rw [hwalk] at hvisit
          obtain ⟨word, hevents, inner, rest, rfl, hrest, hword, hdepth⟩ := hvisit
          have hseen : (Parser.seen (.error e s)).toList = .enter start 0 1 :: inner := hevents
          have hwhole : ∀ event ∈ Event.enter start 0 1 :: inner,
              event.Between 1 (1 + (allowance + 1)) :=
            List.forall_mem_cons.mpr ⟨Walk.between_enter .., fun event hin =>
              (hdepth event hin).mono (by omega) (Nat.le_refl _)⟩
          rw [hseen]
          refine ⟨?_, depth_of_watched hwhole (depth?_closing _)⟩
          show Bracketed _ _ _ (.error e) (_ :: (_ ++ Parser.closing (.error e)))
          rw [closing_of_fatal hfatal]
          exact .cutOff hfatal hword hrest fun event hin => not_closes_of_between (hdepth event hin)

/-- An opening parenthesis and a level too few: the walk is cut off in the pair, with
answers remembered. -/
theorem watch_bracketed_nested :
    Semantics.nested.2.build Semantics.nested.1 = .ok Semantics.nestedGrammar ∧
    Semantics.nestedGrammar.contains Semantics.nested.1 = true ∧
    Bracketed ⟨true, 4, true⟩ Semantics.nested.1 1
      (Parser.watch ⟨Semantics.nestedGrammar, true, 4, true⟩ Semantics.nested.1 [0x28]).1
      (Parser.watch ⟨Semantics.nestedGrammar, true, 4, true⟩ Semantics.nested.1 [0x28]).2 := by
  have hbuild : Semantics.nested.2.build Semantics.nested.1 = .ok Semantics.nestedGrammar := rfl
  have hstart : Semantics.nestedGrammar.contains Semantics.nested.1 = true := rfl
  exact ⟨hbuild, hstart, (watch_bracketed hbuild ⟨true, 4, true⟩ hstart [0x28]).1⟩

end Packrat
