import Packrat.Proofs.Explain.Lockstep
import Packrat.Proofs.Walk.Furthest
import Packrat.Proofs.Walk.Orderly
import Packrat.Proofs.Walk.Positions

/-!
# What an explanation of a parse can be trusted for

An explanation names nodes that failed at the furthest position, each once, and no others.
It names every terminal without a name that failed there, or else a node around it that
has a name, was tried there and failed there, in whose place the terminal would have
stood. And the furthest position is the one that the parse reports, with answers
remembered or not.

One thing it does not do is to name something in any case. A node with a name that got
somewhere is taken to be explained by its inside, and a terminal has none. So a byte
string with a name that is broken off leaves nothing behind, and
`report_names_iff` says that this is the only way to leave nothing.
-/

namespace Packrat

/-! ## Terminals, and names in their place -/

/-- A node around `event` with this name, tried at `position`, failed there as well. -/
def StandsFor (g : Grammar) (memoize : Bool) (position : Nat) (name : String)
    (before : List Event) (event : Event) (after : List Event) : Prop :=
  ∃ id depth kind outer inner inner' outer', g.name? id = some name ∧
    before = outer ++ .enter id position depth :: inner ∧
    after = inner' ++ .failed id position kind position depth :: outer' ∧
    Visits memoize (depth + 1) (inner ++ event :: inner')

section Complete

variable {g : Grammar} {memoize : Bool} {position : Nat} {before after : List Event}
  {event : Event} {word : List Event}

theorem StandsFor.widen {name : String}
    (h : StandsFor g memoize position name before event after) (earlier later : List Event) :
    StandsFor g memoize position name (earlier ++ before) event (after ++ later) := by
  obtain ⟨id, depth, kind, outer, inner, inner', outer', hname, rfl, rfl, hvisits⟩ := h
  exact ⟨id, depth, kind, earlier ++ outer, inner, inner', outer' ++ later, hname, by simp,
    by simp, hvisits⟩

/-- What a terminal is called is expected, or the name of a node around it. -/
def Accounted (g : Grammar) (memoize : Bool) (position : Nat) (labels : List String)
    (before : List Event) (node : NodeId) (event : Event) (after : List Event) : Prop :=
  g.describe node ∈ labels ∨
    ∃ name ∈ labels, StandsFor g memoize position name before event after

theorem Accounted.widen {labels labels' : List String} {node : NodeId}
    (h : Accounted g memoize position labels before node event after)
    (hsub : labels ⊆ labels') (earlier later : List Event) :
    Accounted g memoize position labels' (earlier ++ before) node event (after ++ later) :=
  h.imp (fun hin => hsub hin)
    fun ⟨name, hin, hstands⟩ => ⟨name, hsub hin, hstands.widen earlier later⟩

/-- In a word that does not go back, terminals without a name that fail at the position
are accounted for. -/
def Accounts (g : Grammar) (memoize : Bool) (position : Nat) (word : List Event) : Prop :=
  (∀ r ∈ refusals word, r.start ≤ r.position) →
    ∀ labels before node tried kind depth after,
      word = before ++ .failed node tried kind position depth :: after →
      g.name? node = none → (g.node? node).any Node.isTerminal = true →
      Accounted g memoize position (heard g position labels word) before node
        (.failed node tried kind position depth) after

theorem Accounts.append {depth : Nat} {later : List Event} (hvisits : Visits memoize depth word)
    (hvisits' : Visits memoize depth later) (h : Accounts g memoize position word)
    (h' : Accounts g memoize position later) : Accounts g memoize position (word ++ later) := by
  intro horder labels before node tried kind depth after heq hnone hterminal
  rw [refusals_append] at horder
  obtain ⟨horder₁, horder₂⟩ := List.forall_mem_append.mp horder
  rw [heard_append hvisits]
  rcases split_append heq with ⟨rest, hfirst, rfl⟩ | ⟨front, rfl, hsecond⟩
  · exact (h horder₁ labels before node tried kind depth rest hfirst hnone hterminal).widen
      ((hvisits'.expects g position).grows _).subset [] later
  · have hlater := h' horder₂ (heard g position labels word) front node tried kind depth after
      hsecond hnone hterminal
    simpa using hlater.widen (List.Subset.refl _) word []

/-- A node's own failure, if it is a terminal without a name. -/
theorem mem_left_terminal {labels before : List String} {node : NodeId} {tried depth : Nat}
    {kind : Error.Kind} (hnone : g.name? node = none)
    (hterminal : (g.node? node).any Node.isTerminal = true) :
    g.describe node ∈ left g position before labels
      (.failed node tried kind position depth) := by
  simp only [left, noted, hnone, hterminal, Bool.true_or, if_true]
  exact mem_once.mpr (.inr rfl)

theorem not_hit_of_failed {id node : NodeId} {pos depth tried stopped d : Nat}
    {kind : Error.Kind} (front : List Event) {rest : List Event} :
    front ++ .failed node tried kind stopped d :: rest ≠ [.memoHit id pos depth] := by
  intro heq
  have hin : Event.failed node tried kind stopped d ∈ [Event.memoHit id pos depth] := by
    rw [← heq]
    simp
  cases List.mem_singleton.mp hin

/-- The name of a node that takes away what its inside brought. -/
theorem standsFor_of_hides {labels labels' : List String} {id : NodeId} {pos depth : Nat}
    {front rest : List Event} {exit : Event} {r : Refusal}
    (hvisits : Visits memoize (depth + 1) (front ++ event :: rest))
    (hexit : Closes id pos depth exit) (horder : ∀ r ∈ exit.refusal?.toList, r.start ≤ r.position)
    (htold : exit.refusal? = some r) (hhere : r.position = position)
    (hname : (g.name? r.node).isSome) (hstuck : position ≤ r.start) :
    ∃ name ∈ left g position labels labels' exit,
      StandsFor g memoize position name (.enter id pos depth :: front) event (rest ++ [exit]) := by
  have hle : r.start ≤ r.position := horder r (by rw [htold]; exact List.mem_singleton_self r)
  obtain ⟨name, hname⟩ := Option.isSome_iff_exists.mp hname
  cases hexit with
  | matched => cases htold
  | @failed kind stopped =>
      cases htold
      have hpos : pos = position := Nat.le_antisymm (hle.trans_eq hhere) hstuck
      have hstopped : stopped = position := hhere
      subst hpos hstopped
      refine ⟨name, ?_, id, depth, kind, [], front, rest, [], hname, rfl, rfl, hvisits⟩
      have hname' : g.name? id = some name := hname
      simp only [left, noted, hname', Nat.lt_irrefl, if_true, if_false]
      exact mem_once.mpr (.inr rfl)

/-- A terminal inside of a node is accounted for by the inside, unless the node's name
takes its place. -/
theorem Accounts.around {id : NodeId} {pos depth : Nat} {inner : List Event} {exit : Event}
    (hinside : Inside memoize id pos depth inner) (hexit : Closes id pos depth exit)
    (h : Accounts g memoize position inner) :
    Accounts g memoize position (.enter id pos depth :: (inner ++ [exit])) := by
  intro horder labels before node tried kind d after heq hnone hterminal
  rw [refusals_around] at horder
  obtain ⟨horder₁, horder₂⟩ := List.forall_mem_append.mp horder
  rw [heard_around hinside hexit]
  rcases List.cons_eq_append_iff.mp heq with ⟨_, hfalse⟩ | ⟨front, rfl, hrest⟩
  · cases hfalse
  · rcases split_append hrest with ⟨rest, rfl, rfl⟩ | ⟨front', rfl, hlast⟩
    · have hinner := h horder₁ labels front node tried kind d rest rfl hnone hterminal
      rcases left_keeps_or_hides g position exit with
        hkeeps | ⟨r, htold, hhere, hname, hstuck⟩
      · exact hinner.widen (hkeeps _ _) [.enter id pos depth] [exit]
      · have hvisits := hinside.resolve_right (not_hit_of_failed front)
        exact .inr (standsFor_of_hides hvisits hexit horder₂ htold hhere hname hstuck)
    · obtain ⟨rfl, hexit'⟩ : front' = [] ∧ exit = .failed node tried kind position d := by
        rcases List.cons_eq_append_iff.mp hlast with ⟨rfl, heq'⟩ | ⟨_, rfl, hfalse⟩
        · exact ⟨rfl, (List.cons.inj heq').1.symm⟩
        · exact absurd hfalse.symm (List.append_ne_nil_of_right_ne_nil _ (List.cons_ne_nil _ _))
      subst hexit'
      exact .inl (mem_left_terminal hnone hterminal)

/-- Terminals without a name that fail at the position are accounted for. -/
theorem accounts_of_visits {depth : Nat} (h : Visits memoize depth word) :
    Accounts g memoize position word := by
  refine Visits.induct (P := fun _ word => Accounts g memoize position word) ?_ ?_ ?_ ?_ h
  · intro _ _ labels before node tried kind depth after heq
    exact absurd heq.symm (List.append_ne_nil_of_right_ne_nil _ (List.cons_ne_nil _ _))
  · exact fun _ word later hvisits hvisits' hword hlater => hword.append hvisits hvisits' hlater
  · intro id pos _ _ labels before node tried kind depth after heq
    exact absurd heq.symm (not_hit_of_failed before)
  · exact fun id pos depth inner exit hinside hinner hexit => hinner.around hinside hexit

end Complete

/-! ## Parses that were not cut off -/

theorem positions_eq (events : List Event) :
    (failures events).map Failure.position = (refusals events).map Refusal.position := by
  rw [failures, refusals, List.map_filterMap, List.map_filterMap]
  refine congrArg (List.filterMap · events) (funext fun event => ?_)
  cases event <;> rfl

theorem max?_of_lastFurthest {failures : List Failure} {failure : Failure}
    (h : LastFurthest failures failure) :
    (failures.map Failure.position).max? = some failure.position := by
  refine List.max?_eq_some_iff.mpr ⟨?_, fun position hin => ?_⟩
  · obtain ⟨before, after, rfl, _⟩ := h
    simp
  · obtain ⟨other, hother, rfl⟩ := List.mem_map.mp hin
    exact Walk.le_of_lastFurthest h hother

namespace Parser

variable {p : Parser} {start : NodeId} {input : List UInt8} {step : Step} {s : Progress}

theorem visits_of_walk (hg : p.grammar.WellFormed) (hstart : p.grammar.contains start = true)
    (hwalk : p.walk start input = .ok step s) : Visits p.config.memoize 1 s.events.toList := by
  obtain ⟨word, hevents, hword, _⟩ :=
    (Walk.invoke_visitsAt hg 1 hstart (Nat.zero_le _)).answers hwalk Semantics.yielded_empty
  rw [show s.events.toList = word from hevents]
  exact hword

theorem watch_of_walk (hg : p.grammar.WellFormed) (hstart : p.grammar.contains start = true)
    (hwalk : p.walk start input = .ok step s) :
    (p.watch start input).2 = .start start input.length ::
      (s.events.toList ++ [.finish (p.runFrom start input)]) := by
  have hordinary : ∀ e, p.runFrom start input = .error e → e.isFatal = false := by
    intro e he
    rw [runFrom_of_contains hstart, hwalk] at he
    exact ordinary_of_walk hg hstart hwalk he
  rw [← closing_of_ordinary hordinary, runFrom_of_contains hstart, watch_of_contains hstart, hwalk]
  rfl

/-- Failures do not go back. -/
theorem order_of_walk {b : Builder} {root : NodeId} (hbuild : b.build root = .ok p.grammar)
    (hstart : p.grammar.contains start = true) (hwalk : p.walk start input = .ok step s) :
    ∀ r ∈ refusals s.events.toList, r.start ≤ r.position := by
  have hends : Walk.EndsWithin input.toArray.size (Step.Within 0 input.toArray.size)
      (p.walk start input) :=
    (Walk.run_stays (Builder.wellFormed_of_build hbuild)
      (fun width hmem => Builder.signed_width_of_build hbuild hmem) hstart _ Walk.within_start).2
  intro r hr
  obtain ⟨event, hevent, htold⟩ := List.mem_filterMap.mp hr
  have hseen : event ∈ seen (p.walk start input) := by
    rw [hwalk]
    exact Array.mem_toList_iff.mp hevent
  have hwithin := seen_within hends event hseen
  cases event with
  | failed node tried kind stopped depth => cases htold; exact hwithin.1
  | _ => cases htold

/-- The failure that is reported is at the furthest position that was told of. -/
theorem max?_of_walk (hg : p.grammar.WellFormed) (hstart : p.grammar.contains start = true)
    {own : Failure} (hwalk : p.walk start input = .ok (.failed own) s) :
    ∃ failure, s.furthest = some failure ∧
      ((refusals s.events.toList).map Refusal.position).max? = some failure.position := by
  have hplain : ∀ {p : Parser} {s : Progress}, p.config.memoize = false →
      p.walk start input = .ok (.failed own) s → ∃ failure, s.furthest = some failure ∧
        ((refusals s.events.toList).map Refusal.position).max? = some failure.position := by
    intro p s hoff hrun
    obtain ⟨htold, hown⟩ := Walk.invoke_ensures hoff _ Walk.told_start _ _ hrun
    obtain ⟨failure, hfailure⟩ := Walk.exists_further (Walk.toldOf s) own
    have hnoted : s.furthest = some failure := Eq.trans hown hfailure
    refine ⟨failure, hnoted, ?_⟩
    rw [← positions_eq]
    exact max?_of_lastFurthest (Walk.lastFurthest_of_furthestOf (htold.symm.trans hnoted))
  cases hmemo : p.config.memoize with
  | false => exact hplain hmemo hwalk
  | true =>
      obtain ⟨limit, s', hrun, hsame, htold⟩ := exists_plain_of_memoizing hg hmemo hstart hwalk
      obtain ⟨failure, hfailure, hmax⟩ := hplain rfl hrun
      refine ⟨failure, hsame ▸ hfailure, ?_⟩
      rw [← hmax, ← Explainer.reached_none, ← Explainer.reached_none]
      exact Explainer.reached_eq_of_same htold

end Parser

namespace Explainer

variable {g : Grammar} {input : List UInt8}

/-- The explainer of a parse of which a word was seen so far. -/
def followed (g : Grammar) (input : List UInt8) (word : List Event) : Explainer :=
  (start g input).watch g input word

theorem followed_learns {memoize : Bool} {depth : Nat} {word : List Event}
    (h : Unfinished memoize depth word) : Learns g word (start g input) (followed g input word) :=
  learns_of_unfinished h _ rfl

theorem followed_furthest {memoize : Bool} {depth : Nat} {word : List Event}
    (h : Unfinished memoize depth word) :
    (followed g input word).furthest = ((refusals word).map Refusal.position).max? :=
  (followed_learns h).furthest.trans (reached_none _)

/-- What is expected at the furthest position is what was heard there. -/
theorem followed_expectedAt {memoize : Bool} {depth : Nat} {word : List Event}
    (h : Unfinished memoize depth word) {position : Nat}
    (hfurthest : (followed g input word).furthest = some position) :
    (followed g input word).expectedAt position = heard g position [] word :=
  (followed_learns h).expects position (hfurthest ▸ noFurther_some.mpr (Nat.le_refl _))

theorem followed_expected_of_none {memoize : Bool} {depth : Nat} {word : List Event}
    (h : Unfinished memoize depth word) (hnone : (followed g input word).furthest = none) :
    (followed g input word).expected = [] :=
  (followed_learns h).unheard hnone

theorem followed_expected_of_some {memoize : Bool} {depth : Nat} {word : List Event}
    (h : Unfinished memoize depth word) {position : Nat}
    (hfurthest : (followed g input word).furthest = some position) :
    (followed g input word).expected = heard g position [] word := by
  rw [← followed_expectedAt h hfurthest, expectedAt, if_pos hfurthest]

/-- The start of a parse makes an explainer forget. -/
theorem watch_start (x : Explainer) (root : NodeId) (size : Nat) (word later : List Event) :
    x.watch g input (.start root size :: (word ++ later)) =
      (followed g input word).watch g input later :=
  watch_append (start g input) g input word later

end Explainer

/-! ## Explanations -/

/-- What an explainer may be trusted for that has followed a parse through `events`. -/
structure Explainer.Explains (g : Grammar) (memoize : Bool) (events : List Event)
    (x : Explainer) : Prop where
  furthest : x.furthest = ((refusals events).map Refusal.position).max?
  nodup : x.expected.Nodup
  sound : ∀ label ∈ x.expected, ∃ r ∈ refusals events,
    x.furthest = some r.position ∧ g.describe r.node = label
  complete : ∀ before node tried kind position depth after,
    events = before ++ .failed node tried kind position depth :: after →
    x.furthest = some position → g.name? node = none →
    (g.node? node).any Node.isTerminal = true →
    Accounted g memoize position x.expected before node
      (.failed node tried kind position depth) after

section Explaining

variable {g : Grammar} {input : List UInt8} {memoize : Bool} {word : List Event}

theorem refusals_parse (root : NodeId) (size : Nat) (word : List Event) (outcome : Outcome) :
    refusals (.start root size :: (word ++ [.finish outcome])) = refusals word := by
  show refusals (word ++ [.finish outcome]) = _
  rw [refusals_append]
  exact List.append_nil _

theorem Explainer.explains_of_visits {depth : Nat} (h : Visits memoize depth word)
    (horder : ∀ r ∈ refusals word, r.start ≤ r.position) (root : NodeId) (size : Nat)
    (outcome : Outcome) (x : Explainer) :
    (x.watch g input (.start root size :: (word ++ [.finish outcome]))).Explains g memoize
      (.start root size :: (word ++ [.finish outcome])) := by
  have hword : Unfinished memoize depth word := .between h
  rw [watch_start]
  -- a parse that is over leaves what is expected as it is
  have hfurthest : ((followed g input word).watch g input [.finish outcome]).furthest =
      (followed g input word).furthest := by cases outcome <;> rfl
  have hexpected : ((followed g input word).watch g input [.finish outcome]).expected =
      (followed g input word).expected := by cases outcome <;> rfl
  refine ⟨?_, ?_, ?_, ?_⟩
  · rw [hfurthest, followed_furthest hword, refusals_parse]
  · rw [hexpected]
    cases hat : (followed g input word).furthest with
    | none => rw [followed_expected_of_none hword hat]; exact List.nodup_nil
    | some position =>
        rw [followed_expected_of_some hword hat]
        exact (h.expects g position).nodup [] List.nodup_nil
  · rw [hexpected, hfurthest, refusals_parse]
    cases hat : (followed g input word).furthest with
    | none => rw [followed_expected_of_none hword hat]; exact nofun
    | some position =>
        rw [followed_expected_of_some hword hat]
        intro label hin
        obtain ⟨r, hr, rfl, hlabel⟩ :=
          ((h.expects g position).sound [] label hin).resolve_left List.not_mem_nil
        exact ⟨r, hr, rfl, hlabel⟩
  · rw [hexpected, hfurthest]
    intro before node tried kind position depth' after heq hat hnone hterminal
    rw [followed_expected_of_some hword hat]
    rcases List.cons_eq_append_iff.mp heq with ⟨_, hfalse⟩ | ⟨front, rfl, hrest⟩
    · cases hfalse
    · rcases split_append hrest with ⟨rest, hinner, rfl⟩ | ⟨_, _, hlast⟩
      · exact (accounts_of_visits h horder [] front node tried kind depth' rest hinner hnone
          hterminal).widen (List.Subset.refl _) [.start root size] [.finish outcome]
      · have hin : Event.failed node tried kind position depth' ∈ [.finish outcome] := by
          rw [hlast]
          simp
        cases List.mem_singleton.mp hin

end Explaining

/-- After a parse that was not cut off, the explainer's position is the greatest one at
which a node failed, and the one that the parse reports if its start node failed. What is
expected are nodes that failed there, each once, and no terminal is left out unless a name
stands for it. -/
theorem explanation_sound_and_complete {b : Builder} {root : NodeId} {g : Grammar}
    (hbuild : b.build root = .ok g) (config : Config) (start : NodeId) (input : List UInt8)
    (hends : ∀ e, Parser.runFrom ⟨g, config⟩ start input = .error e → e.isFatal = false)
    (x : Explainer) :
    (x.watch g input (Parser.watch ⟨g, config⟩ start input).2).Explains g config.memoize
      (Parser.watch ⟨g, config⟩ start input).2 ∧
    ∀ e, Parser.runFrom ⟨g, config⟩ start input = .error e →
      (∀ token stop s, Parser.walk ⟨g, config⟩ start input ≠ .ok (.matched token stop) s) →
      ∃ position, e.position = some position ∧
        (x.watch g input (Parser.watch ⟨g, config⟩ start input).2).furthest = some position := by
  have hg := Builder.wellFormed_of_build hbuild
  by_cases hstart : g.contains start = true
  · cases hwalk : Parser.walk ⟨g, config⟩ start input with
    | error e s =>
        have hfatal := (Parser.cutsOff_of_walk hg hstart hwalk).isFatal
        have hrun : Parser.runFrom ⟨g, config⟩ start input = .error e := by
          rw [Parser.runFrom_of_contains hstart, hwalk]
          rfl
        rw [hends e hrun] at hfatal
        cases hfatal
    | ok step s =>
        have hvisits := Parser.visits_of_walk hg hstart hwalk
        have horder := Parser.order_of_walk hbuild hstart hwalk
        rw [Parser.watch_of_walk hg hstart hwalk]
        have hexplains : Explainer.Explains g config.memoize _
            (x.watch g input (.start start input.length ::
              (s.events.toList ++ [.finish (Parser.runFrom ⟨g, config⟩ start input)]))) :=
          Explainer.explains_of_visits hvisits horder start input.length _ x
        refine ⟨hexplains, fun e he hnot => ?_⟩
        cases step with
        | matched token stop => exact absurd rfl (hnot token stop s)
        | failed own =>
            obtain ⟨failure, hfailure, hmax⟩ := Parser.max?_of_walk hg hstart hwalk
            rw [Parser.runFrom_of_contains hstart, hwalk] at he
            simp only [Parser.conclude, hfailure, Option.getD_some] at he
            cases he
            exact ⟨failure.position, rfl, by
              rw [hexplains.furthest, refusals_parse]; exact hmax⟩
  · cases hends _ (Parser.runFrom_of_not_contains hstart)

/-- A number, or else an `x`. -/
def numberOrX : NodeId × Builder :=
  Id.run <| StateT.run (do
    let digit ← Builder.range 0x30 0x39
    let digits ← Builder.many1 digit
    let number ← Builder.name digits "number"
    let x ← Builder.literal 0x78
    Builder.choice [number, x]) (Builder.new 0)

def numberOrXGrammar : Grammar :=
  ⟨numberOrX.2.arena, numberOrX.2.nodes, numberOrX.2.names, numberOrX.1⟩

/-- The number stands for its digit, and the other byte has no name. -/
theorem explanation_sound_and_complete_number :
    numberOrX.2.build numberOrX.1 = .ok numberOrXGrammar ∧
    (∀ e, Parser.runFrom ⟨numberOrXGrammar, .standard⟩ numberOrX.1 [0x79] = .error e →
      e.isFatal = false) ∧
    (Explainer.new.watch numberOrXGrammar [0x79]
      (Parser.watch ⟨numberOrXGrammar, .standard⟩ numberOrX.1 [0x79]).2).expected =
        ["number", "'x'"] ∧
    (Explainer.new.watch numberOrXGrammar [0x79]
      (Parser.watch ⟨numberOrXGrammar, .standard⟩ numberOrX.1 [0x79]).2).Explains
        numberOrXGrammar false
        (Parser.watch ⟨numberOrXGrammar, .standard⟩ numberOrX.1 [0x79]).2 ∧
    ∃ position, (Explainer.new.watch numberOrXGrammar [0x79]
      (Parser.watch ⟨numberOrXGrammar, .standard⟩ numberOrX.1 [0x79]).2).furthest =
        some position := by
  have hbuild : numberOrX.2.build numberOrX.1 = .ok numberOrXGrammar := rfl
  have hrun : Parser.runFrom ⟨numberOrXGrammar, .standard⟩ numberOrX.1 [0x79] =
      .error (.located .allAlternativesFailed 0) := rfl
  have hends : ∀ e, Parser.runFrom ⟨numberOrXGrammar, .standard⟩ numberOrX.1 [0x79] = .error e →
      e.isFatal = false := by
    intro e he
    rw [hrun] at he
    cases he
    rfl
  have hfails : ∀ token stop s,
      Parser.walk ⟨numberOrXGrammar, .standard⟩ numberOrX.1 [0x79] ≠
        .ok (.matched token stop) s := nofun
  obtain ⟨hexplains, hfurthest⟩ :=
    explanation_sound_and_complete hbuild .standard numberOrX.1 [0x79] hends .new
  obtain ⟨position, _, hposition⟩ := hfurthest _ hrun hfails
  exact ⟨hbuild, hends, rfl, hexplains, position, hposition⟩

/-! ## Reports that name nothing -/

/-- A parse that fails is reported with its error. The report names something exactly if a
node failed at the position that has no name, or was tried just there. -/
theorem report_names_iff {b : Builder} {root : NodeId} {g : Grammar}
    (hbuild : b.build root = .ok g) {config : Config} (hpart : config.fullConsumption = false)
    (start : NodeId) (input : List UInt8) {e : Error}
    (herror : Parser.runFrom ⟨g, config⟩ start input = .error e) (hordinary : e.isFatal = false)
    (x : Explainer) :
    ∃ report, (x.watch g input (Parser.watch ⟨g, config⟩ start input).2).report = some report ∧
      report.error = e ∧
      (report.expected ≠ [] ↔ ∃ r ∈ refusals (Parser.watch ⟨g, config⟩ start input).2,
        e.position = some r.position ∧ ¬ r.Mute g) := by
  have hg := Builder.wellFormed_of_build hbuild
  by_cases hstart : g.contains start = true
  · have hconclude := herror
    rw [Parser.runFrom_of_contains hstart] at hconclude
    cases hwalk : Parser.walk ⟨g, config⟩ start input with
    | error e' s =>
        rw [hwalk] at hconclude
        cases hconclude
        rw [(Parser.cutsOff_of_walk hg hstart hwalk).isFatal] at hordinary
        cases hordinary
    | ok step s =>
        cases step with
        | matched token stop =>
            rw [hwalk] at hconclude
            simp only [Parser.conclude, hpart, Bool.false_eq_true, false_and, if_false] at hconclude
            cases hconclude
        | failed own =>
            obtain ⟨failure, hfailure, hmax⟩ := Parser.max?_of_walk hg hstart hwalk
            have hvisits := Parser.visits_of_walk hg hstart hwalk
            have hword : Unfinished config.memoize 1 s.events.toList := .between hvisits
            rw [hwalk] at hconclude
            simp only [Parser.conclude, hfailure, Option.getD_some] at hconclude
            cases hconclude
            have hat : (Explainer.followed g input s.events.toList).furthest =
                some failure.position :=
              (Explainer.followed_furthest hword).trans hmax
            rw [Parser.watch_of_walk hg hstart hwalk, herror, Explainer.watch_start, refusals_parse]
            refine ⟨_, rfl, rfl, ?_⟩
            show (Explainer.followed g input s.events.toList).expectedAt failure.position ≠ [] ↔ _
            rw [Explainer.followed_expectedAt hword hat, Ne,
              (hvisits.expects g failure.position).eq_nil_iff, and_iff_right rfl, not_silent]
            refine exists_congr fun r => and_congr_right fun _ => and_congr_left fun _ => ?_
            exact ⟨fun hhere => congrArg some hhere.symm, fun hhere => (Option.some.inj hhere).symm⟩
  · rw [Parser.runFrom_of_not_contains hstart] at herror
    cases herror
    cases hordinary

/-- The choice failed where it was tried. -/
theorem report_names_iff_number :
    numberOrX.2.build numberOrX.1 = .ok numberOrXGrammar ∧
    Config.standard.fullConsumption = false ∧
    Parser.runFrom ⟨numberOrXGrammar, .standard⟩ numberOrX.1 [0x79] =
      .error (.located .allAlternativesFailed 0) ∧
    (Error.located .allAlternativesFailed 0).isFatal = false ∧
    ∃ report, (Explainer.new.watch numberOrXGrammar [0x79]
        (Parser.watch ⟨numberOrXGrammar, .standard⟩ numberOrX.1 [0x79]).2).report = some report ∧
      report.error = .located .allAlternativesFailed 0 ∧ report.expected ≠ [] := by
  have hbuild : numberOrX.2.build numberOrX.1 = .ok numberOrXGrammar := rfl
  have hrun : Parser.runFrom ⟨numberOrXGrammar, .standard⟩ numberOrX.1 [0x79] =
      .error (.located .allAlternativesFailed 0) := rfl
  obtain ⟨report, hreport, herror, hnames⟩ :=
    report_names_iff hbuild rfl numberOrX.1 [0x79] hrun rfl .new
  have htold : refusals (Parser.watch ⟨numberOrXGrammar, .standard⟩ numberOrX.1 [0x79]).2 =
      [⟨⟨0, 0⟩, 0, 0⟩, ⟨⟨0, 1⟩, 0, 0⟩, ⟨⟨0, 2⟩, 0, 0⟩, ⟨⟨0, 3⟩, 0, 0⟩] := rfl
  refine ⟨hbuild, rfl, hrun, rfl, report, hreport, herror, hnames.mpr ?_⟩
  exact ⟨⟨⟨0, 3⟩, 0, 0⟩, by rw [htold]; simp, rfl, fun hmute => Nat.lt_irrefl 0 hmute.2⟩

/-- A byte string with a name. -/
def namedBytes : NodeId × Builder :=
  Id.run <| StateT.run (do
    let ab ← Builder.bytes [0x61, 0x62]
    Builder.name ab "ab") (Builder.new 0)

def namedBytesGrammar : Grammar :=
  ⟨namedBytes.2.arena, namedBytes.2.nodes, namedBytes.2.names, namedBytes.1⟩

/-- Broken off in the middle it is the only node that failed, and it is not named. -/
theorem report_names_nothing_named_bytes :
    namedBytes.2.build namedBytes.1 = .ok namedBytesGrammar ∧
    Config.standard.fullConsumption = false ∧
    Parser.runFrom ⟨namedBytesGrammar, .standard⟩ namedBytes.1 [0x61, 0x78] =
      .error (.located (.bytesMismatch 1) 1) ∧
    (Explainer.new.watch namedBytesGrammar [0x61, 0x78]
      (Parser.watch ⟨namedBytesGrammar, .standard⟩ namedBytes.1 [0x61, 0x78]).2).report =
        some ⟨.located (.bytesMismatch 1) 1, [], "  ax\n   ^"⟩ := by
  exact ⟨rfl, rfl, rfl, rfl⟩

end Packrat
