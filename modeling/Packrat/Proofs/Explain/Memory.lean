import Packrat.Proofs.Explain.Expectations
import Packrat.Proofs.Walk.Memory

/-!
# Remembering answers and what a report says

A parse that remembers fails with the error of the plain parse, and what it says was
expected is part of what the plain one says, and something if that is something. Most of
the time it is all of it. It falls short if a node is told from memory whose answer was
found beneath a name: there the name stood for the node's labels, and here, where nothing
stands for them, they are not heard of again.

That this happens, and to a grammar of five nodes, is the last statement of this file.
-/

namespace Packrat

/-! ## Reports side by side -/

/-- The report `r'` of a parse that remembers says no more than the report `r` of the
plain one, and not less unless an answer is withheld. -/
structure Report.FallsShort (g : Grammar) (events : List Event) (r r' : Report) : Prop where
  error : r'.error = r.error
  excerpt : r'.excerpt = r.excerpt
  subset : r'.expected ⊆ r.expected
  nil_iff : r'.expected = [] ↔ r.expected = []
  equal : (∀ position, r.error.position = some position → ¬ Withheld g position events) → r' = r

theorem Report.FallsShort.refl (g : Grammar) (events : List Event) (r : Report) :
    r.FallsShort g events r :=
  ⟨rfl, rfl, List.Subset.refl _, Iff.rfl, fun _ => rfl⟩

section Abreast

variable {g : Grammar} {input : List UInt8} {position : Nat} {word word' : List Event}

/-- Explainers that followed the two parses expect the same at a position, or the second
one expects less. -/
theorem Abreast.expectedAt (hword : Unfinished false 1 word) (hword' : Unfinished true 1 word')
    (h : Abreast g position (refusals word) (heard g position [] word) word'
      (heard g position [] word')) :
    (Explainer.followed g input word').expectedAt position ⊆
        (Explainer.followed g input word).expectedAt position ∧
      ((Explainer.followed g input word').expectedAt position = [] ↔
        (Explainer.followed g input word).expectedAt position = []) ∧
      (¬ Withheld g position word' → (Explainer.followed g input word').expectedAt position =
        (Explainer.followed g input word).expectedAt position) := by
  have hsame : (Explainer.followed g input word').furthest =
      (Explainer.followed g input word).furthest := by
    rw [Explainer.followed_furthest hword, Explainer.followed_furthest hword',
      ← Explainer.reached_none, ← Explainer.reached_none]
    exact Explainer.reached_eq_of_same h.same
  by_cases hat : (Explainer.followed g input word).furthest = some position
  · rw [Explainer.followed_expectedAt hword hat,
      Explainer.followed_expectedAt hword' (hsame.trans hat)]
    exact ⟨h.subset, h.nil_iff, h.equal⟩
  · have hnone : ∀ x : Explainer, x.furthest ≠ some position → x.expectedAt position = [] :=
      fun x hx => if_neg hx
    rw [hnone _ hat, hnone _ (hsame ▸ hat)]
    exact ⟨List.Subset.refl _, Iff.rfl, fun _ => rfl⟩

/-- What an error that ends a parse makes of an explainer. -/
theorem Explainer.report_finish (x : Explainer) {e : Error} (he : e.position = some position) :
    (x.finish (some e)).report =
      some ⟨e, x.expectedAt position, Excerpt.caret x.input position⟩ := by
  simp only [report, finish, expectedAt, he, Option.map_some, Option.some_or, Option.getD_some]

/-- The reports of the two explainers once an error has ended the parses. -/
theorem Abreast.fallsShort (hword : Unfinished false 1 word) (hword' : Unfinished true 1 word')
    (h : Abreast g position (refusals word) (heard g position [] word) word'
      (heard g position [] word')) {e : Error} (he : e.position = some position)
    (first : Event) (later : List Event) :
    Option.Rel (Report.FallsShort g (first :: (word' ++ later)))
      ((Explainer.followed g input word).finish (some e)).report
      ((Explainer.followed g input word').finish (some e)).report := by
  obtain ⟨hsubset, hnil, hequal⟩ := @Abreast.expectedAt g input _ _ _ hword hword' h
  have hinput : (Explainer.followed g input word').input =
      (Explainer.followed g input word).input :=
    (Explainer.followed_learns hword').input.trans (Explainer.followed_learns hword).input.symm
  rw [Explainer.report_finish _ he, Explainer.report_finish _ he, hinput]
  refine .some ⟨rfl, rfl, hsubset, hnil, fun hnot => ?_⟩
  rw [hequal fun hwithheld => hnot position he ((hwithheld.append later).append_left [first])]

end Abreast

/-! ## Parses that were cut off -/

namespace Parser

variable {p : Parser} {start : NodeId} {input : List UInt8}

theorem watch_of_gaveUp (hstart : p.grammar.contains start = true) {e : Error} {s : Progress}
    (hwalk : p.walk start input = .error e s) (hfatal : e.isFatal = true) :
    (p.watch start input).2 = .start start input.length ::
      (s.events.toList ++ [.aborted e, .finish (.error e)]) := by
  rw [← closing_of_fatal hfatal, watch_of_contains hstart, hwalk]
  rfl

/-- A parse that was not cut off reports where it failed. -/
theorem located_of_conclude {task : Task} {step : Step} {s : Progress} {e : Error}
    (h : conclude task (.ok step s) = .error e) : ∃ position, e.position = some position := by
  cases step with
  | matched token stop =>
      simp only [conclude] at h
      split at h
      · cases h
        exact ⟨stop, rfl⟩
      · cases h
  | failed own =>
      cases h
      exact ⟨_, rfl⟩

theorem conclude_congr {task task' : Task} {step : Step} {s t : Progress}
    (hinput : task.input = task'.input)
    (hfull : task.config.fullConsumption = task'.config.fullConsumption)
    (h : s.furthest = t.furthest) : conclude task (.ok step s) = conclude task' (.ok step t) := by
  cases step with
  | matched token stop => simp only [conclude, hinput, hfull]
  | failed own => simp only [conclude, h]

variable {g : Grammar} {full : Bool} {maxDepth : Nat}

theorem not_cutShort_of_runFrom (hstart : g.contains start = true)
    (hfree : ¬ (runFrom ⟨g, full, maxDepth, false⟩ start input).ReachesLimit) :
    ¬ Walk.CutShort maxDepth (walk ⟨g, full, maxDepth, false⟩ start input) := by
  intro hcut
  rw [runFrom_of_contains hstart] at hfree
  cases hwalk : walk ⟨g, full, maxDepth, false⟩ start input with
  | ok step s => rw [hwalk] at hcut; exact hcut.elim
  | error e s =>
      rw [hwalk] at hcut hfree
      obtain ⟨pos, rfl⟩ := hcut
      exact hfree trivial

/-- A walk that remembers does not come to the limit if the plain one does not. -/
theorem not_cutShort_of_plain (hg : g.WellFormed) (hstart : g.contains start = true)
    (hfree : ¬ Walk.CutShort maxDepth (walk ⟨g, full, maxDepth, false⟩ start input)) :
    ¬ Walk.CutShort maxDepth (walk ⟨g, full, maxDepth, true⟩ start input) := by
  have hwalk : Walk.Outlasts (Walk.Faithful g input.toArray ⟨full, maxDepth, false⟩)
      maxDepth input.toArray.size (Step.Within 0 input.toArray.size)
      (Walk.invoke ⟨g, input.toArray, full, maxDepth, false⟩ maxDepth 1 start 0)
      (Walk.invoke ⟨g, input.toArray, full, maxDepth, true⟩ maxDepth 1 start 0) :=
    Walk.invoke_remembering hg rfl rfl 1 hstart (Nat.zero_le _)
  cases hwalk with
  | answers step found _ _ right =>
      obtain ⟨t, hrun, _⟩ := right ⟨none, ∅, #[]⟩ Walk.faithful_empty
      rw [walk, hrun]
      exact id
  | misuse shape pos _ _ right =>
      obtain ⟨t, hrun⟩ := right ⟨none, ∅, #[]⟩ Walk.faithful_empty
      rw [walk, hrun]
      rintro ⟨p, hp⟩
      cases hp
  | limit pos _ left =>
      obtain ⟨s, hrun⟩ := left ⟨none, ∅, #[]⟩ trivial
      refine absurd ?_ hfree
      rw [walk, hrun]
      exact ⟨pos, rfl⟩

end Parser

section Comparing

variable {g : Grammar} {full : Bool} {maxDepth : Nat} {start : NodeId} {input : List UInt8}
  {s t : Progress}

/-- Both walks answered, so the parses end in the same outcome. -/
theorem Report.fallsShort_of_answers (hg : g.WellFormed) (hstart : g.contains start = true)
    {step : Step} (hwalk : Parser.walk ⟨g, full, maxDepth, false⟩ start input = .ok step s)
    (hwalk' : Parser.walk ⟨g, full, maxDepth, true⟩ start input = .ok step t)
    (hsame : s.furthest = t.furthest)
    (habreast : ∀ position, Abreast g position (refusals s.events.toList)
      (heard g position [] s.events.toList) t.events.toList
      (heard g position [] t.events.toList)) (x : Explainer) :
    Option.Rel
      (Report.FallsShort g (Parser.watch ⟨g, full, maxDepth, true⟩ start input).2)
      (x.watch g input (Parser.watch ⟨g, full, maxDepth, false⟩ start input).2).report
      (x.watch g input (Parser.watch ⟨g, full, maxDepth, true⟩ start input).2).report := by
  have hrun : Parser.runFrom ⟨g, full, maxDepth, true⟩ start input =
      Parser.runFrom ⟨g, full, maxDepth, false⟩ start input := by
    rw [Parser.runFrom_of_contains hstart, Parser.runFrom_of_contains hstart, hwalk, hwalk']
    exact (Parser.conclude_congr rfl rfl hsame).symm
  rw [Parser.watch_of_walk hg hstart hwalk, Parser.watch_of_walk hg hstart hwalk', hrun,
    Explainer.watch_start, Explainer.watch_start]
  cases houtcome : Parser.runFrom ⟨g, full, maxDepth, false⟩ start input with
  | ok parsed => exact .none
  | error e =>
      obtain ⟨position, hposition⟩ : ∃ position, e.position = some position := by
        rw [Parser.runFrom_of_contains hstart, hwalk] at houtcome
        exact Parser.located_of_conclude houtcome
      exact (habreast position).fallsShort (.between (Parser.visits_of_walk hg hstart hwalk))
        (.between (Parser.visits_of_walk hg hstart hwalk')) hposition _ _

/-- Both walks gave up with one error. -/
theorem Report.fallsShort_of_gaveUp (hstart : g.contains start = true) {e : Error}
    (hwalk : Parser.walk ⟨g, full, maxDepth, false⟩ start input = .error e s)
    (hwalk' : Parser.walk ⟨g, full, maxDepth, true⟩ start input = .error e t)
    (hfatal : e.isFatal = true) {position : Nat} (hposition : e.position = some position)
    (hword : Unfinished false 1 s.events.toList) (hword' : Unfinished true 1 t.events.toList)
    (habreast : Abreast g position (refusals s.events.toList)
      (heard g position [] s.events.toList) t.events.toList
      (heard g position [] t.events.toList)) (x : Explainer) :
    Option.Rel
      (Report.FallsShort g (Parser.watch ⟨g, full, maxDepth, true⟩ start input).2)
      (x.watch g input (Parser.watch ⟨g, full, maxDepth, false⟩ start input).2).report
      (x.watch g input (Parser.watch ⟨g, full, maxDepth, true⟩ start input).2).report := by
  rw [Parser.watch_of_gaveUp hstart hwalk hfatal, Parser.watch_of_gaveUp hstart hwalk' hfatal,
    Explainer.watch_start, Explainer.watch_start]
  exact habreast.fallsShort hword hword' hposition _ _

end Comparing

/-- Unless the plain parse reaches the depth limit, the report of the parse that remembers
has the same error and the same excerpt. It expects nothing that the plain one does not,
and something if the plain one does. It is the same report if no answer is given again
that was found beneath a name which took its place. -/
theorem memoizing_report_falls_short {b : Builder} {root : NodeId} {g : Grammar}
    (hbuild : b.build root = .ok g) (full : Bool) (maxDepth : Nat) (start : NodeId)
    (input : List UInt8)
    (hfree : ¬ (Parser.runFrom ⟨g, full, maxDepth, false⟩ start input).ReachesLimit)
    (x : Explainer) :
    Option.Rel
      (Report.FallsShort g (Parser.watch ⟨g, full, maxDepth, true⟩ start input).2)
      (x.watch g input (Parser.watch ⟨g, full, maxDepth, false⟩ start input).2).report
      (x.watch g input (Parser.watch ⟨g, full, maxDepth, true⟩ start input).2).report := by
  have hg := Builder.wellFormed_of_build hbuild
  by_cases hstart : g.contains start = true
  · have hplain := Parser.not_cutShort_of_runFrom hstart hfree
    have hmemo := Parser.not_cutShort_of_plain hg hstart hplain
    have hends : ∀ position, Parser.EndAbreast g position maxDepth maxDepth
        (Parser.walk ⟨g, full, maxDepth, false⟩ start input)
        (Parser.walk ⟨g, full, maxDepth, true⟩ start input) :=
      @Parser.walks_endAbreast g start ⟨full, maxDepth, false⟩ ⟨full, maxDepth, true⟩ hg rfl rfl
        hstart input
    generalize hwalk : Parser.walk ⟨g, full, maxDepth, false⟩ start input = r at hplain hends
    generalize hwalk' : Parser.walk ⟨g, full, maxDepth, true⟩ start input = r' at hmemo hends
    -- the position is that of the error, which is known once the ends are
    cases hends 0 with
    | limited cut => exact absurd cut hplain
    | limited' cut => exact absurd cut hmemo
    | answered same _ _ _ =>
        refine Report.fallsShort_of_answers hg hstart hwalk hwalk' same (fun position => ?_) x
        cases hends position with
        | answered _ _ _ abreast => exact abreast
        | limited cut => exact absurd cut hplain
        | limited' cut => exact absurd cut hmemo
    | gaveUp fatal located plain memoizing _ =>
        obtain ⟨position, hposition⟩ := Option.isSome_iff_exists.mp located
        cases hends position with
        | gaveUp _ _ _ _ abreast =>
            exact Report.fallsShort_of_gaveUp hstart hwalk hwalk' fatal hposition plain memoizing
              abreast x
        | limited cut => exact absurd cut hplain
        | limited' cut => exact absurd cut hmemo
  · rw [Parser.watch_of_not_contains hstart, Parser.watch_of_not_contains hstart]
    show Option.Rel _ x.report x.report
    cases x.report with
    | none => exact .none
    | some r => exact .some (.refl g _ r)

/-- A `c` beneath a name, and then once more without it. -/
def renamed : NodeId × Builder :=
  Id.run <| StateT.run (do
    let c ← Builder.literal 0x63
    let one ← Builder.sequence [c]
    let choice ← Builder.choice [one]
    let named ← Builder.name choice "N"
    Builder.choice [named, one]) (Builder.new 0)

def renamedGrammar : Grammar :=
  ⟨renamed.2.arena, renamed.2.nodes, renamed.2.names, renamed.1⟩

theorem renamed_root : renamed.1 = ⟨0, 3⟩ := rfl

theorem renamedGrammar_eq :
    renamedGrammar = ⟨0, #[.literal 0x63, .sequence [⟨0, 0⟩], .choice [⟨0, 1⟩],
      .choice [⟨0, 2⟩, ⟨0, 1⟩]], [(2, "N")], ⟨0, 3⟩⟩ :=
  rfl

/-- What is seen of the parse of `x` that remembers: the second time there is no `c` in it. -/
theorem watch_renamed :
    (Parser.watch ⟨renamedGrammar, false, 256, true⟩ renamed.1 [0x78]).2 =
      [.start ⟨0, 3⟩ 1, .enter ⟨0, 3⟩ 0 1, .enter ⟨0, 2⟩ 0 2, .enter ⟨0, 1⟩ 0 3,
        .enter ⟨0, 0⟩ 0 4, .failed ⟨0, 0⟩ 0 (.literalMismatch 0x63 0x78) 0 4,
        .failed ⟨0, 1⟩ 0 (.literalMismatch 0x63 0x78) 0 3,
        .failed ⟨0, 2⟩ 0 .allAlternativesFailed 0 2, .enter ⟨0, 1⟩ 0 2, .memoHit ⟨0, 1⟩ 0 2,
        .failed ⟨0, 1⟩ 0 (.literalMismatch 0x63 0x78) 0 2,
        .failed ⟨0, 3⟩ 0 .allAlternativesFailed 0 1,
        .finish (.error (.located .allAlternativesFailed 0))] := by
  rw [Parser.watch_of_contains rfl, renamedGrammar_eq, renamed_root]
  dsimp only
  cbv

/-- Told from memory that there is no `c`, the report still has the name. -/
theorem memoizing_report_falls_short_renamed :
    renamed.2.build renamed.1 = .ok renamedGrammar ∧
    ¬ (Parser.runFrom ⟨renamedGrammar, false, 256, false⟩ renamed.1 [0x78]).ReachesLimit ∧
    ∃ r', (Explainer.new.watch renamedGrammar [0x78]
        (Parser.watch ⟨renamedGrammar, false, 256, true⟩ renamed.1 [0x78]).2).report = some r' ∧
      r'.error = .located .allAlternativesFailed 0 ∧ r'.expected ≠ [] := by
  have hbuild : renamed.2.build renamed.1 = .ok renamedGrammar := rfl
  have hrun : Parser.runFrom ⟨renamedGrammar, false, 256, false⟩ renamed.1 [0x78] =
      .error (.located .allAlternativesFailed 0) := rfl
  have hfree : ¬ (Parser.runFrom ⟨renamedGrammar, false, 256, false⟩ renamed.1
      [0x78]).ReachesLimit := by
    rw [hrun]
    exact id
  have hplain : (Explainer.new.watch renamedGrammar [0x78]
      (Parser.watch ⟨renamedGrammar, false, 256, false⟩ renamed.1 [0x78]).2).report =
        some ⟨.located .allAlternativesFailed 0, ["N", "'c'"], "  x\n  ^"⟩ := rfl
  have hrel := memoizing_report_falls_short hbuild false 256 renamed.1 [0x78] hfree .new
  rw [hplain] at hrel
  refine ⟨hbuild, hfree, ?_⟩
  generalize (Explainer.new.watch renamedGrammar [0x78] _).report = report at hrel
  cases hrel with
  | @some _ r' hfalls =>
      refine ⟨r', rfl, hfalls.error, fun hnil => ?_⟩
      cases hfalls.nil_iff.mp hnil

/-- But it does not say that the second alternative wants a `c`, as the plain one does. -/
theorem memoizing_report_lacks_renamed :
    renamed.2.build renamed.1 = .ok renamedGrammar ∧
    ¬ (Parser.runFrom ⟨renamedGrammar, false, 256, false⟩ renamed.1 [0x78]).ReachesLimit ∧
    (Explainer.new.watch renamedGrammar [0x78]
      (Parser.watch ⟨renamedGrammar, false, 256, false⟩ renamed.1 [0x78]).2).report.map
        Report.expected = some ["N", "'c'"] ∧
    (Explainer.new.watch renamedGrammar [0x78]
      (Parser.watch ⟨renamedGrammar, false, 256, true⟩ renamed.1 [0x78]).2).report.map
        Report.expected = some ["N"] := by
  have hrun : Parser.runFrom ⟨renamedGrammar, false, 256, false⟩ renamed.1 [0x78] =
      .error (.located .allAlternativesFailed 0) := rfl
  refine ⟨rfl, ?_, rfl, ?_⟩
  · rw [hrun]
    exact id
  · rw [watch_renamed]
    rfl

end Packrat
