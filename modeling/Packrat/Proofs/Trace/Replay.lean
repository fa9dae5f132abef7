import Std.Internal.Do
import Packrat.Proofs.Trace.Following
import Packrat.Proofs.Walk.Brackets
import Packrat.Trace.Replay

/-!
# A trace explains as well as having been there

An explainer that follows a parse and one that is made to follow the records of it do
not hear the same: one is told events, the other reads notes, which lack the depth and
keep only part of how the parse ended. But a note says everything of its event that the
explainer looks at (`replay_eq_observe`), so from the same records it comes to the same
state, whatever the parse was.

What is left is that the records are there, and no others. The newest parse of a buffer
is the last one that was followed. Its number is on none of the records before it, and
if there is room for all of its own, they are the end of what is kept.
-/

namespace Packrat

open Trace

variable {g : Grammar} {input : List UInt8}

/-! ## Reading records -/

namespace Explainer

/-- A record tells what its event would have told. -/
theorem replay_eq_observe (x : Explainer) {r : Record} {event : Event}
    (h : r.note = event.note) : x.replay g input r = x.observe g input event := by
  rw [replay, h]
  cases event with
  | finish outcome =>
      cases outcome with
      | ok parsed => rfl
      | error e => rfl
  | _ => rfl

theorem foldl_replay (parse clock : Nat) :
    ∀ (events : List Event) (id : Nat) (x : Explainer),
      (recordsOf parse clock id events).foldl (replay g input) x = x.watch g input events := by
  intro events
  induction events with
  | nil => intro id x; rfl
  | cons event rest ih =>
      intro id x
      rw [recordsOf, List.foldl_cons, ih, replay_eq_observe x rfl]
      rfl

end Explainer

theorem Report.ofTrace_eq {b : Buffer} {older records : List Record} {parse : Nat}
    (htoList : b.toList = older ++ records) (hne : records ≠ [])
    (hrecords : ∀ r ∈ records, r.parse = parse) (holder : ∀ r ∈ older, r.parse < parse) :
    Report.ofTrace b g input = (records.foldl (Explainer.replay g input) .new).report := by
  have hnewest : b.newestParse? = some parse := by
    rw [Buffer.newestParse?, Buffer.newest?_eq, htoList, List.getLast?_append_of_ne_nil _ hne,
      List.getLast?_eq_some_getLast hne, Option.map_some,
      hrecords _ (List.getLast_mem hne)]
  have hofParse : b.ofParse parse = records := by
    have hnone : older.filter (·.parse == parse) = [] := by
      refine List.filter_eq_nil_iff.mpr fun r hr heq => ?_
      have hlt := holder r hr
      have hsame : r.parse = parse := beq_iff_eq.mp heq
      omega
    have hall : records.filter (·.parse == parse) = records :=
      List.filter_eq_self.mpr fun r hr => beq_iff_eq.mpr (hrecords r hr)
    rw [Buffer.ofParse, htoList, List.filter_append, hnone, hall, List.nil_append]
  rw [Report.ofTrace, hnewest, Option.bind_some, hofParse]

/-! ## The events of a parse -/

namespace Parser

variable {p : Parser} {start : NodeId}

theorem isStart_of_depth? {event : Event} {depth : Nat} (h : event.depth? = some depth) :
    event.isStart = false := by
  cases event with
  | start root inputLength => cases h
  | _ => rfl

theorem between_seen {memoize : Bool} {allowance : Nat} {r : EStateM.Result Error Progress Step}
    (h : (Walk.visitsAt memoize allowance 1).Covers ⟨none, ∅, #[]⟩ r) :
    ∀ event ∈ (seen r).toList, event.Between 1 (1 + allowance) := by
  cases r with
  | ok step s =>
      obtain ⟨word, hevents, _, hdepth⟩ := h
      have hseen : (seen (.ok step s)).toList = word := hevents
      rw [hseen]
      exact hdepth
  | error e s =>
      obtain ⟨word, hevents, _, hdepth⟩ := h
      have hseen : (seen (.error e s)).toList = word := hevents
      rw [hseen]
      exact hdepth

theorem isStart_seen (hg : p.grammar.WellFormed) (hstart : p.grammar.contains start = true) :
    ∀ event ∈ (seen (p.walk start input)).toList, event.isStart = false := by
  have hvisits : (Walk.visitsAt p.config.memoize p.config.maxDepth 1).Covers ⟨none, ∅, #[]⟩
      (p.walk start input) :=
    (Walk.invoke_visitsAt hg 1 hstart (Nat.zero_le _) _ Semantics.yielded_empty).1
  intro event hevent
  obtain ⟨depth, hdepth, _⟩ := between_seen hvisits event hevent
  exact isStart_of_depth? hdepth

/-- A parse ends with its outcome. -/
theorem exists_closing (outcome : Outcome) :
    ∃ front, closing outcome = front ++ [.finish outcome] ∧
      ∀ event ∈ front, event.isStart = false := by
  cases outcome with
  | ok parsed => exact ⟨[], rfl, nofun⟩
  | error e =>
      unfold closing
      by_cases hfatal : e.isFatal = true
      · exact ⟨[.aborted e], if_pos hfatal, List.forall_mem_singleton.mpr rfl⟩
      · exact ⟨[], if_neg hfatal, nofun⟩

/-- A parse that is not refused begins once, and ends with its outcome. -/
theorem watch_events (hg : p.grammar.WellFormed) (hstart : p.grammar.contains start = true)
    (input : List UInt8) :
    ∃ inner, (p.watch start input).2 =
        .start start input.length :: (inner ++ [.finish (p.runFrom start input)]) ∧
      ∀ event ∈ inner, event.isStart = false := by
  rw [runFrom, watch_of_contains hstart]
  obtain ⟨front, hclosing, hfront⟩ :=
    exists_closing (conclude ⟨p.grammar, input.toArray, p.config⟩ (p.walk start input))
  refine ⟨(seen (p.walk start input)).toList ++ front, ?_, ?_⟩
  · rw [hclosing, List.append_assoc]
  · exact List.forall_mem_append.mpr ⟨isStart_seen hg hstart, hfront⟩

end Parser

/-! ## Reports -/

/-- After a parse its error is known to whoever has followed it. -/
theorem Explainer.report_watch (x : Explainer) {events : List Event} {outcome : Outcome} :
    (∀ parsed, outcome = .ok parsed →
      (x.watch g input (events ++ [.finish outcome])).report = none) ∧
    ∀ e, outcome = .error e → ∃ report,
      (x.watch g input (events ++ [.finish outcome])).report = some report ∧ report.error = e := by
  rw [Explainer.watch, List.foldl_append]
  refine ⟨?_, ?_⟩
  · rintro parsed rfl
    rfl
  · rintro e rfl
    exact ⟨_, rfl, rfl⟩

/-- What is read off the trace of a parse that there was room for. -/
theorem Report.ofTrace_watch {settings : Settings} {t : Tracer} (h : Tracer.Follows settings t)
    (hfilter : settings.filter = []) (hon : t.settings.enabled = true) {root : NodeId}
    {inputLength : Nat} {rest : List Event} (hinner : ∀ event ∈ rest, event.isStart = false)
    (hfits : (Event.start root inputLength :: rest).length ≤ settings.capacity) (x : Explainer) :
    Report.ofTrace (t.watch g (.start root inputLength :: rest)).1.buffer g input =
      (x.watch g input (.start root inputLength :: rest)).report := by
  obtain ⟨older, htoList, holder⟩ := h.toList_watch (g := g) hfilter hon hinner hfits
  rw [Report.ofTrace_eq htoList (List.cons_ne_nil _ _) (fun r => parse_of_mem_recordsOf) holder,
    Explainer.foldl_replay]
  -- whatever the explainer was told before, the start makes it forget
  rfl

/-- If there was room for all of the last parse that was followed, its trace gives the
report that an explainer which followed the parse itself gives. -/
theorem trace_report_is_live {b : Builder} {root : NodeId} {g : Grammar}
    (hbuild : b.build root = .ok g) {settings : Settings} (hfilter : settings.filter = [])
    (config : Config) {start : NodeId} (hstart : g.contains start = true) (input : List UInt8)
    {before after : List Tracer.Command}
    (hon : ((Tracer.new settings).obeyAll before).settings.enabled = true)
    (hfits : (Parser.watch ⟨g, config⟩ start input).2.length ≤ settings.capacity)
    (hafter : ∀ c ∈ after, c.isSwitch = true) (x : Explainer) :
    Report.ofTrace
        ((Tracer.new settings).obeyAll (before ++ .parse ⟨g, config⟩ start input :: after)).buffer
        g input =
      (x.watch g input (Parser.watch ⟨g, config⟩ start input).2).report ∧
    (∀ parsed, Parser.runFrom ⟨g, config⟩ start input = .ok parsed →
      (x.watch g input (Parser.watch ⟨g, config⟩ start input).2).report = none) ∧
    ∀ e, Parser.runFrom ⟨g, config⟩ start input = .error e → ∃ report,
      (x.watch g input (Parser.watch ⟨g, config⟩ start input).2).report = some report ∧
      report.error = e := by
  have hg := Builder.wellFormed_of_build hbuild
  obtain ⟨inner, hevents, hinner⟩ := Parser.watch_events (p := ⟨g, config⟩) hg hstart input
  refine ⟨?_, ?_⟩
  · have hbuffer : ((Tracer.new settings).obeyAll
        (before ++ .parse ⟨g, config⟩ start input :: after)).buffer =
        (((Tracer.new settings).obeyAll before).watch g
          (Parser.watch ⟨g, config⟩ start input).2).1.buffer := by
      rw [Tracer.obeyAll_append]
      exact Tracer.buffer_of_switches hafter
    have hinner' : ∀ event ∈ inner ++ [.finish (Parser.runFrom ⟨g, config⟩ start input)],
        event.isStart = false :=
      List.forall_mem_append.mpr ⟨hinner, List.forall_mem_singleton.mpr rfl⟩
    rw [hbuffer]
    rw [hevents] at hfits ⊢
    exact Report.ofTrace_watch (Tracer.follows_obeyAll settings before) hfilter hon hinner' hfits x
  · rw [hevents, ← List.cons_append]
    exact x.report_watch

/-- The parse of an opening parenthesis, with answers remembered: nothing is inside, and the
closing one is missing. -/
theorem watch_nested_open :
    Parser.watch ⟨Semantics.nestedGrammar, .packrat⟩ Semantics.nested.1 [0x28] =
      (.ok ⟨.none, 0⟩,
        [.start ⟨0, 4⟩ 1, .enter ⟨0, 4⟩ 0 1, .enter ⟨0, 3⟩ 0 2, .enter ⟨0, 1⟩ 0 3,
          .matched ⟨0, 1⟩ 0 1 3, .enter ⟨0, 0⟩ 1 3, .enter ⟨0, 4⟩ 1 4, .enter ⟨0, 3⟩ 1 5,
          .enter ⟨0, 1⟩ 1 6, .failed ⟨0, 1⟩ 1 .inputExhausted 1 6,
          .failed ⟨0, 3⟩ 1 .inputExhausted 1 5, .matched ⟨0, 4⟩ 1 1 4, .matched ⟨0, 0⟩ 1 1 3,
          .enter ⟨0, 2⟩ 1 3, .failed ⟨0, 2⟩ 1 .inputExhausted 1 3,
          .failed ⟨0, 3⟩ 0 .inputExhausted 1 2, .matched ⟨0, 4⟩ 0 0 1,
          .finish (.ok ⟨.none, 0⟩)]) := by
  rw [Parser.watch_of_contains rfl, Semantics.nestedGrammar_eq, Semantics.nested_root]
  dsimp only
  cbv

/-- With four levels the same parse is cut off. -/
theorem watch_nested_cutOff :
    Parser.watch ⟨Semantics.nestedGrammar, true, 4, true⟩ Semantics.nested.1 [0x28] =
      (.error (.located (.recursionLimit 4) 1),
        [.start ⟨0, 4⟩ 1, .enter ⟨0, 4⟩ 0 1, .enter ⟨0, 3⟩ 0 2, .enter ⟨0, 1⟩ 0 3,
          .matched ⟨0, 1⟩ 0 1 3, .enter ⟨0, 0⟩ 1 3, .enter ⟨0, 4⟩ 1 4,
          .aborted (.located (.recursionLimit 4) 1),
          .finish (.error (.located (.recursionLimit 4) 1))]) := by
  rw [Parser.watch_of_contains rfl, Semantics.nestedGrammar_eq, Semantics.nested_root]
  dsimp only
  cbv

/-- Two parses that are followed, and one that is not. -/
def nestedSession : List Tracer.Command :=
  [.setEnabled true, .parse ⟨Semantics.nestedGrammar, .strict⟩ Semantics.nested.1 [0x28, 0x29],
    .clear, .parse ⟨Semantics.nestedGrammar, .packrat⟩ Semantics.nested.1 [0x28],
    .setEnabled false, .parse ⟨Semantics.nestedGrammar, .strict⟩ Semantics.nested.1 [0x29],
    .setEnabled true]

/-- A parse that is cut off has nine events, and there is room for no more. -/
theorem trace_report_is_live_nested :
    Semantics.nested.2.build Semantics.nested.1 = .ok Semantics.nestedGrammar ∧
    (Parser.watch ⟨Semantics.nestedGrammar, true, 4, true⟩ Semantics.nested.1 [0x28]).2.length = 9 ∧
    ∃ report, Report.ofTrace ((Tracer.new ⟨false, 9, false, false, []⟩).obeyAll (nestedSession ++
        .parse ⟨Semantics.nestedGrammar, true, 4, true⟩ Semantics.nested.1 [0x28] ::
          [.setEnabled false])).buffer Semantics.nestedGrammar [0x28] = some report ∧
      report.error = .located (.recursionLimit 4) 1 := by
  have hbuild : Semantics.nested.2.build Semantics.nested.1 = .ok Semantics.nestedGrammar := rfl
  have hstart : Semantics.nestedGrammar.contains Semantics.nested.1 = true := rfl
  have hon : ((Tracer.new ⟨false, 9, false, false, []⟩).obeyAll
      nestedSession).settings.enabled = true := rfl
  have hlength : (Parser.watch ⟨Semantics.nestedGrammar, true, 4, true⟩ Semantics.nested.1
      [0x28]).2.length = 9 := by
    rw [watch_nested_cutOff]
    rfl
  have hafter : ∀ c ∈ [Tracer.Command.setEnabled false], c.isSwitch = true :=
    List.forall_mem_singleton.mpr rfl
  obtain ⟨hsame, _, herror⟩ := trace_report_is_live hbuild rfl ⟨true, 4, true⟩ hstart [0x28] hon
    (Nat.le_of_eq hlength) hafter .new
  have hrun : Parser.runFrom ⟨Semantics.nestedGrammar, true, 4, true⟩ Semantics.nested.1 [0x28] =
      .error (.located (.recursionLimit 4) 1) := by
    rw [Parser.runFrom, watch_nested_cutOff]
  obtain ⟨report, hreport, he⟩ := herror _ hrun
  exact ⟨hbuild, hlength, report, hsame.trans hreport, he⟩

end Packrat
