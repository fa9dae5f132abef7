import Packrat.Proofs.Trace.Session

/-!
# Explaining from a trace that was cut

A buffer evicts from the front, so what it has of its newest parse is an end of that
parse's records. If anything was cut off, then the first of them, which says that the
parse began.

An explainer that never heard of a beginning has neither a grammar nor an input, and
nothing that comes later gives it one. It still hears that the parse ended, which is the
last record of all, and with it the error. So a trace that was cut gives a report if the
parse failed: one with nothing expected, and an excerpt of no input.
-/

namespace Packrat

open Trace

/-! ## Explainers that heard of no beginning -/

/-- The caret stands at the end of what there is. -/
theorem Excerpt.caret_nil (position : Nat) : caret [] position = caret [] 0 := by
  simp only [caret, List.length_nil, Nat.min_zero]

namespace Explainer

variable {x : Explainer} {g : Grammar} {input : List UInt8}

/-- The explainer knows nothing of the parse but how far it got. -/
structure Unstarted (x : Explainer) : Prop where
  grammar : x.grammar = none
  input : x.input = []
  expected : x.expected = []

theorem unstarted_new : Unstarted new := ⟨rfl, rfl, rfl⟩

/-- Without a grammar there are no labels. -/
theorem Unstarted.failed (h : x.Unstarted) (node : NodeId) (start position : Nat) :
    (x.failed node start position).Unstarted := by
  obtain ⟨grammar, input, furthest, expected, stack, error⟩ := x
  obtain ⟨rfl, rfl, rfl⟩ := h
  cases stack with
  | nil => exact ⟨rfl, rfl, rfl⟩
  | cons frame stack =>
      simp only [Explainer.failed]
      split_ifs <;> exact ⟨rfl, rfl, rfl⟩

theorem Unstarted.observe (h : x.Unstarted) {event : Event} (hinner : event.isStart = false) :
    (x.observe g input event).Unstarted := by
  cases event with
  | start root inputLength => cases hinner
  | enter node position depth => exact ⟨h.grammar, h.input, h.expected⟩
  | matched node start stop depth => exact ⟨h.grammar, h.input, h.expected⟩
  | failed node start kind position depth => exact h.failed node start position
  | memoHit node position depth => exact h
  | aborted e => exact h
  | finish outcome => cases outcome <;> exact ⟨h.grammar, h.input, h.expected⟩

theorem Unstarted.watch {events : List Event} :
    ∀ {x : Explainer}, x.Unstarted → (∀ event ∈ events, event.isStart = false) →
      (x.watch g input events).Unstarted := by
  induction events with
  | nil => intro x h _; exact h
  | cons event rest ih =>
      intro x h hinner
      obtain ⟨hfirst, hrest⟩ := List.forall_mem_cons.mp hinner
      exact ih (h.observe hfirst) hrest

theorem Unstarted.report_finish (h : x.Unstarted) (e : Error) :
    (x.finish (some e)).report = some ⟨e, [], Excerpt.caret [] 0⟩ := by
  have hnothing : ∀ position : Nat,
      (if x.furthest = some position then x.expected else []) = [] := by
    intro position
    rw [h.expected, ite_self]
  simp only [report, finish, Option.map_some, hnothing, h.input]
  rw [Excerpt.caret_nil]

/-- What is heard of the end of a parse gives a report if the parse failed, but not what
was expected. -/
theorem report_of_unstarted {inner : List Event}
    (hinner : ∀ event ∈ inner, event.isStart = false) (outcome : Outcome) :
    (∀ parsed, outcome = .ok parsed →
      (new.watch g input (inner ++ [.finish outcome])).report = none) ∧
    ∀ e, outcome = .error e →
      (new.watch g input (inner ++ [.finish outcome])).report =
        some ⟨e, [], Excerpt.caret [] 0⟩ := by
  have h : (new.watch g input inner).Unstarted := unstarted_new.watch hinner
  rw [Explainer.watch, List.foldl_append]
  refine ⟨?_, ?_⟩
  · rintro parsed rfl
    rfl
  · rintro e rfl
    exact h.report_finish e

end Explainer

/-! ## What eviction leaves of a parse -/

namespace Trace

/-- An end of the records of some events has the records of an end of them. -/
theorem exists_of_suffix_recordsOf {parse clock : Nat} {records : List Record} :
    ∀ {events : List Event} {id : Nat}, records <:+ recordsOf parse clock id events →
      ∃ rest id', rest <:+ events ∧ records = recordsOf parse clock id' rest := by
  intro events
  induction events with
  | nil => intro id h; exact ⟨[], id, List.suffix_refl _, List.suffix_nil.mp h⟩
  | cons event events ih =>
      intro id h
      rcases List.suffix_cons_iff.mp h with hall | hlater
      · exact ⟨event :: events, id, List.suffix_refl _, hall⟩
      · obtain ⟨rest, id', hrest, heq⟩ := ih hlater
        exact ⟨rest, id', hrest.trans (List.suffix_cons _ _), heq⟩

/-- Unless all records are there, the first one is not. -/
theorem exists_of_evicted {parse clock id : Nat} {first : Event} {events : List Event}
    {records : List Record} {r : Record}
    (hsuffix : records <:+ recordsOf parse clock id (first :: events))
    (hr : r ∈ recordsOf parse clock id (first :: events)) (hevicted : r ∉ records) :
    ∃ rest id', rest <:+ events ∧ records = recordsOf parse clock id' rest := by
  rcases List.suffix_cons_iff.mp hsuffix with rfl | hlater
  · exact absurd hr hevicted
  · exact exists_of_suffix_recordsOf hlater

/-- An end of a list in two parts has all of the second one, or is an end of it. -/
theorem suffix_append_cases {α : Type} {l front back : List α} (h : l <:+ front ++ back) :
    back ⊆ l ∨ l <:+ back := by
  rcases List.suffix_or_suffix_of_suffix h (List.suffix_append front back) with hend | hall
  · exact .inr hend
  · exact .inl hall.subset

namespace Tracer

variable {settings : Settings} {commands : List Command}

/-- Whatever was followed is a parse that was run. -/
theorem exists_of_mem_followed {parse : Followed} :
    ∀ {commands : List Command} {on : Bool}, parse ∈ followed on commands →
      ∃ p start text, .parse p start text ∈ commands ∧ p.grammar.contains start = true ∧
        parse = ⟨p.grammar, (p.watch start text).2⟩ := by
  intro commands
  induction commands with
  | nil => intro on h; cases h
  | cons c rest ih =>
      intro on h
      rcases List.mem_append.mp h with hfirst | hrest
      · cases c with
        | parse p start text =>
            rw [Command.followed] at hfirst
            split_ifs at hfirst with hruns
            · obtain ⟨_, hstart⟩ := Bool.and_eq_true_iff.mp hruns
              exact ⟨p, start, text, List.mem_cons_self, hstart, List.mem_singleton.mp hfirst⟩
            · cases hfirst
        | setEnabled enabled | setJson json | setLive live | clear => cases hfirst
      · obtain ⟨p, start, text, hmem, hstart, heq⟩ := ih hrest
        exact ⟨p, start, text, List.mem_cons_of_mem _ hmem, hstart, heq⟩

theorem passes_of_no_filter (hfilter : settings.filter = []) (events : List Event) :
    events.filter settings.passes = events := by
  refine List.filter_eq_self.mpr fun event _ => ?_
  rw [Settings.passes, hfilter]
  rfl

/-- The newest record that is kept belongs to the last parse that left any. -/
theorem newestParse?_eq {b : Buffer} {front : List Record} {parse clock id n : Nat}
    {events : List Event} (hkept : b.toList <:+ front ++ recordsOf parse clock id events)
    (hsome : events ≠ []) (hnewest : b.newestParse? = some n) : n = parse := by
  obtain ⟨newest, hlast, rfl⟩ := Option.map_eq_some_iff.mp hnewest
  rw [Buffer.newest?_eq] at hlast
  obtain ⟨others, hothers⟩ := List.getLast?_eq_some_iff.mp hlast
  have hend : [newest] <:+ front ++ recordsOf parse clock id events :=
    (hothers ▸ List.suffix_append others [newest]).trans hkept
  rcases suffix_append_cases hend with hall | hone
  · obtain ⟨r, hr⟩ : ∃ r, r ∈ recordsOf parse clock id events := by
      refine List.exists_mem_of_length_pos ?_
      rw [length_recordsOf]
      exact List.length_pos_iff.mpr hsome
    rw [← List.mem_singleton.mp (hall hr)]
    exact parse_of_mem_recordsOf hr
  · exact parse_of_mem_recordsOf (hone.subset List.mem_cons_self)

/-- The records of the last parse stand behind those of earlier ones. -/
theorem appended_eq (hfilter : settings.filter = []) {earlier : List Followed} {last : Followed}
    (hfollowed : followed settings.enabled commands = earlier ++ [last]) :
    appended settings commands = recorded settings earlier ++
      recordsOf (earlier.length + 1) 0 (recorded settings earlier).length last.events := by
  rw [appended, hfollowed, recorded_append, passes_of_no_filter hfilter]

/-- If a record of the newest parse was evicted, what is kept are the records of an end of
that parse, which is the last one that was followed. -/
theorem toList_of_evicted (hfilter : settings.filter = []) (hbuilt : Built commands) {n : Nat}
    (hnewest : ((new settings).obeyAll commands).buffer.newestParse? = some n) {r : Record}
    (hr : r ∈ appended settings commands) (hparse : r.parse = n)
    (hevicted : r ∉ ((new settings).obeyAll commands).buffer.toList) :
    ∃ p start text, Command.parse p start text ∈ commands ∧
      (followed settings.enabled commands).getLast? =
        some ⟨p.grammar, (p.watch start text).2⟩ ∧
      ∃ inner id, (∀ event ∈ inner, event.isStart = false) ∧
        ((new settings).obeyAll commands).buffer.toList =
          recordsOf n 0 id (inner ++ [.finish (p.runFrom start text)]) := by
  have hkept : ((new settings).obeyAll commands).buffer.toList <:+ appended settings commands := by
    rw [(tracks_obeyAll settings hbuilt).kept]
    exact (List.drop_suffix _ _).trans (List.drop_suffix _ _)
  rcases List.eq_nil_or_concat' (followed settings.enabled commands) with hnone | ⟨earlier, last, h⟩
  · rw [appended, hnone] at hr
    cases hr
  · have hlast : last ∈ followed settings.enabled commands :=
      h ▸ List.mem_append_right earlier List.mem_cons_self
    obtain ⟨p, start, text, hmem, hstart, rfl⟩ := exists_of_mem_followed hlast
    obtain ⟨inner, hevents, hinner⟩ := Parser.watch_events (hbuilt p start text hmem) hstart text
    rw [appended_eq hfilter h, hevents] at hkept hr
    obtain rfl : n = earlier.length + 1 := newestParse?_eq hkept (List.cons_ne_nil _ _) hnewest
    have hown : r ∈ recordsOf (earlier.length + 1) 0 (recorded settings earlier).length
        (.start start text.length :: (inner ++ [.finish (p.runFrom start text)])) := by
      rcases List.mem_append.mp hr with hold | hnew
      · have hle := parse_le_of_mem_recorded hold
        omega
      · exact hnew
    have hpart := (suffix_append_cases hkept).resolve_left fun hall => hevicted (hall hown)
    obtain ⟨rest, id, hrest, heq⟩ := exists_of_evicted hpart hown hevicted
    refine ⟨p, start, text, hmem, ?_, ?_⟩
    · rw [h, List.getLast?_append_of_ne_nil _ (List.cons_ne_nil _ _)]
      rfl
    · rcases List.suffix_concat_iff.mp hrest with rfl | ⟨inner', rfl, hsuffix⟩
      · rw [Buffer.newestParse?, Buffer.newest?_eq, heq] at hnewest
        cases hnewest
      · exact ⟨inner', id, fun event hevent => hinner event (hsuffix.subset hevent), heq⟩

end Tracer

end Trace

/-- If a record of the newest parse in the buffer was evicted, its trace gives no report if
that parse succeeded. If it failed, there is a report of the error, but with nothing
expected and without the input. -/
theorem trace_report_of_evicted {settings : Settings} (hfilter : settings.filter = [])
    {commands : List Tracer.Command} (hbuilt : Tracer.Built commands) {n : Nat}
    (hnewest : ((Tracer.new settings).obeyAll commands).buffer.newestParse? = some n) {r : Record}
    (hr : r ∈ Tracer.appended settings commands) (hparse : r.parse = n)
    (hevicted : r ∉ ((Tracer.new settings).obeyAll commands).buffer.toList)
    (g : Grammar) (input : List UInt8) :
    ∃ p start text, Tracer.Command.parse p start text ∈ commands ∧
      (Tracer.followed settings.enabled commands).getLast? =
        some ⟨p.grammar, (p.watch start text).2⟩ ∧
      (∀ parsed, p.runFrom start text = .ok parsed →
        Report.ofTrace ((Tracer.new settings).obeyAll commands).buffer g input = none) ∧
      ∀ e, p.runFrom start text = .error e →
        Report.ofTrace ((Tracer.new settings).obeyAll commands).buffer g input =
          some ⟨e, [], Excerpt.caret [] 0⟩ := by
  obtain ⟨p, start, text, hmem, hlast, inner, id, hinner, hkept⟩ :=
    Tracer.toList_of_evicted hfilter hbuilt hnewest hr hparse hevicted
  have hreport : Report.ofTrace ((Tracer.new settings).obeyAll commands).buffer g input =
      (Explainer.new.watch g input (inner ++ [.finish (p.runFrom start text)])).report := by
    have hne : recordsOf n 0 id (inner ++ [.finish (p.runFrom start text)]) ≠ [] := by
      refine List.ne_nil_of_length_pos ?_
      rw [length_recordsOf, List.length_append]
      exact Nat.succ_pos _
    rw [Report.ofTrace_eq (hkept.trans (List.nil_append _).symm) hne
      (fun r => parse_of_mem_recordsOf) nofun, Explainer.foldl_replay]
  rw [hreport]
  exact ⟨p, start, text, hmem, hlast, Explainer.report_of_unstarted hinner _⟩

/-- A parse that is cut off at the fourth level. It has nine records. -/
def cutOffSession : List Tracer.Command :=
  [.parse ⟨Semantics.nestedGrammar, true, 4, true⟩ Semantics.nested.1 [0x28]]

/-- With room for four of them, what is left begins in the middle of the nodes under way. -/
theorem trace_report_of_evicted_nested :
    Tracer.Built cutOffSession ∧
    ((Tracer.new ⟨true, 4, false, false, []⟩).obeyAll cutOffSession).buffer.toList.map
      Record.id = [5, 6, 7, 8] ∧
    Report.ofTrace ((Tracer.new ⟨true, 4, false, false, []⟩).obeyAll cutOffSession).buffer
        Semantics.nestedGrammar [0x28] =
      some ⟨.located (.recursionLimit 4) 1, [], "  \n  ^"⟩ := by
  have hbuild : Semantics.nested.2.build Semantics.nested.1 = .ok Semantics.nestedGrammar := rfl
  have hbuilt : Tracer.Built cutOffSession := by
    intro p start input hmem
    obtain ⟨rfl, -, -⟩ := Tracer.Command.parse.inj (List.mem_singleton.mp hmem)
    exact Builder.wellFormed_of_build hbuild
  have hobeyed : (Tracer.new ⟨true, 4, false, false, []⟩).obeyAll cutOffSession =
      ((Tracer.new ⟨true, 4, false, false, []⟩).watch Semantics.nestedGrammar
        (Parser.watch ⟨Semantics.nestedGrammar, true, 4, true⟩ Semantics.nested.1 [0x28]).2).1 :=
    rfl
  have happended : Tracer.appended ⟨true, 4, false, false, []⟩ cutOffSession =
      Tracer.recorded ⟨true, 4, false, false, []⟩ [⟨Semantics.nestedGrammar,
        (Parser.watch ⟨Semantics.nestedGrammar, true, 4, true⟩ Semantics.nested.1 [0x28]).2⟩] :=
    rfl
  rw [watch_nested_cutOff] at hobeyed happended
  have hnewest : ((Tracer.new ⟨true, 4, false, false, []⟩).obeyAll
      cutOffSession).buffer.newestParse? = some 1 := by
    rw [hobeyed]
    decide +kernel
  have hfirst : (Tracer.appended ⟨true, 4, false, false, []⟩ cutOffSession)[0]? =
      some ⟨0, 1, 0, 0, .parseStart Semantics.nested.1 1⟩ := by
    rw [happended]
    rfl
  have hids : ((Tracer.new ⟨true, 4, false, false, []⟩).obeyAll cutOffSession).buffer.toList.map
      Record.id = [5, 6, 7, 8] := by
    rw [hobeyed]
    decide +kernel
  have hevicted : (⟨0, 1, 0, 0, .parseStart Semantics.nested.1 1⟩ : Record) ∉
      ((Tracer.new ⟨true, 4, false, false, []⟩).obeyAll cutOffSession).buffer.toList := by
    intro hkept
    have hid := List.mem_map_of_mem (f := Record.id) hkept
    rw [hids] at hid
    exact absurd hid (by decide)
  obtain ⟨p, start, text, hmem, -, -, hfailed⟩ :=
    trace_report_of_evicted rfl hbuilt hnewest (List.mem_of_getElem? hfirst) rfl hevicted
      Semantics.nestedGrammar [0x28]
  obtain ⟨rfl, rfl, rfl⟩ := Tracer.Command.parse.inj (List.mem_singleton.mp hmem)
  have hrun : Parser.runFrom ⟨Semantics.nestedGrammar, true, 4, true⟩ Semantics.nested.1 [0x28] =
      .error (.located (.recursionLimit 4) 1) := by
    rw [Parser.runFrom, watch_nested_cutOff]
  exact ⟨hbuilt, hids, hfailed _ hrun⟩

/-- One `a`. -/
def letter : NodeId × Builder := (Builder.literal 0x61).run (Builder.new 0)

def letterGrammar : Grammar :=
  ⟨letter.2.arena, letter.2.nodes, letter.2.names, letter.1⟩

/-- A parse that fails. It has four records. -/
def letterSession : List Tracer.Command :=
  [.parse ⟨letterGrammar, .standard⟩ letter.1 [0x62]]

/-- With room for one record only the end of the parse is left, and still it is reported. -/
theorem trace_report_exists_letter :
    letter.2.build letter.1 = .ok letterGrammar ∧
    ((Tracer.new ⟨true, 1, false, false, []⟩).obeyAll letterSession).buffer.newestParse? =
      some 1 ∧
    (⟨0, 1, 0, 0, .parseStart letter.1 1⟩ : Record) ∈
      Tracer.appended ⟨true, 1, false, false, []⟩ letterSession ∧
    (⟨0, 1, 0, 0, .parseStart letter.1 1⟩ : Record) ∉
      ((Tracer.new ⟨true, 1, false, false, []⟩).obeyAll letterSession).buffer.toList ∧
    Report.ofTrace ((Tracer.new ⟨true, 1, false, false, []⟩).obeyAll letterSession).buffer
        letterGrammar [0x62] =
      some ⟨.located (.literalMismatch 0x61 0x62) 0, [], "  \n  ^"⟩ :=
  ⟨rfl, rfl, by decide, by decide, rfl⟩

end Packrat
