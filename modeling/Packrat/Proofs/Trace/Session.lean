import Packrat.Proofs.Trace.Following
import Packrat.Proofs.Trace.Replay

/-!
# What a session leaves in the buffer

Following, numbering, filtering, eviction and clearing happen in one place and one at a
time. Told from outside they are one list: the parses that were followed, in turn, each
with its number, of the events of each those that pass the filter, and each of these with
its rank. That list is all that was ever appended (`appended`). The buffer has the end of
what is new in it since the last clearing.

So a session is described by a function of its commands, and the tracer is shown to keep up
with it, a command at a time. As no number and no rank is used twice, what is kept of the
last parse can be told by its number.
-/

namespace Packrat.Trace

/-! ## What a session appends -/

/-- Whether records of the event are kept. -/
def Settings.passes (settings : Settings) (event : Event) : Bool :=
  settings.filter.isEmpty || settings.filter.contains event.typeName

namespace Tracer

/-- A parse that was followed: its grammar, and all that could be seen of it. -/
structure Followed where
  grammar : Grammar
  events : List Event

/-- Whether the tracer is on after the command. -/
def Command.switched (on : Bool) : Command → Bool
  | .setEnabled enabled => enabled
  | _ => on

/-- The parse that the command runs, if it is followed. A start node of another grammar is
refused, and nothing begins. -/
def Command.followed (on : Bool) : Command → List Followed
  | .parse p start input =>
    if on && p.grammar.contains start then [⟨p.grammar, (p.watch start input).2⟩] else []
  | _ => []

def Command.isClear : Command → Bool
  | .clear => true
  | _ => false

/-- The parses that commands run while the tracer is on, in turn. -/
def followed : Bool → List Command → List Followed
  | _, [] => []
  | on, c :: rest => c.followed on ++ followed (c.switched on) rest

/-- The events that are kept of parses, each with the number of its parse. -/
def numbered (settings : Settings) (parses : List Followed) : List (Nat × Event) :=
  (parses.zipIdx 1).flatMap fun (parse, number) =>
    (parse.events.filter settings.passes).map fun event => (number, event)

/-- Their records, each with its rank. -/
def recorded (settings : Settings) (parses : List Followed) : List Record :=
  (numbered settings parses).zipIdx.map fun ((number, event), rank) =>
    ⟨rank, number, event.recordDepth, 0, event.note⟩

/-- All records that a session appends, whatever becomes of them. -/
def appended (settings : Settings) (commands : List Command) : List Record :=
  recorded settings (followed settings.enabled commands)

/-- The records that were appended since the last clearing. -/
def fresh (settings : Settings) (commands : List Command) : List Record :=
  sinceCleared Command.isClear (appended settings) commands

/-! ## One command more -/

/-- Whether the tracer is on after commands. -/
def switched (on : Bool) (commands : List Command) : Bool :=
  commands.foldl Command.switched on

theorem followed_append (commands more : List Command) : ∀ on : Bool,
    followed on (commands ++ more) =
      followed on commands ++ followed (switched on commands) more := by
  induction commands with
  | nil => intro on; rfl
  | cons c rest ih =>
      intro on
      rw [List.cons_append, followed, ih, followed, List.append_assoc]
      rfl

theorem recordsOf_eq (parse : Nat) : ∀ (events : List Event) (id : Nat),
    recordsOf parse 0 id events = ((events.map fun event => (parse, event)).zipIdx id).map
      fun ((number, event), rank) => ⟨rank, number, event.recordDepth, 0, event.note⟩ := by
  intro events
  induction events with
  | nil => intro id; rfl
  | cons event rest ih => intro id; exact congrArg (_ :: ·) (ih (id + 1))

theorem recorded_append (settings : Settings) (parses : List Followed) (parse : Followed) :
    recorded settings (parses ++ [parse]) =
      recorded settings parses ++ recordsOf (parses.length + 1) 0 (recorded settings parses).length
        (parse.events.filter settings.passes) := by
  rw [recordsOf_eq]
  simp [recorded, numbered, List.zipIdx_append, Nat.add_comm]

/-- A session that went further has appended what it had, and more. -/
theorem appended_append (settings : Settings) (commands more : List Command) :
    appended settings commands <+: appended settings (commands ++ more) := by
  rw [appended, appended, followed_append]
  induction followed (switched settings.enabled commands) more using List.reverseRecOn with
  | nil => exact ⟨[], by rw [List.append_nil, List.append_nil]⟩
  | append_singleton parses parse ih =>
      rw [← List.append_assoc, recorded_append]
      exact ih.trans (List.prefix_append _ _)

theorem fresh_append {settings : Settings} {commands : List Command} {c : Command}
    {records : List Record} (hc : c.isClear = false)
    (h : appended settings (commands ++ [c]) = appended settings commands ++ records) :
    fresh settings (commands ++ [c]) = fresh settings commands ++ records :=
  sinceCleared_append (appended_append settings) hc h

theorem fresh_clear (settings : Settings) (commands : List Command) :
    fresh settings (commands ++ [.clear]) = [] :=
  sinceCleared_append_clear rfl

/-! ## The tracer keeps up -/

/-- The tracer is where the session has taken it. -/
structure Tracks (settings : Settings) (commands : List Command) (t : Tracer) : Prop where
  enabled : t.settings.enabled = switched settings.enabled commands
  filter : t.settings.filter = settings.filter
  capacity : t.buffer.capacity = settings.capacity
  clock : t.clock = 0
  parseCount : t.parseCount = (followed settings.enabled commands).length
  grammar : t.grammar = (followed settings.enabled commands).getLast?.map Followed.grammar
  nextId : t.buffer.nextId = (appended settings commands).length
  kept : t.buffer.toList = (fresh settings commands).rtake settings.capacity

variable {settings : Settings} {commands : List Command} {t : Tracer}

theorem tracks_new (settings : Settings) : Tracks settings [] (new settings) where
  enabled := rfl
  filter := rfl
  capacity := rfl
  clock := rfl
  parseCount := rfl
  grammar := rfl
  nextId := rfl
  kept := by
    rw [new, Buffer.toList_new]
    exact (List.rtake_nil _).symm

theorem switched_append (on : Bool) (commands : List Command) (c : Command) :
    switched on (commands ++ [c]) = c.switched (switched on commands) :=
  List.foldl_append

/-- A command that runs no parse and clears nothing appends nothing. -/
theorem Tracks.switch (h : Tracks settings commands t) {c : Command} (hc : c.isClear = false)
    (hnone : c.followed t.settings.enabled = []) {changed : Settings}
    (henabled : changed.enabled = c.switched t.settings.enabled)
    (hfilter : changed.filter = t.settings.filter) :
    Tracks settings (commands ++ [c]) { t with settings := changed } := by
  rw [h.enabled] at hnone
  have hfollowed : followed settings.enabled (commands ++ [c]) =
      followed settings.enabled commands := by
    rw [followed_append, followed, hnone]
    exact List.append_nil _
  have happended : appended settings (commands ++ [c]) = appended settings commands := by
    rw [appended, hfollowed, appended]
  have hfresh : fresh settings (commands ++ [c]) = fresh settings commands := by
    rw [fresh_append hc (by rw [happended, List.append_nil]), List.append_nil]
  constructor
  · rw [switched_append, ← h.enabled]
    exact henabled
  · exact hfilter.trans h.filter
  · exact h.capacity
  · exact h.clock
  · rw [hfollowed]
    exact h.parseCount
  · rw [hfollowed]
    exact h.grammar
  · rw [happended]
    exact h.nextId
  · rw [hfresh]
    exact h.kept

/-- Clearing takes out what is kept, and nothing else. -/
theorem Tracks.clear (h : Tracks settings commands t) :
    Tracks settings (commands ++ [.clear]) t.clear := by
  have hfollowed : followed settings.enabled (commands ++ [.clear]) =
      followed settings.enabled commands := by
    rw [followed_append]
    exact List.append_nil _
  constructor
  · rw [switched_append]
    exact h.enabled
  · exact h.filter
  · exact h.capacity
  · exact h.clock
  · rw [hfollowed]
    exact h.parseCount
  · rw [hfollowed]
    exact h.grammar
  · rw [appended, hfollowed]
    exact h.nextId
  · rw [fresh_clear, List.rtake_nil]
    exact Buffer.toList_clear t.buffer

/-- A parse that is followed is the next one, and what passes of its events is appended. -/
theorem Tracks.parse (h : Tracks settings commands t) (hon : t.settings.enabled = true)
    {p : Parser} {start : NodeId} {input : List UInt8}
    (hg : p.grammar.WellFormed) (hstart : p.grammar.contains start = true) :
    Tracks settings (commands ++ [.parse p start input]) (t.obey (.parse p start input)) := by
  obtain ⟨inner, hevents, hinner⟩ := Parser.watch_events hg hstart input
  have hrest : ∀ event ∈ inner ++ [.finish (p.runFrom start input)], event.isStart = false :=
    List.forall_mem_append.mpr ⟨hinner, List.forall_mem_singleton.mpr rfl⟩
  have hobeyed : t.obey (.parse p start input) =
      (t.opened p.grammar).noted (p.watch start input).2 := by
    rw [obey, hevents]
    exact watch_parse hon hrest
  have hpasses : (t.opened p.grammar).kept (p.watch start input).2 =
      (p.watch start input).2.filter settings.passes := by
    have hkeeps : ∀ event : Event, (t.opened p.grammar).keeps event.typeName =
        settings.passes event := by
      intro event
      rw [keeps, Settings.passes, ← h.filter]
      rfl
    simp only [Tracer.kept, hkeeps]
  have hfollowed : followed settings.enabled (commands ++ [.parse p start input]) =
      followed settings.enabled commands ++ [⟨p.grammar, (p.watch start input).2⟩] := by
    rw [followed_append, ← h.enabled, hon, followed, Command.followed, Bool.true_and,
      if_pos hstart]
    rfl
  have happended : appended settings (commands ++ [.parse p start input]) =
      appended settings commands ++ recordsOf (t.parseCount + 1) 0 t.buffer.nextId
        ((p.watch start input).2.filter settings.passes) := by
    rw [appended, hfollowed, recorded_append, h.parseCount, h.nextId]
    rfl
  have hfresh := fresh_append rfl happended
  rw [hobeyed, noted, hpasses]
  constructor
  · rw [switched_append]
    exact h.enabled
  · exact h.filter
  · exact (Buffer.capacity_pushAll ..).trans h.capacity
  · exact h.clock
  · rw [hfollowed, List.length_append, ← h.parseCount]
    rfl
  · rw [hfollowed, List.getLast?_append_of_ne_nil _ (List.cons_ne_nil _ _)]
    rfl
  · rw [happended, List.length_append, length_recordsOf, ← h.nextId]
    exact Buffer.nextId_pushAll ..
  · rw [hfresh, ← rtake_rtake_append, ← h.kept, ← h.capacity]
    have htoList := Buffer.toList_pushAll (t.parseCount + 1) t.clock
      ((p.watch start input).2.filter settings.passes) t.buffer
    rw [h.clock] at htoList
    rw [← htoList, ← h.clock]
    rfl

/-- The grammars of all parses are well formed, as every built grammar is. -/
def Built (commands : List Command) : Prop :=
  ∀ p start input, Command.parse p start input ∈ commands → p.grammar.WellFormed

theorem Tracks.obey (h : Tracks settings commands t) {c : Command} (hbuilt : Built [c]) :
    Tracks settings (commands ++ [c]) (t.obey c) := by
  cases c with
  | setEnabled enabled | setJson json | setLive live => exact h.switch rfl rfl rfl rfl
  | clear => exact h.clear
  | parse p start input =>
      have hg := hbuilt p start input (List.mem_singleton.mpr rfl)
      by_cases hstart : p.grammar.contains start = true
      · cases hon : t.settings.enabled with
        | true => exact h.parse hon hg hstart
        | false =>
            have hnone : Command.followed t.settings.enabled (.parse p start input) = [] := by
              rw [hon]
              rfl
            have hstill : t.obey (.parse p start input) = t := watch_of_disabled hon _
            rw [hstill]
            exact h.switch rfl hnone rfl rfl
      · have hnone : Command.followed t.settings.enabled (.parse p start input) = [] := by
          rw [Command.followed, Bool.eq_false_iff.mpr hstart, Bool.and_false]
          rfl
        have hstill : t.obey (.parse p start input) = t := by
          rw [Tracer.obey, Parser.watch_of_not_contains hstart]
          rfl
        rw [hstill]
        exact h.switch rfl hnone rfl rfl

theorem tracks_obeyAll (settings : Settings) (hbuilt : Built commands) :
    Tracks settings commands ((new settings).obeyAll commands) := by
  induction commands using List.reverseRecOn with
  | nil => exact tracks_new settings
  | append_singleton commands c ih =>
      have hbefore : Built commands :=
        fun p start input hmem => hbuilt p start input (List.mem_append_left _ hmem)
      have hlast : Built [c] :=
        fun p start input hmem => hbuilt p start input (List.mem_append_right _ hmem)
      rw [obeyAll_append]
      exact (ih hbefore).obey hlast

/-! ## The last parse -/

theorem parse_le_of_mem_recorded {parses : List Followed} {r : Record}
    (h : r ∈ recorded settings parses) : r.parse ≤ parses.length := by
  induction parses using List.reverseRecOn with
  | nil => cases h
  | append_singleton parses parse ih =>
      rw [recorded_append] at h
      rw [List.length_append, List.length_singleton]
      rcases List.mem_append.mp h with hold | hnew
      · exact Nat.le_succ_of_le (ih hold)
      · exact Nat.le_of_eq (parse_of_mem_recordsOf hnew)

theorem recorded_sorted (settings : Settings) (parses : List Followed) :
    (recorded settings parses).Pairwise fun r r' => r.parse ≤ r'.parse := by
  induction parses using List.reverseRecOn with
  | nil => exact .nil
  | append_singleton parses parse ih =>
      rw [recorded_append]
      refine List.pairwise_append.mpr ⟨ih, ?_, fun r hr r' hr' => ?_⟩
      · exact List.pairwise_of_forall_mem_list fun r hr r' hr' => by
          rw [parse_of_mem_recordsOf hr, parse_of_mem_recordsOf hr']
      · rw [parse_of_mem_recordsOf hr']
        exact Nat.le_succ_of_le (parse_le_of_mem_recorded hr)

/-- Records in the order of their parses end with those of the newest one. -/
theorem exists_newest {l : List Record} {n : Nat}
    (hsorted : l.Pairwise fun r r' => r.parse ≤ r'.parse) (hle : ∀ r ∈ l, r.parse ≤ n) :
    ∃ older newest, l = older ++ newest ∧ (∀ r ∈ older, r.parse ≠ n) ∧
      ∀ r ∈ newest, r.parse = n := by
  induction l with
  | nil => exact ⟨[], [], rfl, nofun, nofun⟩
  | cons r l ih =>
      obtain ⟨hfirst, hrest⟩ := List.pairwise_cons.mp hsorted
      obtain ⟨hr, hl⟩ := List.forall_mem_cons.mp hle
      by_cases hnewest : r.parse = n
      · refine ⟨[], r :: l, rfl, nofun, List.forall_mem_cons.mpr ⟨hnewest, fun r' hr' => ?_⟩⟩
        exact Nat.le_antisymm (hl r' hr') (hnewest ▸ hfirst r' hr')
      · obtain ⟨older, newest, rfl, holder, hall⟩ := ih hrest hl
        exact ⟨r :: older, newest, rfl, List.forall_mem_cons.mpr ⟨hnewest, holder⟩, hall⟩

theorem filter_newest {older newest : List Record} {n : Nat} (holder : ∀ r ∈ older, r.parse ≠ n)
    (hall : ∀ r ∈ newest, r.parse = n) : (older ++ newest).filter (·.parse == n) = newest := by
  have hnone : older.filter (·.parse == n) = [] :=
    List.filter_eq_nil_iff.mpr fun r hr heq => holder r hr (beq_iff_eq.mp heq)
  have hwhole : newest.filter (·.parse == n) = newest :=
    List.filter_eq_self.mpr fun r hr => beq_iff_eq.mpr (hall r hr)
  rw [List.filter_append, hnone, hwhole]
  rfl

/-- So the end of all of them has an end of those. -/
theorem filter_rtake_append {older newest : List Record} {n : Nat} (capacity : Nat)
    (holder : ∀ r ∈ older, r.parse ≠ n) (hall : ∀ r ∈ newest, r.parse = n) :
    ((older ++ newest).rtake capacity).filter (·.parse == n) = newest.rtake capacity := by
  have hlength : (older ++ newest).length - capacity - older.length = newest.length - capacity := by
    rw [List.length_append]
    omega
  rw [List.rtake, List.drop_append, filter_newest (fun r hr => holder r (List.mem_of_mem_drop hr))
    (fun r hr => hall r (List.mem_of_mem_drop hr)), hlength]
  rfl

theorem filter_rtake {l : List Record} {n : Nat} (capacity : Nat)
    (hsorted : l.Pairwise fun r r' => r.parse ≤ r'.parse) (hle : ∀ r ∈ l, r.parse ≤ n) :
    (l.rtake capacity).filter (·.parse == n) = (l.filter (·.parse == n)).rtake capacity := by
  obtain ⟨older, newest, rfl, holder, hall⟩ := exists_newest hsorted hle
  rw [filter_rtake_append capacity holder hall, filter_newest holder hall]

/-! ## Sessions -/

/-- What is kept of the parse that was followed last. -/
def latest (settings : Settings) (commands : List Command) : List Record :=
  ((fresh settings commands).filter
    (·.parse == (followed settings.enabled commands).length)).rtake settings.capacity

/-- The tracer has recorded the session, no more and no less. -/
structure Records (settings : Settings) (commands : List Command) (t : Tracer) : Prop where
  parseCount : t.parseCount = (followed settings.enabled commands).length
  kept : t.buffer.toList = (fresh settings commands).rtake settings.capacity
  size : t.buffer.size = min (fresh settings commands).length settings.capacity
  nextId : t.buffer.nextId = (appended settings commands).length
  latest : t.buffer.ofParse t.parseCount = latest settings commands
  shown : t.formatLastParse =
    match (followed settings.enabled commands).getLast? with
    | none => ""
    | some parse => t.formatRecords parse.grammar (Tracer.latest settings commands)

/-- After any session the tracer has counted the parses that began while it was on. Its
buffer has the newest of the records that were appended since it was cleared, as many as
there is room for, each with its rank among all that were ever appended; and what it shows
of the last parse is what is kept of that parse. -/
theorem obeyAll_records (settings : Settings) {commands : List Command}
    (hbuilt : Built commands) : Records settings commands ((new settings).obeyAll commands) := by
  have h := tracks_obeyAll settings hbuilt
  have hlatest : ((new settings).obeyAll commands).buffer.ofParse
      ((new settings).obeyAll commands).parseCount = latest settings commands := by
    have hsorted : (fresh settings commands).Pairwise fun r r' => r.parse ≤ r'.parse :=
      (recorded_sorted settings _).drop
    have hle : ∀ r ∈ fresh settings commands,
        r.parse ≤ (followed settings.enabled commands).length :=
      fun r hr => parse_le_of_mem_recorded (List.mem_of_mem_drop hr)
    rw [Buffer.ofParse, h.kept, h.parseCount, filter_rtake _ hsorted hle]
    rfl
  refine ⟨h.parseCount, h.kept, ?_, h.nextId, hlatest, ?_⟩
  · rw [← Buffer.length_toList, h.kept, length_rtake]
  · rw [formatLastParse, h.grammar, hlatest]
    cases (followed settings.enabled commands).getLast? <;> rfl

/-- The first of two parses that are followed was cleared away. Of the second one three of
its records are kept: two nodes failed, at the third and the second level, and the parse
ended. They have their ranks among the records of both parses. -/
theorem obeyAll_records_nested :
    Built nestedSession ∧
    ((new ⟨false, 3, false, false, ["enter", "failed", "parse-end"]⟩).obeyAll
      nestedSession).parseCount = 2 ∧
    ((new ⟨false, 3, false, false, ["enter", "failed", "parse-end"]⟩).obeyAll
      nestedSession).buffer.toList =
        [⟨21, 2, 3, 0, .failed ⟨0, 2⟩ 1 .inputExhausted 1⟩,
          ⟨22, 2, 2, 0, .failed ⟨0, 3⟩ 0 .inputExhausted 1⟩,
          ⟨23, 2, 0, 0, .parseEnd (some 0) none⟩] ∧
    ((new ⟨false, 3, false, false, ["enter", "failed", "parse-end"]⟩).obeyAll
      nestedSession).buffer.nextId = 24 := by
  have hbuild : Semantics.nested.2.build Semantics.nested.1 = .ok Semantics.nestedGrammar := rfl
  have hg := Builder.wellFormed_of_build hbuild
  have hbuilt : Built nestedSession := by
    intro p start input hmem
    simp only [nestedSession, List.mem_cons, reduceCtorEq, Command.parse.injEq, List.not_mem_nil,
      false_or, or_false] at hmem
    rcases hmem with ⟨rfl, -, -⟩ | ⟨rfl, -, -⟩ | ⟨rfl, -, -⟩ <;> exact hg
  have h := obeyAll_records ⟨false, 3, false, false, ["enter", "failed", "parse-end"]⟩ hbuilt
  have hfollowed : followed false nestedSession =
      [⟨Semantics.nestedGrammar,
          (Parser.watch ⟨Semantics.nestedGrammar, .strict⟩ Semantics.nested.1 [0x28, 0x29]).2⟩,
        ⟨Semantics.nestedGrammar,
          (Parser.watch ⟨Semantics.nestedGrammar, .packrat⟩ Semantics.nested.1 [0x28]).2⟩] := rfl
  have happended : appended ⟨false, 3, false, false, ["enter", "failed", "parse-end"]⟩
      nestedSession = recorded ⟨false, 3, false, false, ["enter", "failed", "parse-end"]⟩
        (followed false nestedSession) := rfl
  rw [hfollowed, watch_nested_open] at happended
  refine ⟨hbuilt, h.parseCount.trans ?_, h.kept.trans ?_, h.nextId.trans ?_⟩
  · rfl
  · rw [fresh, sinceCleared, happended]
    rfl
  · rw [happended]
    rfl

end Tracer

end Packrat.Trace
