import Packrat.Parser
import Packrat.Proofs.Trace.Buffer
import Packrat.Proofs.Walk.Brackets
import Packrat.Trace.Tracer

/-!
# What a tracer keeps of parses

What there is to record of an event is said here first, apart from any tracer: its type,
the depth of its node, and the rest of it as a note. A tracer puts records together at each
event by itself and has two ways of taking them in; both come to the same
(`observe_eq_record`), and to what is said here.

Between a parse and the buffer stand two switches: whether the tracer is on, and which
types of events it keeps. Neither can change while a parse runs. So a parse that runs
with the tracer off leaves it as it is, and one that runs with it on puts the records of
its events behind the others, all of them under the number that its start gave out.

That number is new, since it counts up and nothing counts it down. All that is kept
belongs to parses with smaller numbers, whatever has been done to the tracer before.
-/

namespace Packrat

/-! ## What there is to record of an event -/

namespace Event

/-- Whether the event begins a parse. -/
def isStart : Event → Bool
  | .start _ _ => true
  | _ => false

/-- The type that the event is recorded under. -/
def typeName : Event → String
  | .start _ _ => "parse-start"
  | .enter .. => "enter"
  | .matched .. => "matched"
  | .failed .. => "failed"
  | .memoHit .. => "memo-hit"
  | .aborted _ => "aborted"
  | .finish _ => "parse-end"

/-- The depth that the event is recorded with: that of its node, and zero for the start, the
end and the abort of a parse, which are of no node. -/
def recordDepth (event : Event) : Nat := event.depth?.getD 0

/-- All else that a record says of the event. Of how a parse ended these are the bytes used,
or the error. -/
def note : Event → Trace.Note
  | .start root inputLength => .parseStart root inputLength
  | .enter node position _ => .enter node position
  | .matched node tried stop _ => .matched node tried stop
  | .failed node tried kind position _ => .failed node tried kind position
  | .memoHit node position _ => .memoHit node position
  | .aborted error => .aborted error
  | .finish (.ok parsed) => .parseEnd (some parsed.consumed) none
  | .finish (.error error) => .parseEnd none (some error)

theorem typeName_note (event : Event) : event.note.typeName = event.typeName := by
  cases event with
  | finish outcome => cases outcome <;> rfl
  | _ => rfl

end Event

namespace Trace

/-- The records of events of one parse, numbered from `id` on. -/
def recordsOf (parse clock : Nat) : Nat → List Event → List Record
  | _, [] => []
  | id, event :: rest =>
    ⟨id, parse, event.recordDepth, clock, event.note⟩ :: recordsOf parse clock (id + 1) rest

theorem length_recordsOf (parse clock : Nat) :
    ∀ (events : List Event) (id : Nat), (recordsOf parse clock id events).length = events.length
  | [], _ => rfl
  | _ :: rest, id => congrArg (· + 1) (length_recordsOf parse clock rest (id + 1))

theorem parse_of_mem_recordsOf {parse clock : Nat} {r : Record} :
    ∀ {events : List Event} {id : Nat}, r ∈ recordsOf parse clock id events → r.parse = parse := by
  intro events
  induction events with
  | nil => intro id h; cases h
  | cons event rest ih =>
      intro id h
      rcases List.mem_cons.mp h with rfl | hrest
      · rfl
      · exact ih hrest

namespace Buffer

/-- The buffer with a record of each of the events of one parse. -/
def pushAll (b : Buffer) (parse clock : Nat) (events : List Event) : Buffer :=
  events.foldl (fun b event => (b.push parse event.recordDepth clock event.note).1) b

theorem toList_pushAll (parse clock : Nat) :
    ∀ (events : List Event) (b : Buffer), (b.pushAll parse clock events).toList =
      (b.toList ++ recordsOf parse clock b.nextId events).rtake b.capacity := by
  intro events
  induction events with
  | nil =>
      intro b
      show b.toList = (b.toList ++ []).rtake b.capacity
      rw [List.append_nil, toList_eq, rtake_rtake]
  | cons event rest ih =>
      intro b
      show ((b.push _ _ _ _).1.pushAll parse clock rest).toList = _
      rw [ih, toList_push, capacity_push, rtake_rtake_append, List.append_assoc]
      rfl

theorem capacity_pushAll (parse clock : Nat) :
    ∀ (events : List Event) (b : Buffer), (b.pushAll parse clock events).capacity = b.capacity
  | [], _ => rfl
  | _ :: rest, _ => capacity_pushAll parse clock rest _

theorem nextId_pushAll (parse clock : Nat) :
    ∀ (events : List Event) (b : Buffer),
      (b.pushAll parse clock events).nextId = b.nextId + events.length
  | [], _ => rfl
  | event :: rest, b => by
      have hpushed : (b.push parse event.recordDepth clock event.note).1.nextId =
          b.nextId + 1 := rfl
      show ((b.push _ _ _ _).1.pushAll parse clock rest).nextId = _
      rw [nextId_pushAll parse clock rest, hpushed, List.length_cons, Nat.add_assoc,
        Nat.add_comm 1]

end Buffer

namespace Tracer

variable {t : Tracer} {g : Grammar}

/-! ## One parse -/

/-- The events that the filter lets through. -/
def kept (t : Tracer) (events : List Event) : List Event :=
  events.filter fun event => t.keeps event.typeName

theorem kept_of_no_filter (h : t.settings.filter = []) (events : List Event) :
    t.kept events = events := by
  have hall : ∀ event ∈ events, t.keeps event.typeName = true := by
    intro event _
    rw [keeps, h]
    rfl
  exact List.filter_eq_self.mpr hall

/-- The tracer with what it keeps of events of the parse under way. -/
def noted (t : Tracer) (events : List Event) : Tracer :=
  { t with buffer := t.buffer.pushAll t.parseCount t.clock (t.kept events) }

/-- The tracer when a parse begins. -/
def opened (t : Tracer) (g : Grammar) : Tracer :=
  { t with parseCount := t.parseCount + 1, grammar := some g }

theorem noted_append (t : Tracer) (events rest : List Event) :
    t.noted (events ++ rest) = (t.noted events).noted rest := by
  simp only [noted, kept, keeps, List.filter_append, Buffer.pushAll, List.foldl_append]

/-- Events of a node and of the end of a parse are recorded alike, whichever way the tracer
takes for them. -/
theorem observe_eq_record (t : Tracer) (g : Grammar) {event : Event}
    (hinner : event.isStart = false) :
    t.observe g event = t.record event.recordDepth event.note := by
  cases event with
  | start root inputLength => cases hinner
  | finish outcome => cases outcome <;> rfl
  | _ => rfl

theorem observe_start_eq_record (h : t.settings.enabled = true) (root : NodeId)
    (inputLength : Nat) :
    t.observe g (.start root inputLength) =
      (t.opened g).record (Event.start root inputLength).recordDepth
        (Event.start root inputLength).note := by
  rw [observe, if_pos h]
  rfl

theorem record_of_enabled (h : t.settings.enabled = true) (event : Event) :
    (t.record event.recordDepth event.note).1 = t.noted [event] := by
  rw [record, if_pos h, keep, event.typeName_note]
  by_cases hkeeps : t.keeps event.typeName = true
  · have hkept : t.kept [event] = [event] := List.filter_cons_of_pos hkeeps
    rw [if_pos hkeeps, noted, hkept]
    rfl
  · have hkept : t.kept [event] = [] := List.filter_cons_of_neg hkeeps
    rw [if_neg hkeeps, noted, hkept]
    rfl

theorem observe_start (h : t.settings.enabled = true) (root : NodeId) (inputLength : Nat) :
    (t.observe g (.start root inputLength)).1 = (t.opened g).noted [.start root inputLength] := by
  have hopened : (t.opened g).settings.enabled = true := h
  rw [observe_start_eq_record h, record_of_enabled hopened]

theorem observe_inner (h : t.settings.enabled = true) {event : Event}
    (hinner : event.isStart = false) : (t.observe g event).1 = t.noted [event] := by
  rw [observe_eq_record t g hinner, record_of_enabled h]

theorem observe_of_disabled (h : t.settings.enabled = false) (event : Event) :
    (t.observe g event).1 = t := by
  cases hstart : event.isStart with
  | false => rw [observe_eq_record t g hstart, record, h, if_neg Bool.false_ne_true]
  | true =>
      cases event with
      | start root inputLength => rw [observe, h, if_neg Bool.false_ne_true]
      | _ => cases hstart

theorem watch_cons (t : Tracer) (g : Grammar) (event : Event) (rest : List Event) :
    (t.watch g (event :: rest)).1 = ((t.observe g event).1.watch g rest).1 := rfl

theorem watch_of_disabled (h : t.settings.enabled = false) (events : List Event) :
    (t.watch g events).1 = t := by
  induction events with
  | nil => rfl
  | cons event rest ih => rw [watch_cons, observe_of_disabled h, ih]

theorem watch_inner {events : List Event} :
    ∀ {t : Tracer}, t.settings.enabled = true → (∀ event ∈ events, event.isStart = false) →
      (t.watch g events).1 = t.noted events := by
  induction events with
  | nil => intro t _ _; rfl
  | cons event rest ih =>
      intro t h hinner
      obtain ⟨hfirst, hrest⟩ := List.forall_mem_cons.mp hinner
      have hnoted : (t.noted [event]).settings.enabled = true := h
      rw [watch_cons, observe_inner h hfirst, ih hnoted hrest, ← noted_append]
      rfl

/-- A parse that is followed is given a number, and its records come last. -/
theorem watch_parse (h : t.settings.enabled = true) {root : NodeId} {inputLength : Nat}
    {rest : List Event} (hinner : ∀ event ∈ rest, event.isStart = false) :
    (t.watch g (.start root inputLength :: rest)).1 =
      (t.opened g).noted (.start root inputLength :: rest) := by
  have hnoted : ((t.opened g).noted [.start root inputLength]).settings.enabled = true := h
  rw [watch_cons, observe_start h, watch_inner hnoted hinner, ← noted_append]
  rfl

/-! ## Sessions -/

/-- What can be done with a tracer. -/
inductive Command where
  | setEnabled (enabled : Bool)
  | setJson (json : Bool)
  | setLive (live : Bool)
  | clear
  /-- A parse is run and followed. -/
  | parse (p : Parser) (start : NodeId) (input : List UInt8)

/-- Neither a parse nor the end of what was kept. -/
def Command.isSwitch : Command → Bool
  | .setEnabled _ | .setJson _ | .setLive _ => true
  | .clear | .parse .. => false

def obey (t : Tracer) : Command → Tracer
  | .setEnabled enabled => t.setEnabled enabled
  | .setJson json => t.setJson json
  | .setLive live => t.setLive live
  | .clear => t.clear
  | .parse p start input => (t.watch p.grammar (p.watch start input).2).1

def obeyAll (t : Tracer) (commands : List Command) : Tracer := commands.foldl obey t

/-- A tracer made with these settings, after whatever was done with it. -/
structure Follows (settings : Settings) (t : Tracer) : Prop where
  filter : t.settings.filter = settings.filter
  capacity : t.buffer.capacity = settings.capacity
  numbered : ∀ r ∈ t.buffer.toList, r.parse ≤ t.parseCount

variable {settings : Settings}

theorem follows_new (settings : Settings) : Follows settings (new settings) where
  filter := rfl
  capacity := rfl
  numbered := by
    intro r h
    rw [new, Buffer.toList_new] at h
    cases h

theorem mem_of_mem_pushAll {b : Buffer} {parse clock : Nat} {events : List Event} {r : Record}
    (h : r ∈ (b.pushAll parse clock events).toList) : r ∈ b.toList ∨ r.parse = parse := by
  rw [Buffer.toList_pushAll] at h
  rcases List.mem_append.mp (List.mem_of_mem_drop h) with hold | hnew
  · exact .inl hold
  · exact .inr (parse_of_mem_recordsOf hnew)

theorem Follows.noted (h : Follows settings t) (events : List Event) :
    Follows settings (t.noted events) where
  filter := h.filter
  capacity := (Buffer.capacity_pushAll ..).trans h.capacity
  numbered := by
    intro r hr
    rcases mem_of_mem_pushAll hr with hold | hnew
    · exact h.numbered r hold
    · exact Nat.le_of_eq hnew

theorem Follows.opened (h : Follows settings t) (g : Grammar) : Follows settings (t.opened g) where
  filter := h.filter
  capacity := h.capacity
  numbered r hr := Nat.le_succ_of_le (h.numbered r hr)

theorem Follows.observe (h : Follows settings t) (g : Grammar) (event : Event) :
    Follows settings (t.observe g event).1 := by
  cases hon : t.settings.enabled with
  | false => rw [observe_of_disabled hon]; exact h
  | true =>
      cases hstart : event.isStart with
      | false => rw [observe_inner hon hstart]; exact h.noted _
      | true =>
          cases event with
          | start root inputLength => rw [observe_start hon]; exact (h.opened g).noted _
          | _ => cases hstart

theorem Follows.watch {events : List Event} :
    ∀ {t : Tracer}, Follows settings t → Follows settings (t.watch g events).1 := by
  induction events with
  | nil => intro t h; exact h
  | cons event rest ih => intro t h; exact ih (h.observe g event)

theorem Follows.obey (h : Follows settings t) (c : Command) : Follows settings (t.obey c) := by
  cases c with
  | setEnabled _ | setJson _ | setLive _ => exact ⟨h.filter, h.capacity, h.numbered⟩
  | clear =>
      refine ⟨h.filter, h.capacity, fun r hr => ?_⟩
      rw [Tracer.obey, clear, Buffer.toList_clear] at hr
      cases hr
  | parse p start input => exact h.watch

theorem follows_obeyAll (settings : Settings) (commands : List Command) :
    Follows settings ((new settings).obeyAll commands) := by
  suffices h : ∀ t : Tracer, Follows settings t → Follows settings (t.obeyAll commands) from
    h _ (follows_new settings)
  induction commands with
  | nil => exact fun _ h => h
  | cons c rest ih => exact fun t h => ih _ (h.obey c)

/-- A parse that there is room for is kept as a whole, behind records of earlier ones. -/
theorem Follows.toList_watch (h : Follows settings t) (hfilter : settings.filter = [])
    (hon : t.settings.enabled = true) {root : NodeId} {inputLength : Nat} {rest : List Event}
    (hinner : ∀ event ∈ rest, event.isStart = false)
    (hfits : (Event.start root inputLength :: rest).length ≤ settings.capacity) :
    ∃ older, (t.watch g (.start root inputLength :: rest)).1.buffer.toList =
        older ++ recordsOf (t.parseCount + 1) t.clock t.buffer.nextId
          (.start root inputLength :: rest) ∧
      ∀ r ∈ older, r.parse < t.parseCount + 1 := by
  have hopened : (t.opened g).settings.filter = [] := h.filter.trans hfilter
  have hlength : (recordsOf (t.parseCount + 1) t.clock t.buffer.nextId
      (.start root inputLength :: rest)).length ≤ t.buffer.capacity := by
    rw [length_recordsOf, h.capacity]
    exact hfits
  obtain ⟨older, hsuffix, hkept⟩ := exists_rtake_append t.buffer.toList hlength
  refine ⟨older, ?_, fun r hr => Nat.lt_succ_of_le (h.numbered r (hsuffix.subset hr))⟩
  rw [watch_parse hon hinner, Tracer.noted, kept_of_no_filter hopened, Buffer.toList_pushAll]
  exact hkept

theorem obeyAll_append (t : Tracer) (before after : List Command) :
    t.obeyAll (before ++ after) = (t.obeyAll before).obeyAll after :=
  List.foldl_append

theorem buffer_of_switches {commands : List Command} :
    ∀ {t : Tracer}, (∀ c ∈ commands, c.isSwitch = true) →
      (t.obeyAll commands).buffer = t.buffer := by
  induction commands with
  | nil => intro t _; rfl
  | cons c rest ih =>
      intro t h
      obtain ⟨hfirst, hrest⟩ := List.forall_mem_cons.mp h
      have hsame : (t.obey c).buffer = t.buffer := by
        cases c with
        | clear => cases hfirst
        | parse p start input => cases hfirst
        | _ => rfl
      exact (ih hrest).trans hsame

end Tracer

end Trace

end Packrat
