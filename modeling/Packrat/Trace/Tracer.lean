import Packrat.Event
import Packrat.Trace.Buffer
import Packrat.Trace.Format

/-!
# Tracers

A tracer follows parses and keeps their events in a buffer. It can be switched off, when it keeps
nothing and counts nothing; it can be told to keep only some types of events; and it can write each
record as soon as it is kept.

Parses are counted from one, those only that begin while the tracer is on.
-/

namespace Packrat.Trace

structure Settings where
  enabled : Bool
  capacity : Nat
  /-- Records are written out as they are made. -/
  live : Bool
  /-- Records are written as JSON. -/
  json : Bool
  /-- The types to keep; none given means all. -/
  filter : List String

/-- Off, with the standard capacity. -/
def Settings.standard : Settings := ⟨false, Buffer.standardCapacity, false, false, []⟩

/-- On, writing records as they are made. -/
def Settings.toScreen : Settings := { standard with enabled := true, live := true }

/-- Keeps the events of parses. -/
structure Tracer where
  settings : Settings
  buffer : Buffer
  /-- The grammar of the newest traced parse. -/
  grammar : Option Grammar
  /-- How many parses began while the tracer was on. -/
  parseCount : Nat
  /-- The time that records are stamped with, in nanoseconds. It stands still unless the tracer's
  owner sets it. -/
  clock : Nat

namespace Tracer

def new (settings : Settings) : Tracer :=
  ⟨settings, Buffer.new settings.capacity, none, 0, 0⟩

/-! ## Settings -/

def setEnabled (t : Tracer) (enabled : Bool) : Tracer :=
  { t with settings := { t.settings with enabled := enabled } }

def setJson (t : Tracer) (json : Bool) : Tracer :=
  { t with settings := { t.settings with json := json } }

def setLive (t : Tracer) (live : Bool) : Tracer :=
  { t with settings := { t.settings with live := live } }

def clear (t : Tracer) : Tracer := { t with buffer := t.buffer.clear }

/-! ## Texts -/

/-- One record in the chosen form. -/
def formatRecord (t : Tracer) (g : Grammar) (r : Record) : String :=
  if t.settings.json then JsonLine.object g r else Human.plain.line g r

def formatRecords (t : Tracer) (g : Grammar) (records : List Record) : String :=
  if t.settings.json then JsonLine.array false g records else Human.plain.lines g records

/-- The records of the newest traced parse; nothing before the first one. -/
def formatLastParse (t : Tracer) : String :=
  match t.grammar with
  | none => ""
  | some g => t.formatRecords g (t.buffer.ofParse t.parseCount)

/-! ## Following parses -/

/-- Whether records of a type are kept. -/
def keeps (t : Tracer) (typeName : String) : Bool :=
  t.settings.filter.isEmpty || t.settings.filter.contains typeName

/-- The line that is written out for the newest record. -/
def liveLine? (t : Tracer) : Option String :=
  if t.settings.live then
    match t.buffer.newest?, t.grammar with
    | some r, some g => some (t.formatRecord g r)
    | _, _ => none
  else none

/-- Keeps a record of the parse under way if its type is one to keep, and answers with the line
written out for it. Whether the tracer is on has been looked at before. -/
def keep (t : Tracer) (depth : Nat) (note : Note) : Tracer × Option String :=
  if t.keeps note.typeName then
    let (buffer, _) := t.buffer.push t.parseCount depth t.clock note
    let t := { t with buffer := buffer }
    (t, t.liveLine?)
  else (t, none)

/-- Keeps a record, unless the tracer is off. -/
def record (t : Tracer) (depth : Nat) (note : Note) : Tracer × Option String :=
  if t.settings.enabled then t.keep depth note else (t, none)

/-- Follows an event of a parse with a grammar. What a failure or an abort says is put together only
once the tracer is known to be on. -/
def observe (t : Tracer) (g : Grammar) : Event → Tracer × Option String
  | .start root inputLength =>
    if t.settings.enabled then
      { t with parseCount := t.parseCount + 1, grammar := some g }.record 0
        (.parseStart root inputLength)
    else (t, none)
  | .enter node position depth => t.record depth (.enter node position)
  | .matched node start stop depth => t.record depth (.matched node start stop)
  | .failed node start kind position depth =>
    if t.settings.enabled then t.keep depth (.failed node start kind position) else (t, none)
  | .memoHit node position depth => t.record depth (.memoHit node position)
  | .aborted error => if t.settings.enabled then t.keep 0 (.aborted error) else (t, none)
  | .finish (.ok parsed) => t.record 0 (.parseEnd (some parsed.consumed) none)
  | .finish (.error error) => t.record 0 (.parseEnd none (some error))

/-- Follows the events of a parse, and answers with the lines written out. -/
def watch (t : Tracer) (g : Grammar) : List Event → Tracer × List String
  | [] => (t, [])
  | event :: rest =>
    let (t, line?) := t.observe g event
    let (t, lines) := t.watch g rest
    (t, line?.toList ++ lines)

end Tracer

end Packrat.Trace
