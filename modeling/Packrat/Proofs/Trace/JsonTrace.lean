import Mathlib.Data.List.Forall2
import Packrat.Proofs.Json.Unambiguous
import Packrat.Proofs.Json.Writing
import Packrat.Trace.Format

/-!
# A JSON trace says what its records say

What a record says is an object, told here without its text: a member for each thing
that is known of the record, and then those that belong to the kind of event. The
text that is written for it says exactly that, whatever the names in the grammar and
the causes in the errors are made of, and so does the array of all of them.

The text is put together in one piece for each kind of event. Each piece is a member,
or several with commas between, so the pieces are read off one after another and the
object is closed at the end.
-/

namespace Packrat.Trace

open JsonText

/-! ## What records say -/

/-- A number, if there is one. -/
def numberOrNull : Option Nat → Value
  | some n => .num n
  | none => .null

/-- The members that tell a node: its number and what the grammar calls it. -/
def nodeMembers (g : Grammar) (id : NodeId) : List (String × Value) :=
  [("node", .num id.index), ("label", .str (g.describe id))]

def errorMembers (e : Error) : List (String × Value) :=
  [("kind", .str e.kind.name), ("message", .str e.kind.message),
    ("position", numberOrNull e.position)]

/-- The members that belong to a kind of event. An error that ended the parse at once is told
with its position in the message. -/
def Note.members (g : Grammar) : Note → List (String × Value)
  | .parseStart root inputLength => nodeMembers g root ++ [("input_len", .num inputLength)]
  | .parseEnd consumed failure =>
    [("consumed", numberOrNull consumed),
      ("error", failure.elim .null fun e => .obj (errorMembers e))]
  | .enter id position | .memoHit id position => nodeMembers g id ++ [("position", .num position)]
  | .matched id start stop => nodeMembers g id ++ [("start", .num start), ("end", .num stop)]
  | .failed id start kind position =>
    nodeMembers g id ++ [("start", .num start), ("kind", .str kind.name),
      ("message", .str kind.message), ("position", .num position)]
  | .aborted e => [("kind", .str e.kind.name), ("message", .str e.message)]

def Record.members (g : Grammar) (r : Record) : List (String × Value) :=
  [("id", .num r.id), ("parse", .num r.parse), ("depth", .num r.depth),
    ("timestamp_ns", .num r.timestamp), ("type", .str r.note.typeName)] ++ r.note.members g

/-- No name comes twice, so a member is found by its name. -/
theorem Record.nodup_members (g : Grammar) (r : Record) :
    ((r.members g).map Prod.fst).Nodup := by
  obtain ⟨id, parse, depth, timestamp, note⟩ := r
  cases note <;> simp [Record.members, Note.members, nodeMembers]

/-! ## Texts in quotes -/

theorem escaped_escapeChar (c : Char) : Escaped c (JsonLine.escapeChar c) := by
  unfold JsonLine.escapeChar
  iterate 5
    split
    · next hc => exact hc ▸ escaped_short rfl rfl
  split
  · exact escaped_unit (by omega)
  · next hbackslash hquote _ _ _ hcontrol =>
      exact escaped_singleton (by omega) hquote hbackslash

theorem says_text (text : String) : Says (JsonLine.quote text) (.str text) :=
  says_quote escaped_escapeChar text

/-! ## Members -/

theorem says_orNull (n : Option Nat) : Says (JsonLine.orNull n) (numberOrNull n) := by
  cases n with
  | none => exact says_null
  | some n => exact says_nat n

theorem says_node (g : Grammar) (id : NodeId) :
    SaysMembers (JsonLine.node g id) (nodeMembers g id) := by
  have hnode := says_member "node" (by simp [NeedsNoEscape]) (says_nat id.index)
  have hlabel := says_member "label" (by simp [NeedsNoEscape]) (says_text (g.describe id))
  intro r
  simpa [JsonLine.node, nodeMembers] using hnode.append hlabel r

/-- Whatever went wrong, a name for it and a message come one behind the other. -/
theorem says_cause (kind : Error.Kind) (message : String) :
    SaysMembers ("\"kind\":" ++ JsonLine.quote kind.name ++ ",\"message\":" ++
        JsonLine.quote message)
      [("kind", .str kind.name), ("message", .str message)] := by
  have hkind := says_member "kind" (by simp [NeedsNoEscape]) (says_text kind.name)
  have hmessage := says_member "message" (by simp [NeedsNoEscape]) (says_text message)
  intro r
  simpa using hkind.append hmessage r

theorem says_error (failure : Option Error) :
    Says (JsonLine.error failure) (failure.elim .null fun e => .obj (errorMembers e)) := by
  cases failure with
  | none => exact says_null
  | some e =>
      have hposition := says_member "position" (by simp [NeedsNoEscape]) (says_orNull e.position)
      intro r
      simpa [JsonLine.error, errorMembers] using
        says_obj ((says_cause e.kind e.kind.message).append hposition) r

theorem says_note (g : Grammar) (note : Note) :
    SaysMembers (JsonLine.note g note) (note.members g) := by
  have hposition := fun position : Nat =>
    says_member "position" (by simp [NeedsNoEscape]) (says_nat position)
  have hstart := fun start : Nat => says_member "start" (by simp [NeedsNoEscape]) (says_nat start)
  intro r
  cases note with
  | parseStart root inputLength =>
      have hlength := says_member "input_len" (by simp [NeedsNoEscape]) (says_nat inputLength)
      simpa [JsonLine.note, Note.members] using (says_node g root).append hlength r
  | parseEnd consumed failure =>
      have hconsumed := says_member "consumed" (by simp [NeedsNoEscape]) (says_orNull consumed)
      have herror := says_member "error" (by simp [NeedsNoEscape]) (says_error failure)
      simpa [JsonLine.note, Note.members] using hconsumed.append herror r
  | enter id position | memoHit id position =>
      simpa [JsonLine.note, Note.members] using (says_node g id).append (hposition position) r
  | matched id start stop =>
      have hstop := says_member "end" (by simp [NeedsNoEscape]) (says_nat stop)
      simpa [JsonLine.note, Note.members] using
        ((says_node g id).append (hstart start)).append hstop r
  | failed id start kind position =>
      simpa [JsonLine.note, Note.members] using
        (((says_node g id).append (hstart start)).append (says_cause kind kind.message)).append
          (hposition position) r
  | aborted e =>
      simpa [JsonLine.note, Note.members] using says_cause e.kind e.message r

/-! ## Records -/

theorem says_object (g : Grammar) (r : Record) :
    Says (JsonLine.object g r) (.obj (r.members g)) := by
  have hid := says_member "id" (by simp [NeedsNoEscape]) (says_nat r.id)
  have hparse := says_member "parse" (by simp [NeedsNoEscape]) (says_nat r.parse)
  have hdepth := says_member "depth" (by simp [NeedsNoEscape]) (says_nat r.depth)
  have htime := says_member "timestamp_ns" (by simp [NeedsNoEscape]) (says_nat r.timestamp)
  have htype := says_member "type" (by simp [NeedsNoEscape]) (says_text r.note.typeName)
  have hall := ((((hid.append hparse).append hdepth).append htime).append htype).append
    (says_note g r.note)
  intro rest
  unfold JsonLine.object
  simpa [Record.members] using says_obj hall rest

theorem says_array (pretty : Bool) (g : Grammar) (records : List Record) :
    Says (JsonLine.array pretty g records)
      (.arr (records.map fun r => .obj (r.members g))) := by
  have hobjects : List.Forall₂ Says (records.map (JsonLine.object g))
      (records.map fun r => .obj (r.members g)) := by
    rw [List.forall₂_map_left_iff, List.forall₂_map_right_iff]
    exact List.forall₂_same.mpr fun r _ => says_object g r
  intro rest
  cases pretty with
  | true =>
      have hline : Blank "\n" := by simp [Blank, isBlank]
      have hindented : Blank "\n  " := by simp [Blank, isBlank]
      simpa [JsonLine.array] using says_arr hindented hindented hline hobjects rest
  | false =>
      have hnone : Blank "" := nofun
      simpa [JsonLine.array] using says_arr hnone hnone hnone hobjects rest

/-- A trace as JSON is a document, compact or pretty, and it says one thing: an array with one
object a record, in order, whose members are those of the record and have different names. -/
theorem json_says_records (pretty : Bool) (g : Grammar) (records : List Record) :
    (∀ v, Document (JsonLine.array pretty g records) v ↔
      v = .arr (records.map fun r => .obj (r.members g))) ∧
    ∀ r : Record, ((r.members g).map Prod.fst).Nodup := by
  have hdocument := (says_array pretty g records).document
  refine ⟨fun v => ⟨fun h => h.unique hdocument, ?_⟩, Record.nodup_members g⟩
  intro hv
  rw [hv]
  exact hdocument

end Packrat.Trace
