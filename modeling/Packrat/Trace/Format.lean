import Packrat.Grammar.Basic
import Packrat.Text.Fixed
import Packrat.Trace.Record

/-!
# Records as text

Records are written in two ways. The human form is a line a record, indented by depth, with the
nodes by their descriptions. The JSON form is an object a record, and an array for several. Records
hold node ids only, so both need the grammar.
-/

namespace Packrat.Trace

/-! ## The human form -/

/-- What the human form shows besides the record itself. -/
structure Human where
  timestamps : Bool
  ids : Bool

namespace Human

/-- Neither times nor numbers. -/
def plain : Human := ⟨false, false⟩

def time (nanoseconds : Nat) : String :=
  let us := nanoseconds / 1000
  if 1000000 ≤ us then
    -- a count too long for a double is rounded before it is divided
    Text.thousandths (if us < 1 <<< 53 then us else Text.roundDiv us 2 * 2) 1000000 ++ "s"
  else if 1000 ≤ us then Text.thousandths us 1000 ++ "ms"
  else toString us ++ "us"

/-- What a record says. -/
def note (g : Grammar) (depth : Nat) : Note → String
  | .parseStart root inputLength =>
    "=== PARSE " ++ g.describe root ++ " (" ++ toString inputLength ++ " bytes) ==="
  | .parseEnd (some consumed) _ => "=== PARSE END OK (" ++ toString consumed ++ " bytes) ==="
  | .parseEnd none (some error) => "=== PARSE END FAILED: " ++ error.message ++ " ==="
  | .parseEnd none none => "=== PARSE END FAILED ==="
  | .enter node position =>
    indent ++ "> " ++ g.describe node ++ " @" ++ toString position
  | .matched node start stop =>
    indent ++ "+ " ++ g.describe node ++ " " ++ toString start ++ ".." ++ toString stop
  | .failed node start kind position =>
    indent ++ "- " ++ g.describe node ++ " @" ++ toString start ++ ": " ++ kind.message
      ++ " at byte " ++ toString position
  | .memoHit node position =>
    indent ++ "= " ++ g.describe node ++ " @" ++ toString position ++ " (memo)"
  | .aborted error => "!!! ABORTED: " ++ error.message
where
  /-- Two blanks for each level. -/
  indent : String := String.ofList (List.replicate (2 * depth) ' ')

def line (h : Human) (g : Grammar) (r : Record) : String :=
  let id := if h.ids then "[" ++ Text.padLeft 6 '0' (toString r.id) ++ "] " else ""
  let parse := "P" ++ Text.padLeft 4 '0' (toString r.parse) ++ " "
  let time := if h.timestamps then Text.padLeft 10 ' ' (time r.timestamp) ++ " " else ""
  id ++ parse ++ time ++ note g r.depth r.note

def lines (h : Human) (g : Grammar) (records : List Record) : String :=
  "\n".intercalate (records.map (h.line g))

end Human

/-! ## The JSON form -/

namespace JsonLine

/-- One character inside a string. Besides what JSON forbids, every other control character is
escaped by number, since a trace is read on terminals. -/
def escapeChar (c : Char) : String :=
  if c = '\\' then "\\\\"
  else if c = '"' then "\\\""
  else if c = '\n' then "\\n"
  else if c = '\r' then "\\r"
  else if c = '\t' then "\\t"
  else if c.toNat < 0x20 ∨ (0x7f ≤ c.toNat ∧ c.toNat ≤ 0x9f) then
    "\\u" ++ Text.padLeft 4 '0' (Text.hex c.toNat)
  else String.singleton c

def quote (text : String) : String :=
  "\"" ++ String.join (text.toList.map escapeChar) ++ "\""

/-- A number, or `null`. -/
def orNull : Option Nat → String
  | some n => toString n
  | none => "null"

/-- The members that tell a node. -/
def node (g : Grammar) (id : NodeId) : String :=
  "\"node\":" ++ toString id.index ++ ",\"label\":" ++ quote (g.describe id)

/-- The error of a parse that failed, or `null`. -/
def error : Option Error → String
  | none => "null"
  | some e =>
    "\x7b\"kind\":" ++ quote e.kind.name ++ ",\"message\":" ++ quote e.kind.message
      ++ ",\"position\":" ++ orNull e.position ++ "\x7d"

/-- The members that tell what a record says. -/
def note (g : Grammar) : Note → String
  | .parseStart root inputLength => node g root ++ ",\"input_len\":" ++ toString inputLength
  | .parseEnd consumed failure =>
    "\"consumed\":" ++ orNull consumed ++ ",\"error\":" ++ error failure
  | .enter id position | .memoHit id position => node g id ++ ",\"position\":" ++ toString position
  | .matched id start stop =>
    node g id ++ ",\"start\":" ++ toString start ++ ",\"end\":" ++ toString stop
  | .failed id start kind position =>
    node g id ++ ",\"start\":" ++ toString start ++ ",\"kind\":" ++ quote kind.name
      ++ ",\"message\":" ++ quote kind.message ++ ",\"position\":" ++ toString position
  | .aborted e => "\"kind\":" ++ quote e.kind.name ++ ",\"message\":" ++ quote e.message

def object (g : Grammar) (r : Record) : String :=
  "\x7b\"id\":" ++ toString r.id ++ ",\"parse\":" ++ toString r.parse
    ++ ",\"depth\":" ++ toString r.depth ++ ",\"timestamp_ns\":" ++ toString r.timestamp
    ++ ",\"type\":" ++ quote r.note.typeName ++ "," ++ note g r.note ++ "\x7d"

/-- Records as an array, each on a line of its own if `pretty`. -/
def array (pretty : Bool) (g : Grammar) (records : List Record) : String :=
  let objects := records.map (object g)
  if pretty then "[\n  " ++ ",\n  ".intercalate objects ++ "\n]"
  else "[" ++ ",".intercalate objects ++ "]"

end JsonLine

end Packrat.Trace
