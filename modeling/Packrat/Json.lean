import Packrat.Text.Escape

/-!
# JSON documents

The JSON that the library writes for tokens and decoded documents. Numbers are integers, since no
value here has a fraction, and an object keeps its members in the order given, repeated names
included.

Two layouts are written: the compact one without any blank, and the indented one with one element or
member a line and two spaces a level.
-/

namespace Packrat

/-- A JSON value whose numbers are integers. -/
inductive Json where
  | int (n : Int)
  | str (text : String)
  | arr (items : List Json)
  | obj (members : List (String × Json))

namespace Json

/-! ## Strings -/

/-- One character inside a JSON string. Only what JSON forbids there is escaped. -/
def escapeChar (c : Char) : String :=
  if c = '"' then "\\\""
  else if c = '\\' then "\\\\"
  else if c.toNat = 0x08 then "\\b"
  else if c.toNat = 0x0c then "\\f"
  else if c = '\n' then "\\n"
  else if c = '\r' then "\\r"
  else if c = '\t' then "\\t"
  else if c.toNat < 0x20 then "\\u" ++ Text.padLeft 4 '0' (Text.hex c.toNat)
  else String.singleton c

/-- A text as a JSON string, quotes included. -/
def quote (text : String) : String :=
  "\"" ++ String.join (text.toList.map escapeChar) ++ "\""

/-! ## The compact layout -/

mutual

/-- A value without any blank. -/
def compact : Json → String
  | .int n => toString n
  | .str text => quote text
  | .arr items => "[" ++ ",".intercalate (compactItems items) ++ "]"
  | .obj members => "\x7b" ++ ",".intercalate (compactMembers members) ++ "\x7d"

def compactItems : List Json → List String
  | [] => []
  | item :: rest => compact item :: compactItems rest

def compactMembers : List (String × Json) → List String
  | [] => []
  | (name, value) :: rest => (quote name ++ ":" ++ compact value) :: compactMembers rest

end

/-! ## The indented layout -/

/-- A line break followed by the indentation of a level. -/
def newline (level : Nat) : String :=
  "\n" ++ String.ofList (List.replicate (2 * level) ' ')

/-- Parts between two brackets, each on a line of its own; nothing stands between the brackets when
there are no parts. -/
def block (level : Nat) (opening closing : String) (parts : List String) : String :=
  match parts with
  | [] => opening ++ closing
  | parts =>
    opening ++ newline (level + 1) ++ ("," ++ newline (level + 1)).intercalate parts
      ++ newline level ++ closing

mutual

/-- A value in the indented layout, its first line already under way at `level`. -/
def indented (level : Nat) : Json → String
  | .int n => toString n
  | .str text => quote text
  | .arr items => block level "[" "]" (indentedItems (level + 1) items)
  | .obj members => block level "\x7b" "\x7d" (indentedMembers (level + 1) members)

def indentedItems (level : Nat) : List Json → List String
  | [] => []
  | item :: rest => indented level item :: indentedItems level rest

def indentedMembers (level : Nat) : List (String × Json) → List String
  | [] => []
  | (name, value) :: rest =>
    (quote name ++ ": " ++ indented level value) :: indentedMembers level rest

end

/-- A value over several lines, from the left margin. -/
def pretty (value : Json) : String :=
  value.indented 0

end Json

end Packrat
