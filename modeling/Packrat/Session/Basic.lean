import Packrat.Bencode.Decode
import Packrat.Bencode.Generate
import Packrat.Text.Blank
import Packrat.Text.Number
import Packrat.Trace.Replay
import Packrat.Trace.Tracer

/-!
# Interactive sessions

A session reads lines. A line that begins with a colon is a command, any other is a bencode document
to parse. What a line asks for is a reply; how a reply is shown is told elsewhere, so the rest of
the program can use a session without a screen.
-/

namespace Packrat

/-- What evaluating a line gave. -/
inductive Reply where
  | parsed (text : String)
  | failed (report : Report)
  /-- A command has something to say. -/
  | message (text : String)
  | nothing
  | quit

/-- The settings of a session, and the tracer of its parses. -/
structure Session where
  /-- A line must be one document and nothing else. -/
  strict : Bool
  /-- Values are shown as JSON. -/
  json : Bool
  tracer : Trace.Tracer

namespace Session

/-- A new session: strict, showing tokens, with the tracer off. -/
def new : Session := ⟨true, false, Trace.Tracer.new Trace.Settings.standard⟩

/-! ## Commands -/

/-- The commands, as offered for completion. -/
def commands : List String := [":help", ":trace", ":strict", ":json", ":generate", ":quit"]

def help : String :=
  "Enter a bencode document to parse it.\n\nCommands:\n"
    ++ "  :help             Show this help\n"
    ++ "  :trace on|off     Print the parse trace after each document\n"
    ++ "  :strict on|off    Require the whole line to be one document (default on)\n"
    ++ "  :json on|off      Print decoded values as JSON instead of token trees\n"
    ++ "  :generate <seed>  Print a random document\n"
    ++ "  :quit             Exit"

/-- The setting that an argument asks for. -/
def switch (name : String) (argument : Option String) : Except Error Bool :=
  match argument with
  | some "on" => .ok true
  | some "off" => .ok false
  | _ => .error (.plain (.internal ("usage: " ++ name ++ " on|off")))

def command (s : Session) (name : String) (argument : Option String) :
    Session × Except Error Reply :=
  let set (change : Bool → Session) : Session × Except Error Reply :=
    match switch name argument with
    | .ok on => (change on, .ok .nothing)
    | .error e => (s, .error e)
  if name = ":help" ∨ name = ":h" then (s, .ok (.message help))
  else if name = ":quit" ∨ name = ":q" then (s, .ok .quit)
  else if name = ":trace" then set fun on => { s with tracer := s.tracer.setEnabled on }
  else if name = ":strict" then set fun on => { s with strict := on }
  else if name = ":json" then set fun on => { s with json := on }
  else if name = ":generate" then
    match argument.bind Text.readWord? with
    | some seed =>
      (s, .ok (.message (Text.escape (Bencode.generateDocument seed Bencode.Limits.standard))))
    | none => (s, .error (.plain (.internal "usage: :generate <seed>")))
  else (s, .error (.plain (.internal ("unknown command: " ++ name ++ " (try :help)"))))

/-! ## Documents -/

/-- The text of a parsed document. -/
def format (s : Session) (parsed : Parsed) : Except Error String :=
  if s.json then (Bencode.ofToken parsed.token).map (·.json.compact) else .ok parsed.display

/-- Parses a document. A fatal error is not explained. -/
def parseDocument (s : Session) (input : List UInt8) : Session × Except Error Reply :=
  let parser : Parser := ⟨Bencode.grammar, if s.strict then Config.strict else Config.standard⟩
  let (outcome, events) := parser.watch Bencode.grammar.root input
  let (tracer, _) := s.tracer.watch Bencode.grammar events
  let s := { s with tracer := tracer }
  match outcome with
  | .ok parsed => (s, (s.format parsed).map .parsed)
  | .error e =>
    if e.isFatal then (s, .error e)
    else
      match (Explainer.new.watch Bencode.grammar input events).report with
      | some report => (s, .ok (.failed report))
      | none => (s, .error e)

/-! ## Lines -/

def isCommand (text : String) : Bool := text.toList.head? == some ':'

/-- Evaluates a line. A command may have blanks around it; in a document they are part of it. -/
def eval (s : Session) (line : String) : Session × Except Error Reply :=
  let trimmed := Text.trim line
  if trimmed.isEmpty then (s, .ok .nothing)
  else if isCommand trimmed then
    let words := Text.words trimmed
    s.command (words[0]?.getD "") words[1]?
  else s.parseDocument (Text.toUtf8 line)

end Session

end Packrat
