import Packrat.Session.Basic

/-!
# Sessions on a screen

A reader at a prompt gives one reading after another. Each leads to a turn: the session after it,
the trace and the reply to show, and whether it was the last. What is shown is text on two channels,
results on one and failures and traces on the other.
-/

namespace Packrat.Session

/-! ## Texts -/

/-- Text for the two channels. -/
structure Output where
  /-- Results. -/
  out : String
  /-- Failures and traces. -/
  err : String

def Output.none : Output := ⟨"", ""⟩

/-- One text after another, on each channel. -/
def Output.append (a b : Output) : Output := ⟨a.out ++ b.out, a.err ++ b.err⟩

/-- What is shown before the first line. -/
def banner : String :=
  "\x1b[1;36mStrand\x1b[0m bencode REPL v0.1.0\n"
    ++ "Type a document to parse it, :help for commands, Ctrl+D to exit.\n\n"

def errorLine (message : String) : String :=
  "\x1b[31mError: " ++ message ++ "\x1b[0m\n"

def shown : Except Error Reply → Output
  | .ok (.parsed text) => ⟨"\x1b[1m" ++ text ++ "\x1b[0m\n", ""⟩
  | .ok (.failed report) => ⟨"", "\x1b[31m" ++ Text.trimEnd report.display ++ "\x1b[0m\n"⟩
  | .ok (.message text) => ⟨text ++ "\n", ""⟩
  | .ok .nothing | .ok .quit => Output.none
  | .error e => ⟨"", errorLine e.message⟩

/-- What was typed at a prompt. -/
inductive Reading where
  | line (text : String)
  /-- The line was given up. -/
  | interrupted
  | endOfInput
  | failed (reason : String)

/-- What a reading leads to. -/
structure Turn where
  session : Session
  /-- The records of the newest traced parse, in the form in which they are shown. -/
  trace : Option String := none
  /-- What evaluating the line gave. -/
  reply : Option (Except Error Reply) := none
  /-- The line as it goes into the history. -/
  remembered : Option String := none
  /-- The session goes on, or is over with a result. -/
  ended : Option (Except Error Unit) := none

/-- Whether a line has its trace shown. The line is taken as it was typed, with the blanks that
evaluating it would drop. -/
def showsTrace (s : Session) (line : String) : Bool :=
  s.tracer.settings.enabled && !isCommand line

/-- Handles a line that is not blank. -/
def turnOfLine (s : Session) (line : String) : Turn :=
  let (s, reply) := s.eval line
  { session := s
    trace := if s.showsTrace line then some s.tracer.formatLastParse else none
    reply := some reply
    remembered := some line
    ended := match reply with
      | .ok .quit => some (.ok ())
      | _ => none }

/-- Handles one reading. A blank line leads to nothing. -/
def turn (s : Session) : Reading → Turn
  | .interrupted => { session := s }
  | .endOfInput => { session := s, ended := some (.ok ()) }
  | .failed reason => { session := s, ended := some (.error (.plain (.io reason))) }
  | .line text => if (Text.trim text).isEmpty then { session := s } else s.turnOfLine text

def shownTrace (text : String) : Output := ⟨"", text ++ "\n"⟩

/-- What a turn shows: a trace comes before the reply. -/
def Turn.output (t : Turn) : Output :=
  ((t.trace.map shownTrace).getD Output.none).append ((t.reply.map shown).getD Output.none)

/-- All that happened in a session. -/
structure Transcript where
  session : Session
  output : Output
  history : List String
  /-- How often a line was asked for. -/
  asked : Nat
  result : Except Error Unit

/-- Goes through readings until the session is over; their end is the end of input. -/
def turns (s : Session) : List Reading → Transcript
  | [] => ⟨s, Output.none, [], 1, .ok ()⟩
  | reading :: rest =>
    let t := s.turn reading
    match t.ended with
    | some result => ⟨t.session, t.output, t.remembered.toList, 1, result⟩
    | none =>
      let later := turns t.session rest
      { later with
        output := t.output.append later.output
        history := t.remembered.toList ++ later.history
        asked := later.asked + 1 }

/-- A whole session. A line break is shown when it ends well. -/
def run (s : Session) (showBanner : Bool) (readings : List Reading) : Transcript :=
  let t := s.turns readings
  let opening : Output := if showBanner then ⟨banner, ""⟩ else Output.none
  let closing : Output := match t.result with
    | .ok _ => ⟨"\n", ""⟩
    | .error _ => Output.none
  { t with output := (opening.append t.output).append closing }

end Packrat.Session
