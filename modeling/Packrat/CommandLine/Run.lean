import Packrat.CommandLine.Files
import Packrat.CommandLine.Lines
import Packrat.CommandLine.Options

/-!
# The command line

The program parses bencode documents given as arguments, as files or by a seed, and prints what they
hold. Without any document, or when asked to, it goes on with an interactive session.

Reading files and packing tokens are left to the caller, who passes a function for each; everything
else is a function of the arguments and the standard input. Results go to one channel as bytes, since
packed tokens are no text, and failures to the other.
-/

namespace Packrat.CommandLine

/-! ## Documents -/

/-- What was printed on the two channels. -/
structure Printed where
  out : List UInt8
  err : String

/-- A part of a run. It may end the run with a message. -/
abbrev Run := EStateM String Printed

def printBytes (bytes : List UInt8) : Run Unit :=
  modify fun p => { p with out := p.out ++ bytes }

def print (text : String) : Run Unit := printBytes (Text.toUtf8 text)

/-- Prints a text about a failure. -/
def complain (text : String) : Run Unit :=
  modify fun p => { p with err := p.err ++ text }

/-- A document and where it came from. -/
structure Document where
  label : String
  bytes : List UInt8

/-- How files are read: the bytes that a path leads to. -/
abbrev ReadFile := String → Except FileError (List UInt8)

/-- How tokens are packed, if they can be. -/
abbrev Pack := Token → Except Error (List UInt8)

/-- Reads the files, in order, up to one that cannot be read. -/
def readFiles (read : ReadFile) : List String → Run (List Document)
  | [] => return []
  | file :: rest => do
    match read file with
    | .error e => throw ("failed to read '" ++ file ++ "': " ++ e.message)
    | .ok bytes =>
      let later ← readFiles read rest
      return ⟨file, bytes⟩ :: later

/-- The documents asked for: the random one, which is printed, then literals, then files. -/
def documents (o : Options) (read : ReadFile) : Run (List Document) := do
  let generated ← match o.generate with
    | Option.none => pure []
    | some seed =>
      let document := Bencode.generateDocument seed Bencode.Limits.standard
      print (Text.escape document ++ "\n")
      pure [⟨"seed " ++ toString seed.toNat, document⟩]
  let literals := o.literals.map fun text => ⟨"-e", Text.toUtf8 text⟩
  let files ← readFiles read o.files
  return generated ++ literals ++ files

/-- Prints a parsed document in the form asked for. -/
def printParsed (o : Options) (pack : Pack) (parsed : Parsed) : Run Unit :=
  if o.msgpack then
    match pack parsed.token with
    | .ok bytes => printBytes bytes
    | .error e => throw e.message
  else if o.json then
    match Bencode.ofToken parsed.token with
    | .ok value => print (value.json.pretty ++ "\n")
    | .error e => throw e.message
  else print (parsed.display ++ "\n")

/-- What is printed below the error of a document that could not be parsed: what was expected if that
was asked for, and where the error lies. -/
def failureDetails (o : Options) (document : Document) (e : Error) (report : Option Report) :
    String :=
  match o.explain, report with
  | true, some r => r.expectedLine ++ r.excerpt ++ "\n"
  | _, _ => Excerpt.caret document.bytes (e.position.getD 0) ++ "\n"

/-- Parses documents in order, and answers whether all of them could be parsed. A fatal error ends
the run. -/
def parseAll (o : Options) (pack : Pack) (tracer : Trace.Tracer) : List Document → Run Bool
  | [] => return true
  | document :: rest => do
    let config : Config := ⟨o.strict, Config.standard.maxDepth, o.packrat⟩
    let (outcome, events) :=
      (Parser.mk Bencode.grammar config).watch Bencode.grammar.root document.bytes
    let (tracer, lines) := tracer.watch Bencode.grammar events
    complain (String.join (lines.map (· ++ "\n")))
    match outcome with
    | .ok parsed =>
      printParsed o pack parsed
      parseAll o pack tracer rest
    | .error e =>
      if e.isFatal then throw e.message
      else
        let report := (Explainer.new.watch Bencode.grammar document.bytes events).report
        complain (Session.errorLine (document.label ++ ": " ++ e.message))
        complain (failureDetails o document e report)
        let _ ← parseAll o pack tracer rest
        return false

def tracer (o : Options) : Trace.Tracer :=
  let on := o.trace || o.traceJson
  Trace.Tracer.new { Trace.Settings.standard with enabled := on, live := on, json := o.traceJson }

/-! ## Running -/

/-- How the first part of a run ends. -/
inductive Stage where
  /-- The run is over; it succeeded or not. -/
  | finished (ok : Bool)
  /-- A session follows, and then the run is over. -/
  | session (s : Session) (showBanner : Bool) (ok : Bool)

def sessionOf (o : Options) : Session :=
  { Session.new with
    json := o.json
    tracer := Session.new.tracer.setEnabled (o.trace || o.traceJson) }

/-- All that a run does before its session. -/
def prepare (arguments : List String) (read : ReadFile) (pack : Pack) : Run Stage := do
  match options arguments with
  | .error message => throw message
  | .ok o =>
    if o.help then
      print help
      return .finished true
    else if o.version then
      print version
      return .finished true
    else
      let inputs ← documents o read
      let ok ← parseAll o pack (tracer o) inputs
      if inputs.isEmpty || o.repl then return .session (sessionOf o) inputs.isEmpty ok
      else return .finished ok

/-- Goes on with a session if one follows, and answers whether the run succeeded. -/
def conclude (stdin : List UInt8) : Stage → Run Bool
  | .finished ok => return ok
  | .session s showBanner ok => do
    let t := s.run showBanner (readings stdin)
    print t.output.out
    complain t.output.err
    match t.result with
    | .ok _ => return ok
    | .error e => throw e.message

structure Exit where
  code : Nat
  out : List UInt8
  err : String

/-- The exit of a run that ended. An error that ended it is printed last. -/
def exitOf : EStateM.Result String Printed Bool → Exit
  | .ok ok p => ⟨if ok then 0 else 1, p.out, p.err⟩
  | .error message p => ⟨1, p.out, p.err ++ Session.errorLine message⟩

def run (arguments : List String) (read : ReadFile) (pack : Pack) (stdin : List UInt8) : Exit :=
  exitOf ((prepare arguments read pack >>= conclude stdin) ⟨[], ""⟩)

end Packrat.CommandLine
