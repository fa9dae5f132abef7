import Packrat.Text.Number

/-!
# Options of the command line

Arguments are read from left to right, and the first that makes no sense ends the reading. Options
that exclude each other are found out only after all have been read.
-/

namespace Packrat.CommandLine

/-- What the arguments ask for. -/
structure Options where
  files : List String
  literals : List String
  help : Bool
  version : Bool
  json : Bool
  msgpack : Bool
  strict : Bool
  packrat : Bool
  generate : Option UInt64
  repl : Bool
  trace : Bool
  traceJson : Bool
  explain : Bool

def Options.none : Options :=
  ⟨[], [], false, false, false, false, false, false, Option.none, false, false, false, false⟩

/-- Reads arguments one after another. -/
def readArguments (o : Options) : List String → Except String Options
  | [] => .ok o
  | "-h" :: rest | "--help" :: rest => readArguments { o with help := true } rest
  | "-V" :: rest | "--version" :: rest => readArguments { o with version := true } rest
  | ["-e"] => .error "-e requires a document"
  | "-e" :: document :: rest => readArguments { o with literals := o.literals ++ [document] } rest
  | "--json" :: rest => readArguments { o with json := true } rest
  | "--msgpack" :: rest => readArguments { o with msgpack := true } rest
  | "--strict" :: rest => readArguments { o with strict := true } rest
  | "--packrat" :: rest => readArguments { o with packrat := true } rest
  | "--repl" :: rest => readArguments { o with repl := true } rest
  | "--trace" :: rest => readArguments { o with trace := true } rest
  | "--trace-json" :: rest => readArguments { o with traceJson := true } rest
  | "--explain" :: rest => readArguments { o with explain := true } rest
  | ["--generate"] => .error "--generate requires a seed"
  | "--generate" :: seed :: rest =>
    match Text.readWord? seed with
    | some n => readArguments { o with generate := some n } rest
    | Option.none => .error ("invalid --generate seed: " ++ seed)
  | argument :: rest =>
    if argument.toList.head? = some '-' then .error ("unknown option: " ++ argument)
    else readArguments { o with files := o.files ++ [argument] } rest

def options (arguments : List String) : Except String Options := do
  let o ← readArguments Options.none arguments
  if o.json && o.msgpack then throw "--json and --msgpack are mutually exclusive"
  return o

/-! ## Fixed texts -/

def help : String :=
  "\x1b[1mStrand\x1b[0m - Parser combinators for byte buffers\n\n"
    ++ "\x1b[1mUSAGE:\x1b[0m\n"
    ++ "    strand [OPTIONS] [FILES...]\n\n"
    ++ "\x1b[1mARGUMENTS:\x1b[0m\n"
    ++ "    [FILES...]    Bencode files to parse\n\n"
    ++ "\x1b[1mOPTIONS:\x1b[0m\n"
    ++ "    -h, --help         Print help information\n"
    ++ "    -V, --version      Print version information\n"
    ++ "    -e DOCUMENT        Parse DOCUMENT given on the command line\n"
    ++ "    --json             Print decoded values as JSON\n"
    ++ "    --msgpack          Write token trees as MessagePack to stdout\n"
    ++ "    --strict           Reject input left over after the document\n"
    ++ "    --packrat          Memoize node results\n"
    ++ "    --generate SEED    Print and parse a random document\n"
    ++ "    --repl             Start the REPL after parsing any inputs\n\n"
    ++ "\x1b[1mDEBUG OPTIONS:\x1b[0m\n"
    ++ "    --trace            Trace node invocations to stderr\n"
    ++ "    --trace-json       Trace as JSON records\n"
    ++ "    --explain          List what was expected where a parse failed\n\n"
    ++ "\x1b[1mEXAMPLES:\x1b[0m\n"
    ++ "    strand                              Start the REPL\n"
    ++ "    strand torrent.bencode              Parse a file\n"
    ++ "    strand --json -e d1:ai1ee           Parse a literal and print JSON\n"
    ++ "    strand --strict --explain -e li1e   Show why a document is rejected\n"
    ++ "    strand --generate 42                Print and parse a random document\n\n"
    ++ "\x1b[1mREPL COMMANDS:\x1b[0m\n"
    ++ "    :help                Show commands\n"
    ++ "    :trace on|off        Print the parse trace after each document\n"
    ++ "    :strict on|off       Require each line to be exactly one document\n"
    ++ "    :json on|off         Print JSON instead of token trees\n"
    ++ "    :generate SEED       Print a random document\n"
    ++ "    Ctrl+D               Exit REPL\n"

def version : String := "strand 0.1.0\n"

end Packrat.CommandLine
