import Packrat.CommandLine.Run
import Packrat.MessagePack.Writer

/-!
# The program

Reads the files that the arguments name, runs the command line, and carries out what it says. An
interactive session is led line by line, so that each reply is seen before the next line is typed.
-/

namespace Packrat.Program

/-- The system's number for a failure. It comes with its sign turned round if a file could not be
opened, and as it is if one could not be read. -/
def numberOf (code : UInt32) : UInt32 := if code < 0x80000000 then code else -code

def reasonOf (e : IO.Error) : CommandLine.FileError :=
  match e with
  | .noFileOrDirectory .. => .missing
  | .permissionDenied .. => .notPermitted
  | .inappropriateType _ code _ => if numberOf code = 21 then .isDirectory else .notDirectory
  | .invalidArgument _ code _ => if numberOf code = 36 then .nameTooLong else .other (toString e)
  | e => .other (toString e)

/-- A file's bytes, or why they could not be read. -/
def readFile (name : String) : IO (Except CommandLine.FileError (List UInt8)) := do
  try
    return .ok (← IO.FS.readBinFile name).toList
  catch e => return .error (reasonOf e)

def put (out : List UInt8) (err : String) : IO Unit := do
  let stdout ← IO.getStdout
  stdout.write out.toByteArray
  stdout.flush
  let stderr ← IO.getStderr
  stderr.putStr err
  stderr.flush

/-- The bytes of a line up to and with its line feed. No bytes are the end of the input. -/
def readLine (input : IO.FS.Stream) : IO (List UInt8) := do
  let mut line : Array UInt8 := #[]
  let mut more := true
  while more do
    let bytes ← input.read 1
    match bytes[0]? with
    | none => more := false
    | some b =>
      line := line.push b
      more := b != 0x0a
  return line.toList

/-- Leads a session to its end. -/
def lead (session : Session) : IO (Except Error Unit) := do
  let input ← IO.getStdin
  let mut s := session
  let mut result : Option (Except Error Unit) := none
  while result.isNone do
    let reading := match CommandLine.readings (← readLine input) with
      | [] => Session.Reading.endOfInput
      | reading :: _ => reading
    let t := s.turn reading
    put (Text.toUtf8 t.output.out) t.output.err
    s := t.session
    result := t.ended
  return result.getD (.ok ())

end Packrat.Program

open Packrat in
/-- The program: its exit code tells whether everything could be parsed. -/
def main (arguments : List String) : IO UInt32 := do
  let names := match CommandLine.options arguments with
    | .ok o => o.files
    | .error _ => []
  let contents ← names.mapM fun name => return (name, ← Program.readFile name)
  let read (name : String) := (contents.lookup name).getD (.error .missing)
  match CommandLine.prepare arguments read MessagePack.pack ⟨[], ""⟩ with
  | .error message p =>
    Program.put p.out (p.err ++ Session.errorLine message)
    return 1
  | .ok (.finished ok) p =>
    Program.put p.out p.err
    return if ok then 0 else 1
  | .ok (.session s showBanner ok) p =>
    Program.put p.out p.err
    if showBanner then Program.put (Text.toUtf8 Session.banner) ""
    match ← Program.lead s with
    | .ok _ =>
      Program.put [0x0a] ""
      return if ok then 0 else 1
    | .error e =>
      Program.put [] (Session.errorLine e.message)
      return 1
