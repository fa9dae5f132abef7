import Packrat.Session.Screen
import Packrat.Text.Cluster.Basic

/-!
# Lines of standard input

A session that has no terminal reads lines from standard input. A line ends at a line feed, with or
without a carriage return before it, and the last one needs no end. It must be UTF-8.

A backspace in a line takes back what was typed before it, and that is a whole cluster: a letter with
its accents, or a flag. The clusters are those of the line as it came in. Taking one back brings
letters together that were apart, but never makes a new cluster of them.
-/

namespace Packrat.CommandLine

/-! ## Backspaces -/

structure Typed where
  /-- The bytes of the line, last one first. -/
  bytes : List UInt8
  /-- The sizes of the clusters that can be taken back, last one first. A size counts bytes and is a
  byte itself, so of a cluster of 256 bytes or more only a part is taken back. -/
  sizes : List UInt8

/-- Types a cluster, which may be a backspace. -/
def Typed.add (typed : Typed) (cluster : List Char) : Typed :=
  if cluster = ['\x08'] then
    match typed.sizes with
    | [] => typed
    | size :: sizes => ⟨typed.bytes.drop size.toNat, sizes⟩
  else
    let bytes := Text.toUtf8 (String.ofList cluster)
    ⟨bytes.reverse ++ typed.bytes, UInt8.ofNat bytes.length :: typed.sizes⟩

/-- Carries out the backspaces in a line, and gives its bytes. -/
def applyBackspaces (line : String) : List UInt8 :=
  ((Text.clusters line.toList).foldl Typed.add ⟨[], []⟩).bytes.reverse

/-! ## Lines -/

/-- Cuts bytes into lines at line feeds; `line` holds the current one, last byte first. Bytes after
the last line feed are a line too. -/
def linesFrom (line : List UInt8) : List UInt8 → List (List UInt8)
  | [] => if line.isEmpty then [] else [line.reverse]
  | b :: rest =>
    if b = 0x0a then
      -- a carriage return before the line feed belongs to the line's end
      let line := match line with
        | 0x0d :: before => before
        | line => line
      line.reverse :: linesFrom [] rest
    else linesFrom (b :: line) rest

def reading (line : List UInt8) : Session.Reading :=
  match (Text.ofUtf8? line).bind fun text => Text.ofUtf8? (applyBackspaces text) with
  | some text => .line text
  | none => .failed "stream did not contain valid UTF-8"

/-- The lines of standard input as a session reads them. -/
def readings (stdin : List UInt8) : List Session.Reading :=
  (linesFrom [] stdin).map reading

end Packrat.CommandLine
