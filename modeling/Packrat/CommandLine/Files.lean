import Packrat.Text.Utf8

/-!
# Files

What a run of the program reads of the file system is the bytes of some files, or why they could not
be read. A tree of files in memory answers in the same way as the system does, so all that a run
prints can be told from the tree and the arguments.

A path is followed part by part. Each part leads on from a directory, an empty part or a dot to that
directory itself; so a slash at the end of a path asks for a directory.
-/

namespace Packrat.CommandLine

/-! ## Failures -/

/-- Why a file could not be read. -/
inductive FileError where
  | missing
  | notPermitted
  /-- The path goes on from something that is not a directory. -/
  | notDirectory
  | isDirectory
  | nameTooLong
  /-- Anything else, in the words of the system. -/
  | other (reason : String)
  deriving DecidableEq

def FileError.message : FileError → String
  | missing => "No such file or directory (os error 2)"
  | notPermitted => "Permission denied (os error 13)"
  | notDirectory => "Not a directory (os error 20)"
  | isDirectory => "Is a directory (os error 21)"
  | nameTooLong => "File name too long (os error 36)"
  | other reason => reason

/-! ## Trees -/

/-- A file, or a directory with what is in it. -/
inductive FileTree where
  | file (bytes : List UInt8)
  | directory (entries : List (String × FileTree))

/-- Puts a file at the end of a path of names, in directories that are made where there are none. -/
def FileTree.put (bytes : List UInt8) : List String → FileTree → FileTree
  | [], _ => .file bytes
  | name :: rest, tree =>
    let entries := match tree with
      | .file _ => []
      | .directory entries => entries
    let inner := put bytes rest ((entries.lookup name).getD (.directory []))
    .directory ((name, inner) :: entries.filter (·.1 != name))

/-- A place in a tree: what is there, and the directories that it lies in, innermost first. -/
structure Place where
  here : FileTree
  above : List FileTree

/-! ## Paths -/

def maxPartSize : Nat := 255

def maxPathSize : Nat := 4095

/-- Cuts a path at slashes; `part` holds the current part, last character first. -/
def partsFrom (part : List Char) : List Char → List String
  | [] => [String.ofList part.reverse]
  | c :: rest =>
    if c = '/' then String.ofList part.reverse :: partsFrom [] rest
    else partsFrom (c :: part) rest

namespace Place

def top (place : Place) : Place := ⟨place.above.getLast?.getD place.here, []⟩

/-- The directory around a place; the outermost directory lies in itself. -/
def up (place : Place) : Place :=
  match place.above with
  | [] => place
  | directory :: above => ⟨directory, above⟩

/-- Where one part of a path leads. -/
def step (place : Place) (part : String) : Except FileError Place :=
  match place.here with
  | .file _ => .error .notDirectory
  | .directory entries =>
    if part = "" ∨ part = "." then .ok place
    else if part = ".." then .ok place.up
    else if maxPartSize < (Text.toUtf8 part).length then .error .nameTooLong
    else
      match entries.lookup part with
      | some tree => .ok ⟨tree, place.here :: place.above⟩
      | none => .error .missing

/-- Where a path leads. One that begins with a slash begins at the outermost directory. -/
def follow (place : Place) (path : String) : Except FileError Place :=
  if path = "" then .error .missing
  else if maxPathSize < (Text.toUtf8 path).length then .error .nameTooLong
  else
    let start := if path.toList.head? = some '/' then place.top else place
    (partsFrom [] path.toList).foldlM step start

/-- The bytes of the file that a path leads to. -/
def read (place : Place) (path : String) : Except FileError (List UInt8) := do
  match (← place.follow path).here with
  | .file bytes => return bytes
  | .directory _ => throw .isDirectory

end Place

end Packrat.CommandLine
