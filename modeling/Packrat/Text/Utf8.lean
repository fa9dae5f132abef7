/-!
# Reading bytes as UTF-8

Byte strings inside documents are often text. This module reads them one byte at a time: a lead byte
says how many continuation bytes are owed and in which range the first of them may lie, and each
further byte either pays or shows that the run was ill-formed.

An ill-formed run is a lead byte with the continuation bytes that could still have followed it, as
far as they go; the byte that broke the run starts a new one. Lenient reading puts one replacement
character for each such run, strict reading refuses the text.
-/

namespace Packrat.Text

/-- A character under way: how many bytes are still owed, the range the next of them must lie in,
and the bits read so far. -/
structure Owed where
  more : Nat
  low : UInt8
  high : UInt8
  bits : Nat

/-- What a byte means where a character may begin. -/
inductive Lead where
  /-- A whole character. -/
  | whole (c : Char)
  /-- The first byte of a longer character. -/
  | opening (owed : Owed)
  /-- No character begins so. -/
  | broken

/-- Reads a byte where a character may begin. The second byte's range shuts out overlong forms,
surrogates and numbers beyond the last code point. -/
def lead (b : UInt8) : Lead :=
  if b < 0x80 then .whole (Char.ofUInt8 b)
  else if b < 0xc2 then .broken
  else if b < 0xe0 then .opening ⟨1, 0x80, 0xbf, b.toNat - 0xc0⟩
  else if b = 0xe0 then .opening ⟨2, 0xa0, 0xbf, 0⟩
  else if b = 0xed then .opening ⟨2, 0x80, 0x9f, 0xd⟩
  else if b < 0xf0 then .opening ⟨2, 0x80, 0xbf, b.toNat - 0xe0⟩
  else if b = 0xf0 then .opening ⟨3, 0x90, 0xbf, 0⟩
  else if b < 0xf4 then .opening ⟨3, 0x80, 0xbf, b.toNat - 0xf0⟩
  else if b = 0xf4 then .opening ⟨3, 0x80, 0x8f, 4⟩
  else .broken

/-- The characters of a byte string, with `none` for each ill-formed run. -/
def pieces : Option Owed → List UInt8 → List (Option Char)
  | none, [] => []
  | some _, [] => [none]
  | none, b :: rest =>
    match lead b with
    | .whole c => some c :: pieces none rest
    | .opening owed => pieces (some owed) rest
    | .broken => none :: pieces none rest
  | some owed, b :: rest =>
    if owed.low ≤ b ∧ b ≤ owed.high then
      let bits := owed.bits * 64 + (b.toNat - 0x80)
      if owed.more ≤ 1 then some (Char.ofNat bits) :: pieces none rest
      else pieces (some ⟨owed.more - 1, 0x80, 0xbf, bits⟩) rest
    else
      -- the run ends before this byte, which is then read as a lead of its own
      match lead b with
      | .whole c => none :: some c :: pieces none rest
      | .opening next => none :: pieces (some next) rest
      | .broken => none :: none :: pieces none rest

/-- The text of well-formed UTF-8. -/
def ofUtf8? (bytes : List UInt8) : Option String :=
  ((pieces none bytes).mapM id).map String.ofList

/-- The text of a byte string, with U+FFFD in place of each ill-formed run. -/
def ofUtf8Lossy (bytes : List UInt8) : String :=
  String.ofList ((pieces none bytes).map (·.getD (Char.ofNat 0xfffd)))

/-- A text as UTF-8. -/
def toUtf8 (text : String) : List UInt8 :=
  text.toList.flatMap String.utf8EncodeChar

end Packrat.Text
