import Packrat.Json
import Packrat.Token.Basic

/-!
# Tokens as text

A token has three texts. The display form is for people, and tells any two tokens apart. The
debugging form names constructors. The JSON form tags each payload with its shape.
-/

namespace Packrat.Token

/-! ## The display form -/

mutual

/-- The token for people: `['l' [-3i "hi"] none]`. A signed integer is marked, so that it cannot be
taken for an unsigned one. -/
def display : Token → String
  | .none => "none"
  | .byte b => Text.quoteByte b
  | .uint n => toString n.toNat
  | .sint n => toString n.toInt ++ "i"
  | .bytes payload => Text.quoteBytes payload
  | .seq items => "[" ++ " ".intercalate (displays items) ++ "]"

def displays : List Token → List String
  | [] => []
  | t :: rest => display t :: displays rest

end

/-! ## The debugging form -/

mutual

/-- The token for debugging: the constructor's name with its payload. -/
def debug : Token → String
  | .none => "None"
  | .byte b => "Byte(" ++ Text.quoteLetter b ++ ")"
  | .uint n => "UInt(" ++ toString n.toNat ++ ")"
  | .sint n => "SInt(" ++ toString n.toInt ++ ")"
  | .bytes payload => "Bytes(b" ++ Text.quoteBytes payload ++ ")"
  | .seq items => "Seq([" ++ ", ".intercalate (debugs items) ++ "])"

def debugs : List Token → List String
  | [] => []
  | t :: rest => debug t :: debugs rest

end

/-- The debugging form of a bare sequence of tokens. -/
def debugSeq (items : List Token) : String :=
  "[" ++ ", ".intercalate (debugs items) ++ "]"

/-! ## JSON -/

mutual

/-- The token as JSON: a one-member object from its tag to its payload, or the bare tag. -/
def json : Token → Json
  | .none => .str "None"
  | .byte b => .obj [("Byte", .int b.toNat)]
  | .uint n => .obj [("UInt", .int n.toNat)]
  | .sint n => .obj [("SInt", .int n.toInt)]
  | .bytes payload => .obj [("Bytes", .arr (payload.map (fun b => .int b.toNat)))]
  | .seq items => .obj [("Seq", .arr (jsons items))]

def jsons : List Token → List Json
  | [] => []
  | t :: rest => json t :: jsons rest

end

end Packrat.Token
