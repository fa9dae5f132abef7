import Packrat.Bencode.Value
import Packrat.Grammar.Check
import Packrat.Grammar.Decimal
import Packrat.Parser

/-!
# Reading bencode

The grammar of bencode has one rule for each kind of value, and a placeholder for the value inside
lists and dictionaries:

```text
string     := length ':' bytes
integer    := 'i' signed 'e'
list       := 'l' value* 'e'
dictionary := 'd' (string value)* 'e'
value      := integer | string | list | dictionary
```

A parse keeps the letters around lists and dictionaries in its token, which tells an empty list from
an empty dictionary. Turning the token into a value is a second step that never looks at the input.
-/

namespace Packrat.Bencode

/-! ## The grammar -/

/-- The nodes of the rules. -/
structure Rules where
  value : NodeId
  integer : NodeId
  string : NodeId
  list : NodeId
  dictionary : NodeId

def buildRules : Build Rules := do
  let value ← Builder.indirect
  let length ← Decimal.uint
  let colon ← Builder.literal 0x3a
  let lengthColon ← Builder.left length colon
  let string ← Builder.lengthValue lengthColon .byte
  let string ← Builder.name string "string"
  let i ← Builder.literal 0x69
  let number ← Decimal.sint
  let e ← Builder.literal 0x65
  let integer ← Builder.sequence [i, number, e]
  let integer ← Builder.name integer "integer"
  let l ← Builder.literal 0x6c
  let items ← Builder.many value
  let list ← Builder.sequence [l, items, e]
  let list ← Builder.name list "list"
  let d ← Builder.literal 0x64
  let pair ← Builder.sequence [string, value]
  let pairs ← Builder.many pair
  let dictionary ← Builder.sequence [d, pairs, e]
  let dictionary ← Builder.name dictionary "dictionary"
  let any ← Builder.choice [integer, string, list, dictionary]
  let any ← Builder.name any "value"
  let _ ← Builder.define value any
  return ⟨any, integer, string, list, dictionary⟩

/-- The rules and the arena that holds them. -/
def built : Rules × Builder := buildRules.run (Builder.new 0)

def rules : Rules := built.1

/-- The rules pass the check of their arena. -/
theorem build_isOk : (built.2.build rules.value).isOk = true := by
  decide

/-- The grammar, rooted at any value. -/
def grammar : Grammar :=
  match h : built.2.build rules.value with
  | .ok g => g
  | .error _ => absurd build_isOk (by rw [h]; exact Bool.false_ne_true)

/-- The parser of whole documents. -/
def parser : Parser := ⟨grammar, Config.strict⟩

/-! ## From tokens to values -/

def unexpected (expected : String) (token : Token) : Error :=
  .plain (.unexpectedToken expected token.shape)

mutual

/-- The value of a token that a parse of this grammar produced. -/
def ofToken : Token → Except Error Bencode
  | .bytes payload => .ok (.bytes payload)
  | .seq [.byte tag, body, closing] =>
    if tag = 0x69 then
      match body with
      | .sint n => .ok (.int n)
      | other => .error (unexpected "integer" other)
    else if tag = 0x6c then
      match body with
      | .seq items => (ofItems items).map .list
      | other => .error (unexpected "list items" other)
    else if tag = 0x64 then
      match body with
      | .seq pairs => (ofEntries pairs).map .dict
      | other => .error (unexpected "dictionary entries" other)
    else .error (unexpected "bencode value" (.seq [.byte tag, body, closing]))
  | other => .error (unexpected "bencode value" other)

def ofItems : List Token → Except Error (List Bencode)
  | [] => .ok []
  | token :: rest => do
    let v ← ofToken token
    let vs ← ofItems rest
    return v :: vs

def ofEntry : Token → Except Error (List UInt8 × Bencode)
  | .seq [.bytes key, value] => (ofToken value).map (fun v => (key, v))
  | .seq [other, _] => .error (unexpected "string key" other)
  | other => .error (unexpected "key-value pair" other)

def ofEntries : List Token → Except Error (List (List UInt8 × Bencode))
  | [] => .ok []
  | pair :: rest => do
    let entry ← ofEntry pair
    let entries ← ofEntries rest
    return entry :: entries

end

/-- Reads a whole document. -/
def decode (doc : List UInt8) : Except Error Bencode :=
  (parser.token doc).bind ofToken

end Packrat.Bencode
