import Mathlib.Data.Rat.Defs
import Packrat.Proofs.Text.Escape

/-!
# The JSON language

Which texts a JSON value has, rule by rule as in the grammar of the standard. Each
relation has the text first, then what is read from its front, then what is left of
the text behind it. A text is a document of a value if nothing is left.

Numbers are exact, so a fraction and an exponent are part of the value. A text in
quotes is its characters, and a character may be written by itself, by an escape of
two characters, or by the number of its code unit. A character beyond the first plane
then takes two of them, and half of such a pair is no character: a text with one
stands for nothing here, though the standard leaves that open.

An object is the list of its members as they stand, names that repeat included.
-/

namespace Packrat.JsonText

/-- What a JSON text says. -/
inductive Value where
  | null
  | bool (b : Bool)
  | num (q : ℚ)
  | str (text : String)
  | arr (items : List Value)
  | obj (members : List (String × Value))

/-! ## Blanks -/

def isBlank (c : Char) : Bool := [' ', '\t', '\n', '\r'].contains c

/-- Any number of blanks. -/
inductive Blanks : List Char → List Char → Prop where
  | nil {r : List Char} : Blanks r r
  | cons {c : Char} {s r : List Char} : isBlank c = true → Blanks s r → Blanks (c :: s) r

/-! ## Numbers -/

/-- One or more digits. -/
inductive Digits : List Char → List Char → List Char → Prop where
  | last {c : Char} {r : List Char} : c.isDigit = true → Digits (c :: r) [c] r
  | more {c : Char} {s ds r : List Char} : c.isDigit = true → Digits s ds r →
      Digits (c :: s) (c :: ds) r

/-- The number that digits spell. -/
def natural (ds : List Char) : Nat := Nat.ofDigitChars 10 ds 0

/-- A sign, which is a minus or nothing. -/
inductive Sign : List Char → Bool → List Char → Prop where
  | absent {r : List Char} : Sign r false r
  | minus {r : List Char} : Sign ('-' :: r) true r

/-- The whole part: a zero by itself, or digits with no zero in front. -/
inductive Whole : List Char → Nat → List Char → Prop where
  | zero {r : List Char} : Whole ('0' :: r) 0 r
  | digits {c : Char} {s ds r : List Char} : c ≠ '0' → Digits (c :: s) ds r →
      Whole (c :: s) (natural ds) r

inductive Fraction : List Char → ℚ → List Char → Prop where
  | absent {r : List Char} : Fraction r 0 r
  | present {s ds r : List Char} : Digits s ds r →
      Fraction ('.' :: s) (natural ds / 10 ^ ds.length) r

/-- The sign of an exponent, where a plus may stand as well. -/
inductive ExponentSign : List Char → Bool → List Char → Prop where
  | plus {r : List Char} : ExponentSign ('+' :: r) false r
  | sign {s r : List Char} {negative : Bool} : Sign s negative r → ExponentSign s negative r

inductive Exponent : List Char → ℤ → List Char → Prop where
  | absent {r : List Char} : Exponent r 0 r
  | present {e : Char} {s t ds r : List Char} {negative : Bool} : e = 'e' ∨ e = 'E' →
      ExponentSign s negative t → Digits t ds r →
      Exponent (e :: s) (if negative then -(natural ds : ℤ) else natural ds) r

inductive Number : List Char → ℚ → List Char → Prop where
  | number {s t u w r : List Char} {negative : Bool} {n : Nat} {f : ℚ} {e : ℤ} :
      Sign s negative t → Whole t n u → Fraction u f w → Exponent w e r →
      Number s ((if negative then -1 else 1) * (n + f) * 10 ^ e) r

/-! ## Texts in quotes -/

/-- The character that a character stands for behind a backslash. -/
def short? (c : Char) : Option Char :=
  if c = '"' ∨ c = '\\' ∨ c = '/' then some c
  else if c = 'b' then some '\x08'
  else if c = 'f' then some '\x0c'
  else if c = 'n' then some '\n'
  else if c = 'r' then some '\r'
  else if c = 't' then some '\t'
  else none

/-- The code unit that four hexadecimal digits spell. -/
def unit? (a b c d : Char) : Option Nat := do
  return (((← Text.hexDigit? a) * 16 + (← Text.hexDigit? b)) * 16 + (← Text.hexDigit? c)) * 16
    + (← Text.hexDigit? d)

/-- What is between the quotes, up to and with the closing one. -/
inductive Chars : List Char → List Char → List Char → Prop where
  | close {r : List Char} : Chars ('"' :: r) [] r
  | plain {c : Char} {s t r : List Char} : 0x20 ≤ c.toNat → c ≠ '"' → c ≠ '\\' → Chars s t r →
      Chars (c :: s) (c :: t) r
  | short {e c : Char} {s t r : List Char} : short? e = some c → Chars s t r →
      Chars ('\\' :: e :: s) (c :: t) r
  | unit {a b c d : Char} {n : Nat} {s t r : List Char} : unit? a b c d = some n →
      n < 0xd800 ∨ 0xe000 ≤ n → Chars s t r →
      Chars ('\\' :: 'u' :: a :: b :: c :: d :: s) (Char.ofNat n :: t) r
  | pair {a b c d a' b' c' d' : Char} {high low : Nat} {s t r : List Char} :
      unit? a b c d = some high → 0xd800 ≤ high → high < 0xdc00 →
      unit? a' b' c' d' = some low → 0xdc00 ≤ low → low < 0xe000 → Chars s t r →
      Chars ('\\' :: 'u' :: a :: b :: c :: d :: '\\' :: 'u' :: a' :: b' :: c' :: d' :: s)
        (Char.ofNat (0x10000 + (high - 0xd800) * 0x400 + (low - 0xdc00)) :: t) r

/-! ## Values -/

mutual

/-- A value without blanks around it. -/
inductive Spells : List Char → Value → List Char → Prop where
  | nullWord {r : List Char} : Spells ('n' :: 'u' :: 'l' :: 'l' :: r) .null r
  | trueWord {r : List Char} : Spells ('t' :: 'r' :: 'u' :: 'e' :: r) (.bool true) r
  | falseWord {r : List Char} : Spells ('f' :: 'a' :: 'l' :: 's' :: 'e' :: r) (.bool false) r
  | num {s r : List Char} {q : ℚ} : Number s q r → Spells s (.num q) r
  | str {s t r : List Char} : Chars s t r → Spells ('"' :: s) (.str (String.ofList t)) r
  | noItems {s r : List Char} : Blanks s (']' :: r) → Spells ('[' :: s) (.arr []) r
  | arr {s r : List Char} {items : List Value} : Items s items (']' :: r) →
      Spells ('[' :: s) (.arr items) r
  | noMembers {s r : List Char} : Blanks s ('}' :: r) → Spells ('{' :: s) (.obj []) r
  | obj {s r : List Char} {members : List (String × Value)} : Members s members ('}' :: r) →
      Spells ('{' :: s) (.obj members) r

/-- A value with blanks around it. -/
inductive Item : List Char → Value → List Char → Prop where
  | item {s t u r : List Char} {v : Value} : Blanks s t → Spells t v u → Blanks u r → Item s v r

/-- Values with commas between them. -/
inductive Items : List Char → List Value → List Char → Prop where
  | last {s r : List Char} {v : Value} : Item s v r → Items s [v] r
  | more {s t r : List Char} {v : Value} {vs : List Value} : Item s v (',' :: t) →
      Items t vs r → Items s (v :: vs) r

/-- A name, a colon and a value. -/
inductive Member : List Char → String × Value → List Char → Prop where
  | member {s t u w r name : List Char} {v : Value} : Blanks s ('"' :: t) → Chars t name u →
      Blanks u (':' :: w) → Item w v r → Member s (String.ofList name, v) r

/-- Members with commas between them. -/
inductive Members : List Char → List (String × Value) → List Char → Prop where
  | last {s r : List Char} {m : String × Value} : Member s m r → Members s [m] r
  | more {s t r : List Char} {m : String × Value} {ms : List (String × Value)} :
      Member s m (',' :: t) → Members t ms r → Members s (m :: ms) r

end

/-- A whole text that says `v`. -/
def Document (text : String) (v : Value) : Prop := Item text.toList v []

end Packrat.JsonText
