import Packrat.Text.Escape

/-!
# Escaped bytes can be read back

An escape is longer than the byte it stands for, and how much longer depends on the
byte: one, two or four characters. Still a reader who goes from left to right is never
in doubt. A backslash begins an escape, the character behind it says which, and every
other character is a byte by itself. `unescape?` is that reader, and it is stated for a
text that goes on behind the escape, so a byte string is read byte by byte.
-/

namespace Packrat.Text

/-! ## Characters that print -/

/-- A character of ASCII that prints. -/
def Printable (c : Char) : Prop := 0x20 ≤ c.toNat ∧ c.toNat ≤ 0x7e

instance (c : Char) : Decidable (Printable c) :=
  inferInstanceAs (Decidable (0x20 ≤ c.toNat ∧ c.toNat ≤ 0x7e))

/-! ## Hexadecimal digits -/

/-- The value of a hexadecimal digit. -/
def hexDigit? (c : Char) : Option Nat :=
  if c.isDigit then some (c.toNat - 48)
  else if 'a' ≤ c ∧ c ≤ 'f' then some (c.toNat - 87)
  else if 'A' ≤ c ∧ c ≤ 'F' then some (c.toNat - 55)
  else none

theorem hexDigit?_digitChar : ∀ n < 16, hexDigit? n.digitChar = some n := by
  decide

theorem printable_digitChar : ∀ n < 16, Printable n.digitChar := by
  decide

/-! ## Reading an escape -/

/-- The byte that a character stands for behind a backslash. -/
def shorthand? (c : Char) : Option UInt8 :=
  if c = 't' then some 0x09
  else if c = 'n' then some 0x0a
  else if c = 'r' then some 0x0d
  else if c = '"' ∨ c.toNat = 0x27 ∨ c = '\\' then some (UInt8.ofNat c.toNat)
  else none

/-- What stands behind an `x` is a number. -/
theorem shorthand?_x : shorthand? 'x' = none := by decide

/-- The byte string that a text is the escape of. -/
def unescape? : List Char → Option (List UInt8)
  | [] => some []
  | '\\' :: 'x' :: high :: low :: rest => do
    let byte := UInt8.ofNat ((← hexDigit? high) * 16 + (← hexDigit? low))
    return byte :: (← unescape? rest)
  | '\\' :: c :: rest => do
    return (← shorthand? c) :: (← unescape? rest)
  | c :: rest =>
    if Printable c ∧ c ≠ '\\' then (unescape? rest).map (UInt8.ofNat c.toNat :: ·) else none

/-- An escape is one character, two or four. -/
inductive Escapes (b : UInt8) : List Char → Prop where
  | plain {c : Char} : Printable c → c ≠ '\\' → UInt8.ofNat c.toNat = b → Escapes b [c]
  | shorthand {c : Char} : Printable c → shorthand? c = some b → Escapes b ['\\', c]
  | number : Escapes b ('\\' :: 'x' :: (hexByte b).toList)

theorem escapes_escapeByte (b : UInt8) : Escapes b (escapeByte b).toList := by
  have hshorthand : ∀ {c : Char} {code : UInt8} {text : String}, text.toList = ['\\', c] →
      Printable c → shorthand? c = some code → b = code → Escapes b text.toList := by
    intro c code text htext hc hcode hb
    rw [htext]
    exact .shorthand hc (hb ▸ hcode)
  unfold escapeByte
  iterate 6
    split
    · next hb => exact hshorthand rfl (by decide) (by decide) hb
  split
  · next hbackslash hprints =>
      have hlow : 0x20 ≤ b.toNat := UInt8.le_iff_toNat_le.mp hprints.1
      have hhigh : b.toNat ≤ 0x7e := UInt8.le_iff_toNat_le.mp hprints.2
      have hchar : (Char.ofUInt8 b).toNat = b.toNat := rfl
      rw [String.toList_singleton]
      refine .plain ⟨?_, ?_⟩ ?_ ?_
      · rw [hchar]
        exact hlow
      · rw [hchar]
        exact hhigh
      · intro hc
        refine hbackslash (UInt8.toNat_inj.mp ?_)
        rw [← hchar, hc]
        rfl
      · rw [hchar, UInt8.ofNat_toNat]
  · rw [String.toList_append]
    exact .number

section Escapes

variable {b : UInt8} {text : List Char}

theorem Escapes.printable (h : Escapes b text) : ∀ c ∈ text, Printable c := by
  cases h with
  | plain hc _ _ => exact List.forall_mem_singleton.mpr hc
  | shorthand hc _ => simpa [Printable] using hc
  | number =>
      have hlt : b.toNat < 256 := b.toNat_lt
      have hhigh := printable_digitChar (b.toNat / 16) (by omega)
      have hlow := printable_digitChar (b.toNat % 16) (by omega)
      rw [hexByte, String.toList_ofList]
      intro c hc
      simp only [List.mem_cons, List.not_mem_nil, or_false] at hc
      rcases hc with rfl | rfl | rfl | rfl
      · decide
      · decide
      · exact hhigh
      · exact hlow

/-- Behind the escape of a byte the reader goes on with what is left. -/
theorem Escapes.unescape? (h : Escapes b text) (rest : List Char) :
    unescape? (text ++ rest) = (unescape? rest).map (b :: ·) := by
  cases h with
  | plain hc hne hb =>
      subst hb
      simp [Text.unescape?, hc, hne]
  | @shorthand c _ hb =>
      have hx : c ≠ 'x' := by
        intro hc
        rw [hc, shorthand?_x] at hb
        cases hb
      cases hrest : Text.unescape? rest with
      | none => simp [Text.unescape?, hx, hb, hrest]
      | some bytes => simp [Text.unescape?, hx, hb, hrest]
  | number =>
      have hlt : b.toNat < 256 := b.toNat_lt
      have hhigh := hexDigit?_digitChar (b.toNat / 16) (by omega)
      have hlow := hexDigit?_digitChar (b.toNat % 16) (by omega)
      have hbyte : UInt8.ofNat (b.toNat / 16 * 16 + b.toNat % 16) = b := by
        rw [Nat.div_add_mod', UInt8.ofNat_toNat]
      rw [hexByte, String.toList_ofList]
      simp only [List.cons_append, List.nil_append, Text.unescape?, hhigh, hlow,
        Option.bind_eq_bind, Option.bind_some, Option.pure_def, hbyte]
      cases Text.unescape? rest with
      | none => rfl
      | some bytes => rfl

end Escapes

/-! ## The escape of a byte string -/

section ByteStrings

variable {b : UInt8} {bytes more : List UInt8}

theorem toList_escape (bytes : List UInt8) :
    (escape bytes).toList = bytes.flatMap fun b => (escapeByte b).toList := by
  rw [escape, String.toList_join, List.flatMap_map]

theorem toList_escape_cons :
    (escape (b :: bytes)).toList = (escapeByte b).toList ++ (escape bytes).toList := by
  rw [toList_escape, toList_escape, List.flatMap_cons]

theorem toList_escape_append :
    (escape (bytes ++ more)).toList = (escape bytes).toList ++ (escape more).toList := by
  rw [toList_escape, toList_escape, toList_escape, List.flatMap_append]

theorem printable_escape (bytes : List UInt8) : ∀ c ∈ (escape bytes).toList, Printable c := by
  intro c hc
  rw [toList_escape] at hc
  obtain ⟨b, _, hmem⟩ := List.mem_flatMap.mp hc
  exact (escapes_escapeByte b).printable c hmem

/-- Reading the escape of a byte string gives the byte string back. -/
theorem unescape?_escape (bytes : List UInt8) : unescape? (escape bytes).toList = some bytes := by
  induction bytes with
  | nil => rfl
  | cons b bytes ih =>
      rw [toList_escape_cons, (escapes_escapeByte b).unescape?, ih]
      rfl

end ByteStrings

end Packrat.Text
