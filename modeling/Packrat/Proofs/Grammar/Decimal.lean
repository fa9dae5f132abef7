import Packrat.Grammar.Decimal

/-!
# The numbers that digits spell

The actions behind decimal nodes compute with a check after every digit, so that
no step leaves 64 bits. A number never gets smaller by another digit, so all those
checks together say no more than one at the end (`foldlM_push?`), and what an
action accepts is known from the number that the digits spell.
-/

namespace Packrat.Decimal

/-- One or more ASCII digits. -/
structure Numeral (run : List UInt8) : Prop where
  ne_nil : run ≠ []
  digits : ∀ b ∈ run, isDigit b = true

/-- A number with one more digit behind it. -/
def shift (n : Nat) (b : UInt8) : Nat := n * 10 + (b.toNat - 0x30)

/-- The number that digits spell. -/
def number (run : List UInt8) : Nat := run.foldl shift 0

/-- The sign in front of a number. -/
def minusSign (negative : Bool) : List UInt8 := if negative then [0x2d] else []

/-- The number that digits spell with a sign in front. -/
def signedNumber (negative : Bool) (run : List UInt8) : Int :=
  if negative then -(number run : Int) else number run

/-! ## Longer numbers -/

theorem number_append (ds : List UInt8) (b : UInt8) :
    number (ds ++ [b]) = number ds * 10 + (b.toNat - 0x30) := by
  rw [number, List.foldl_append]
  rfl

theorem Numeral.append {ds : List UInt8} {b : UInt8} (h : Numeral ds) (hb : isDigit b = true) :
    Numeral (ds ++ [b]) := by
  constructor
  · exact List.append_ne_nil_of_left_ne_nil h.ne_nil _
  · intro c hc
    rcases List.mem_append.mp hc with hmem | hmem
    · exact h.digits c hmem
    · rw [List.mem_singleton.mp hmem]
      exact hb

/-! ## Unsigned numbers -/

theorem le_foldl_shift (run : List UInt8) : ∀ n, n ≤ run.foldl shift n := by
  induction run with
  | nil => intro n; exact Nat.le_refl n
  | cons b run ih =>
      intro n
      have hstep : n ≤ shift n b := by
        unfold shift
        omega
      exact Nat.le_trans hstep (ih (shift n b))

theorem push?_eq {b : UInt8} (hb : isDigit b = true) (n : Nat) :
    push? n b = if shift n b < UInt64.size then some (shift n b) else none := by
  rw [push?, if_pos hb]
  rfl

/-- The checks on the way say what the one at the end says. -/
theorem foldlM_push? {run : List UInt8} (hrun : ∀ b ∈ run, isDigit b = true) :
    ∀ n < UInt64.size, run.foldlM push? n =
      if run.foldl shift n < UInt64.size then some (run.foldl shift n) else none := by
  induction run with
  | nil =>
      intro n hn
      exact (if_pos hn).symm
  | cons b run ih =>
      intro n _
      have htail := ih fun c hc => hrun c (List.mem_cons_of_mem _ hc)
      rw [List.foldlM_cons, push?_eq (hrun b List.mem_cons_self), List.foldl_cons]
      by_cases hlt : shift n b < UInt64.size
      · rw [if_pos hlt]
        exact htail (shift n b) hlt
      · have hge := le_foldl_shift run (shift n b)
        rw [if_neg hlt, if_neg (by omega)]
        rfl

theorem value?_eq {run : List UInt8} (h : Numeral run) :
    value? run = if number run < UInt64.size then some (UInt64.ofNat (number run)) else none := by
  have hne : run.isEmpty = false := by simpa using h.ne_nil
  rw [value?, hne, foldlM_push? h.digits 0 (by decide)]
  simp only [Bool.false_eq_true, if_false]
  change (if number run < UInt64.size then some (number run) else none).map UInt64.ofNat = _
  split
  · rfl
  · rfl

theorem byteRun?_bytes (run : List UInt8) : (Token.seq (run.map .byte)).byteRun? = some run := by
  simp only [Token.byteRun?, Token.seq?, Option.bind_some]
  induction run with
  | nil => rfl
  | cons b run ih => simp [List.mapM_cons, Token.byte?, ih]

theorem uintOfDigits_eq {run : List UInt8} (h : Numeral run) :
    uintOfDigits (.seq (run.map .byte)) =
      if number run < UInt64.size then some (.uint (UInt64.ofNat (number run))) else none := by
  rw [uintOfDigits, byteRun?_bytes, Option.bind_some, value?_eq h]
  split
  · rfl
  · rfl

/-! ## Signed numbers -/

theorem signed?_eq_some_iff {negative : Bool} {magnitude : UInt64} {n : Int64} :
    signed? negative magnitude = some n ↔
      n.toInt = if negative then -(magnitude.toNat : Int) else magnitude.toNat := by
  have hlow := n.minValue_le_toInt
  have hhigh := n.toInt_le
  simp only [signed?]
  generalize (if negative then -(magnitude.toNat : Int) else magnitude.toNat) = m
  constructor
  · intro h
    split at h
    · next hfits =>
        cases h
        exact Int64.toInt_ofInt_of_le hfits.1 (Int.lt_of_le_of_lt hfits.2 (by decide))
    · cases h
  · rintro rfl
    rw [if_pos ⟨hlow, hhigh⟩, Int64.ofInt_toInt]

theorem sintOfParts_eq_some_iff {sign : Token} {run : List UInt8} {token : Token}
    (h : Numeral run) :
    sintOfParts (.seq [sign, .seq (run.map .byte)]) = some token ↔
      ∃ n : Int64, n.toInt = signedNumber (!sign.isNone) run ∧ token = .sint n := by
  simp only [sintOfParts, byteRun?_bytes, value?_eq h, Option.bind_eq_bind, Option.bind_some]
  by_cases hfits : number run < UInt64.size
  · have hnat : (UInt64.ofNat (number run)).toNat = number run := UInt64.toNat_ofNat_of_lt' hfits
    simp only [if_pos hfits, Option.bind_some, Option.map_eq_some_iff, signed?_eq_some_iff, hnat,
      signedNumber]
    constructor
    · rintro ⟨n, hn, rfl⟩
      exact ⟨n, hn, rfl⟩
    · rintro ⟨n, hn, rfl⟩
      exact ⟨n, hn, rfl⟩
  · simp only [if_neg hfits, Option.bind_none]
    constructor
    · exact nofun
    · rintro ⟨n, hn, _⟩
      -- a 64-bit word holds no number of this size, whatever the sign
      have hlow := n.le_toInt
      have hhigh := n.toInt_lt
      have hsize : UInt64.size = 0x10000000000000000 := rfl
      unfold signedNumber at hn
      split at hn <;> omega

end Packrat.Decimal
