import Packrat.Text.Escape

/-!
# Quotients with three decimal places

Times are shown with three places. The number shown is the quotient as a double holds it, so a
quotient that lies half way between two thousandths goes up or down as its nearest double does. Both
roundings, to the double and to the thousandth, go to the nearest and from half way to the even
neighbour.
-/

namespace Packrat.Text

/-- A quotient rounded to the nearest integer; a half goes to the even neighbour. -/
def roundDiv (num den : Nat) : Nat :=
  let quotient := num / den
  let rest := 2 * (num % den)
  if rest < den then quotient
  else if den < rest then quotient + 1
  else if quotient % 2 = 0 then quotient
  else quotient + 1

/-- The double nearest to a quotient that is at least one and below `2 ^ 53`, as a fraction whose
denominator is a power of two. -/
def nearestDouble (num den : Nat) : Nat × Nat :=
  let scale := 1 <<< (52 - (num / den).log2)
  (roundDiv (num * scale) den, scale)

/-- A quotient of at least one with three places, by way of its nearest double. -/
def thousandths (num den : Nat) : String :=
  let (n, scale) := nearestDouble num den
  let t := roundDiv (n * 1000) scale
  toString (t / 1000) ++ "." ++ padLeft 3 '0' (toString (t % 1000))

end Packrat.Text
