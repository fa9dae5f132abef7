/-!
# How a parser runs

Three choices belong to a parser: whether it must use up the whole input, how deeply nodes may be
nested, and whether it remembers answers.
-/

namespace Packrat

structure Config where
  /-- Input left over after a match is a failure. -/
  fullConsumption : Bool
  /-- How many nodes may be under way at once. -/
  maxDepth : Nat
  /-- The answer of a node at a position is remembered and given again. -/
  memoize : Bool
  deriving DecidableEq

namespace Config

/-- Leftover input is fine, 256 levels, nothing remembered. -/
def standard : Config := ⟨false, 256, false⟩

/-- Like the standard, and all input must be used. -/
def strict : Config := { standard with fullConsumption := true }

/-- Like the standard, and answers are remembered. -/
def packrat : Config := { standard with memoize := true }

end Config

end Packrat
