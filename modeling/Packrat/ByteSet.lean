import Packrat.Text.Escape

/-!
# Sets of bytes

A set of bytes is a bitmap of 256 bits, kept as four words. The two upper bits of a byte choose its
word, the six lower ones its bit in it. Membership is a bit test, insertion sets a bit and the
complement flips the four words, so two sets with the same members are the same value however they
were put together.
-/

namespace Packrat

/-- A set of bytes: bit `b % 64` of word `b / 64` tells whether `b` is a member. -/
structure ByteSet where
  words : Vector UInt64 4
  deriving DecidableEq

namespace ByteSet

def empty : ByteSet := ⟨Vector.replicate 4 0⟩

theorem toNat_shiftRight_lt (b : UInt8) : (b >>> 6).toNat < 4 := by
  have hb : b.toNat < 256 := b.toNat_lt
  rw [UInt8.toNat_shiftRight, Nat.shiftRight_eq_div_pow]
  exact Nat.div_lt_of_lt_mul hb

/-- Which of the four words has the bit of a byte. -/
def word (b : UInt8) : Fin 4 := ⟨(b >>> 6).toNat, toNat_shiftRight_lt b⟩

/-- The word in which only the bit of a byte is set. -/
def mask (b : UInt8) : UInt64 := 1 <<< (b &&& 63).toUInt64

def contains (s : ByteSet) (b : UInt8) : Bool := s.words[word b] &&& mask b != 0

def insert (s : ByteSet) (b : UInt8) : ByteSet :=
  ⟨s.words.set (word b) (s.words[word b] ||| mask b)⟩

def ofList (bytes : List UInt8) : ByteSet := bytes.foldl insert empty

def complement (s : ByteSet) : ByteSet :=
  ⟨#v[~~~s.words[0], ~~~s.words[1], ~~~s.words[2], ~~~s.words[3]]⟩

/-- How many ones a word has. -/
def countOnes (w : UInt64) : Nat := w.toBitVec.cpop.toNat

def size (s : ByteSet) : Nat :=
  countOnes s.words[0] + countOnes s.words[1] + countOnes s.words[2] + countOnes s.words[3]

def isEmpty (s : ByteSet) : Bool := s.size == 0

/-- The members in ascending order. -/
def toList (s : ByteSet) : List UInt8 :=
  ((List.range 256).map UInt8.ofNat).filter s.contains

/-- The set as text, its members escaped in ascending order. -/
def display (s : ByteSet) : String :=
  "ByteSet[" ++ Text.escape s.toList ++ "]"

end ByteSet

end Packrat
