/-!
# Reproducible random numbers

Who draws at random only names the range: that is a `Sampler`, over a state of its own.

Random documents must come out the same from the same seed everywhere, so the sampler that a program
runs with takes its numbers from a cipher rather than from the machine. A 64-bit seed is spread over
the eight words of a key, and the stream is the ChaCha cipher with eight rounds over a block counter.

A number below a bound is drawn by scaling a word to the bound and keeping the high half. To be fair,
draws whose low half is too large are thrown away. Whatever the draws are, the result lies below the
bound.
-/

namespace Packrat.Randomness

/-! ## Samplers -/

/-- The ways to draw from a source with states `σ`. -/
structure Sampler (σ : Type) where
  /-- One of as many alternatives, numbered from zero. -/
  index : (alternatives : Nat) → StateM σ Nat
  /-- A length or a count, up to the most there may be. -/
  count : (most : Nat) → StateM σ Nat
  /-- A byte between two, both included. -/
  byte : (low high : UInt8) → StateM σ UInt8
  /-- An integer between two, both included. -/
  int : (low high : Int64) → StateM σ Int64
  /-- Whether something comes true that does so once in ten times. -/
  tenth : StateM σ Bool

/-- As many draws as asked for, in order. -/
def several {σ α : Type} (draw : StateM σ α) : Nat → StateM σ (List α)
  | 0 => return []
  | n + 1 => do
    let x ← draw
    let xs ← several draw n
    return x :: xs

/-! ## The cipher -/

/-- A word turned to the left by fewer than 32 bits. -/
def rotateLeft (x : UInt32) (n : UInt32) : UInt32 :=
  (x <<< n) ||| (x >>> (32 - n))

def quarterRound (s : Vector UInt32 16) (a b c d : Fin 16) : Vector UInt32 16 :=
  let s := s.set a (s[a] + s[b])
  let s := s.set d (rotateLeft (s[d] ^^^ s[a]) 16)
  let s := s.set c (s[c] + s[d])
  let s := s.set b (rotateLeft (s[b] ^^^ s[c]) 12)
  let s := s.set a (s[a] + s[b])
  let s := s.set d (rotateLeft (s[d] ^^^ s[a]) 8)
  let s := s.set c (s[c] + s[d])
  s.set b (rotateLeft (s[b] ^^^ s[c]) 7)

/-- A round on the columns of the state, then one on its diagonals. -/
def doubleRound (s : Vector UInt32 16) : Vector UInt32 16 :=
  let s := quarterRound s 0 4 8 12
  let s := quarterRound s 1 5 9 13
  let s := quarterRound s 2 6 10 14
  let s := quarterRound s 3 7 11 15
  let s := quarterRound s 0 5 10 15
  let s := quarterRound s 1 6 11 12
  let s := quarterRound s 2 7 8 13
  quarterRound s 3 4 9 14

/-- The sixteen words of a block of the stream. The first row spells the cipher's constant. -/
def block (key : Vector UInt32 8) (counter : UInt64) : Vector UInt32 16 :=
  let start : Vector UInt32 16 :=
    #v[0x61707865, 0x3320646e, 0x79622d32, 0x6b206574,
      key[0], key[1], key[2], key[3], key[4], key[5], key[6], key[7],
      counter.toUInt32, (counter >>> 32).toUInt32, 0, 0]
  let mixed := doubleRound (doubleRound (doubleRound (doubleRound start)))
  Vector.zipWith (· + ·) mixed start

/-! ## Seeds -/

/-- The next state of the generator that spreads a seed. -/
def spread (state : UInt64) : UInt64 :=
  state * 6364136223846793005 + 11634580027462260723

/-- The key word that a state of that generator gives. -/
def keyWord (state : UInt64) : UInt32 :=
  let mixed := (((state >>> 18) ^^^ state) >>> 27).toUInt32
  let turn := (state >>> 59).toUInt32
  (mixed >>> turn) ||| (mixed <<< ((32 - turn) &&& 31))

/-- The state after as many steps. -/
def spreadTimes : Nat → UInt64 → UInt64
  | 0, state => state
  | n + 1, state => spreadTimes n (spread state)

def keyOf (seed : UInt64) : Vector UInt32 8 :=
  Vector.ofFn (fun i => keyWord (spreadTimes (i.val + 1) seed))

/-! ## Streams -/

/-- Endless random words, and how many of them are used up. -/
structure Stream where
  word : Nat → UInt32
  position : Nat

def ofSeed (seed : UInt64) : Stream :=
  let key := keyOf seed
  ⟨fun i => (block key (UInt64.ofNat (i / 16))).get ⟨i % 16, Nat.mod_lt _ (by decide)⟩, 0⟩

/-- A computation that draws random words. -/
abbrev Draw := StateM Stream

def word32 : Draw Nat := fun s =>
  ((s.word s.position).toNat, { s with position := s.position + 1 })

/-- The next two words as one number, the low half first. -/
def word64 : Draw Nat := do
  let low ← word32
  let high ← word32
  return (high <<< 32) + low

/-- How many draws a fair number may throw away. More than half of all draws are good, so this many
bad ones in a row do not occur. -/
def patience : Nat := 10000

/-- Scales draws of `width` bits to numbers below `bound` until the low half is at most `zone`. -/
def scaled (draw : Draw Nat) (width bound zone : Nat) : (tries : Nat) → Draw Nat
  | 0 => do
    let v ← draw
    return v % (1 <<< width) * bound / (1 <<< width)
  | tries + 1 => do
    let v ← draw
    let product := v % (1 <<< width) * bound
    if product % (1 <<< width) ≤ zone then return product / (1 <<< width)
    else scaled draw width bound zone tries

/-- The quick zone: the bound moved up to the top bit. It may throw away more draws than needed, but
takes no division. -/
def quickZone (width bound : Nat) : Nat :=
  (bound <<< (width - 1 - bound.log2)) - 1

/-- The exact zone: the most draws that can be shared out evenly. -/
def exactZone (width bound : Nat) : Nat :=
  (1 <<< width) - 1 - ((1 <<< width) - bound) % bound

/-- A number below a bound, from single words. -/
def below32 (bound : Nat) : Draw Nat :=
  scaled word32 32 bound (quickZone 32 bound) patience

/-- A number below a bound, from double words. -/
def below64 (bound : Nat) : Draw Nat :=
  scaled word64 64 bound (quickZone 64 bound) patience

/-- A number below a small bound, from single words with the exact zone. -/
def belowSmall (bound : Nat) : Draw Nat :=
  scaled word32 32 bound (exactZone 32 bound) patience

/-- A byte between two. All 256 bytes together are no bound to scale to: then it is the low byte of a
word. -/
def byteBetween (low high : UInt8) : Draw UInt8 := do
  let count := high.toNat - low.toNat + 1
  if count = 256 then return UInt8.ofNat (← word32)
  else return UInt8.ofNat (low.toNat + (← belowSmall count))

/-- An integer between two. If every integer is allowed then it is a double word as it stands. -/
def intBetween (low high : Int64) : Draw Int64 := do
  let count := (high.toInt - low.toInt).toNat + 1
  if count = UInt64.size then return (UInt64.ofNat (← word64)).toInt64
  else return Int64.ofInt (low.toInt + (← below64 count : Nat))

/-- A tenth of all double words lie below this one. -/
def tenthOfWords : Nat := 1844674407370955264

/-- The sampler that takes up the words of a stream. -/
def ofWords : Sampler Stream where
  index := below32
  count most := below64 (most + 1)
  byte := byteBetween
  int := intBetween
  tenth := return (← word64) < tenthOfWords

end Packrat.Randomness
