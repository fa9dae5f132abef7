import Packrat.Text.Cluster.Table

/-!
# Properties of characters for clusters

A character has one class, and most have the class `other`. Apart from that it may be a pictograph,
a consonant of a script that ties consonants together, or a sign that ties them. The syllables of
Hangul need no table, since they were laid out by rule.
-/

namespace Packrat.Text.Cluster

inductive Class where
  | carriageReturn
  | lineFeed
  | control
  /-- Extends the character before it. -/
  | extender
  /-- Joins the pictographs on its two sides. -/
  | joiner
  /-- Belongs to the character before it. -/
  | spacingMark
  /-- Belongs to the character after it. -/
  | opener
  /-- One of the letters that name a region in pairs. -/
  | regional
  /-- A leading consonant of Hangul. -/
  | leading
  /-- A vowel of Hangul, or of Kirat Rai, whose vowels join in the same way. -/
  | vowel
  /-- A trailing consonant of Hangul. -/
  | trailing
  /-- A syllable of Hangul without a trailing consonant. -/
  | openSyllable
  /-- A syllable of Hangul with a trailing consonant. -/
  | closedSyllable
  | other
  deriving DecidableEq

/-- The class of a letter or syllable of Hangul. Syllables are laid out by rule: each open one is
followed by the twenty-seven that close it. -/
def hangulClass (n : Nat) : Class :=
  if within n [(0x1100, 0x115f), (0xa960, 0xa97c)] then .leading
  else if within n [(0x1160, 0x11a7), (0xd7b0, 0xd7c6), (0x16d63, 0x16d63), (0x16d67, 0x16d6a)] then
    .vowel
  else if within n [(0x11a8, 0x11ff), (0xd7cb, 0xd7fb)] then .trailing
  else if 0xac00 ≤ n ∧ n ≤ 0xd7a3 then
    if (n - 0xac00) % 28 = 0 then .openSyllable else .closedSyllable
  else .other

def classOf (c : Char) : Class :=
  let n := c.toNat
  if n = 0x0d then .carriageReturn
  else if n = 0x0a then .lineFeed
  else if n = 0x200d then .joiner
  else if within n controls then .control
  else if within n extenders then .extender
  else if within n spacingMarks then .spacingMark
  else if within n openers then .opener
  else if 0x1f1e6 ≤ n ∧ n ≤ 0x1f1ff then .regional
  else hangulClass n

def isPictograph (c : Char) : Bool := within c.toNat pictographs

/-- Whether a character is a consonant that can be tied to another one. -/
def isConsonant (c : Char) : Bool := within c.toNat consonants

/-- Whether a character ties consonants together. -/
def isLinker (c : Char) : Bool := within c.toNat linkers

/-- Whether a character may stand between two consonants that are tied together, without tying them
itself. The zero width non-joiner is there to keep them apart. -/
def isTransparent (c : Char) : Bool :=
  !isLinker c && c.toNat != 0x200c && (classOf c = .extender || classOf c = .joiner)

end Packrat.Text.Cluster
