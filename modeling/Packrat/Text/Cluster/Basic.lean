import Packrat.Text.Cluster.Property

/-!
# Grapheme clusters

What a reader takes for one character may be several: a letter with its accents, the two letters of a
flag, a family of joined pictures. The rules of Unicode for extended grapheme clusters say where such
a cluster ends.

Whether a character joins the one before it depends on the two and on at most three more facts about
what came before: how many letters of flags end there, how far a conjunct of consonants has come, and
whether a pictograph is waiting to be joined. A text is cut in one pass that carries these along.
-/

namespace Packrat.Text.Cluster

/-! ## What came before -/

/-- How far a conjunct of consonants has come. -/
inductive Conjunct where
  /-- There is no consonant to tie to. -/
  | absent
  /-- A consonant, perhaps with marks that tie nothing. -/
  | begun
  /-- A consonant, and a linker among the marks after it. -/
  | linked
  deriving DecidableEq

/-- How far a chain of joined pictographs has come. -/
inductive Chain where
  /-- There is no pictograph to join to. -/
  | absent
  /-- A pictograph, perhaps with extenders. -/
  | begun
  /-- A pictograph, perhaps with extenders, and a joiner at the end. -/
  | joined
  deriving DecidableEq

/-- All that matters of the characters before a place. -/
structure Before where
  /-- The class of the last of them. -/
  last : Class
  /-- Whether the regional letters at their end are odd in number. -/
  oddRegionals : Bool
  conjunct : Conjunct
  chain : Chain

/-- A conjunct one character later. -/
def Conjunct.next (conjunct : Conjunct) (c : Char) : Conjunct :=
  if isConsonant c then .begun
  else if isLinker c then
    match conjunct with
    | .absent => .absent
    | .begun | .linked => .linked
  else if isTransparent c then conjunct
  else .absent

def Chain.next (chain : Chain) (c : Char) : Chain :=
  if isPictograph c then .begun
  else
    match chain, classOf c with
    | .begun, .extender => .begun
    | .begun, .joiner => .joined
    | _, _ => .absent

/-- At the start of a text, after its first character. -/
def Before.first (c : Char) : Before :=
  ⟨classOf c, classOf c = .regional, Conjunct.absent.next c, Chain.absent.next c⟩

def Before.next (b : Before) (c : Char) : Before :=
  ⟨classOf c, classOf c = .regional && !b.oddRegionals, b.conjunct.next c, b.chain.next c⟩

/-! ## Clusters -/

/-- Whether nothing joins a character of this class, except a line feed to a carriage return. -/
def Class.isBreaking : Class → Bool
  | carriageReturn | lineFeed | control => true
  | _ => false

/-- Whether the parts of one syllable of Hangul follow each other so. -/
def Class.isSyllable : Class → Class → Bool
  | leading, leading | leading, vowel | leading, openSyllable | leading, closedSyllable => true
  | openSyllable, vowel | openSyllable, trailing | vowel, vowel | vowel, trailing => true
  | closedSyllable, trailing | trailing, trailing => true
  | _, _ => false

/-- Whether a character belongs to the cluster of the character before it. -/
def Before.joins (b : Before) (c : Char) : Bool :=
  let next := classOf c
  if b.last.isBreaking || next.isBreaking then
    b.last = .carriageReturn && next = .lineFeed
  else
    b.last.isSyllable next
      || next = .extender || next = .joiner || next = .spacingMark
      || b.last = .opener
      || (b.conjunct = .linked && isConsonant c)
      || (b.chain = .joined && isPictograph c)
      || (b.oddRegionals && next = .regional)

/-- Cuts `chars` into clusters; `cluster` holds the current one, last character first. -/
def cut (b : Before) (cluster : List Char) : List Char → List (List Char)
  | [] => [cluster.reverse]
  | c :: rest =>
    if b.joins c then cut (b.next c) (c :: cluster) rest
    else cluster.reverse :: cut (b.next c) [c] rest

end Cluster

/-- The extended grapheme clusters of a text, in order. -/
def clusters : List Char → List (List Char)
  | [] => []
  | c :: rest => Cluster.cut (.first c) [c] rest

end Packrat.Text
