/-!
# Blank characters, trimming and words

Lines typed at a prompt are trimmed and cut into words at blanks. Blank means the Unicode property
White_Space, so a no-break space or an ideographic space counts like a plain one. The format parsers
know only bytes and have a narrower notion, ASCII blanks, which is also here.
-/

namespace Packrat.Text

/-- The characters with the Unicode property White_Space. -/
def isBlank (c : Char) : Bool :=
  let n := c.toNat
  (0x09 ≤ n && n ≤ 0x0d) || n == 0x20 || n == 0x85 || n == 0xa0 || n == 0x1680
    || (0x2000 ≤ n && n ≤ 0x200a) || n == 0x2028 || n == 0x2029 || n == 0x202f
    || n == 0x205f || n == 0x3000

/-- The ASCII blanks: space, tab, line feed, form feed and carriage return. -/
def isBlankByte (b : UInt8) : Bool :=
  b == 0x20 || b == 0x09 || b == 0x0a || b == 0x0c || b == 0x0d

/-- `chars` without its trailing blanks. -/
def trimEndChars (chars : List Char) : List Char :=
  (chars.reverse.dropWhile isBlank).reverse

def trimEnd (text : String) : String :=
  String.ofList (trimEndChars text.toList)

def trim (text : String) : String :=
  String.ofList (trimEndChars (text.toList.dropWhile isBlank))

/-- Cuts `chars` at every run of blanks; `word` holds the current word, last character first. -/
def wordsFrom (word : List Char) : List Char → List String
  | [] => if word.isEmpty then [] else [String.ofList word.reverse]
  | c :: rest =>
    if isBlank c then
      if word.isEmpty then wordsFrom [] rest
      else String.ofList word.reverse :: wordsFrom [] rest
    else wordsFrom (c :: word) rest

/-- The words of a text: its maximal runs of characters that are not blank. -/
def words (text : String) : List String :=
  wordsFrom [] text.toList

end Packrat.Text
