import Packrat.Explain
import Packrat.Proofs.Text.Escape

/-!
# The caret stands under the byte

An excerpt has two lines, and the second one is only right if it is as long as the first
one is up to the byte that is meant. The bytes in front of that byte take one, two or
four columns each, and there are dots if some of them are left out, so a column is the
length of a text and not a difference of positions. What is shown falls into the bytes in
front and the bytes from there on (`leading_append_following`), and the rest follows from
what is known of escapes.
-/

namespace Packrat.Excerpt

variable {input : List UInt8} {p : Nat}

/-! ## What is shown -/

/-- The bytes that are shown: at most 32 in front of a position, and 16 from there on. -/
def shown (input : List UInt8) (p : Nat) : List UInt8 := (input.take (p + 16)).drop (p - 32)

/-- Those of them that are in front of the position. -/
def leading (input : List UInt8) (p : Nat) : List UInt8 := (input.take p).drop (p - 32)

/-- Those of them that come from there on. -/
def following (input : List UInt8) (p : Nat) : List UInt8 := (input.drop p).take 16

theorem leading_append_following (h : p ≤ input.length) :
    leading input p ++ following input p = shown input p := by
  have hle : p - 32 ≤ (input.take p).length := by
    rw [List.length_take_of_le h]
    omega
  rw [shown, List.take_add, List.drop_append_of_le_length hle]
  rfl

/-- What tells that something is left out. -/
def dots (leftOut : Bool) : List Char := if leftOut then "...".toList else []

/-- The first line as far as the byte at a position. -/
def front (input : List UInt8) (p : Nat) : List Char :=
  "  ".toList ++ dots (32 < p) ++ (Text.escape (leading input p)).toList

/-- The first line: the bytes that are shown, and dots where some are left out. -/
def line (input : List UInt8) (p : Nat) : List Char :=
  "  ".toList ++ dots (32 < p) ++ (Text.escape (shown input p)).toList ++
    dots (p + 16 < input.length)

theorem line_eq (h : p ≤ input.length) :
    line input p = front input p ++ ((Text.escape (following input p)).toList ++
      dots (p + 16 < input.length)) := by
  rw [line, front, ← leading_append_following h, Text.toList_escape_append]
  simp only [List.append_assoc]

/-- The second line, with the caret at a column. -/
def pointer (column : Nat) : List Char := List.replicate column ' ' ++ ['^']

theorem toList_dots {c d : Prop} [Decidable c] [Decidable d] (h : c ↔ d) :
    (if c then "..." else "").toList = dots d := by
  by_cases hd : d
  · rw [if_pos (h.mpr hd), dots, decide_eq_true hd]
    rfl
  · rw [if_neg (fun hc => hd (h.mp hc)), dots, decide_eq_false hd]
    rfl

theorem toList_caret (input : List UInt8) (position : Nat) :
    (caret input position).toList =
      line input (min position input.length) ++
        '\n' :: pointer (front input (min position input.length)).length := by
  have hp : min position input.length ≤ input.length := Nat.min_le_right ..
  rw [line_eq hp]
  unfold caret
  simp only []
  generalize min position input.length = p at hp
  have hleading : (input.drop (p - before)).take (p - (p - before)) = leading input p :=
    List.drop_take.symm
  have hfollowing : (input.drop p).take (min (p + after) input.length - p) =
      following input p := by
    rw [following, List.take_eq_take_iff, List.length_drop]
    simp only [after]
    omega
  have hlead : (if 0 < p - before then "..." else "").toList = dots (32 < p) :=
    toList_dots (by simp only [before]; omega)
  have htail : (if min (p + after) input.length < input.length then "..." else "").toList =
      dots (p + 16 < input.length) :=
    toList_dots (by simp only [after]; omega)
  -- the blanks that begin both lines count as well
  have hcolumn : (front input p).length =
      (if 0 < p - before then "..." else "").length +
        (Text.escape (leading input p)).length + 2 := by
    rw [← String.length_toList, ← String.length_toList, hlead]
    simp [front]
  rw [hleading, hfollowing, hcolumn]
  simp only [String.toList_append, String.toList_ofList, hlead, htail, front, pointer]
  simp [List.replicate_succ]

theorem printable_dots (leftOut : Bool) : ∀ c ∈ dots leftOut, Text.Printable c := by
  cases leftOut with
  | false => exact nofun
  | true =>
      intro c hc
      have hdot : c = '.' := by simpa [dots] using hc
      rw [hdot]
      decide

theorem printable_line (input : List UInt8) (p : Nat) :
    ∀ c ∈ line input p, Text.Printable c := by
  intro c hc
  simp only [line, List.mem_append] at hc
  rcases hc with ((hc | hc) | hc) | hc
  · have hspace : c = ' ' := by simpa using hc
    rw [hspace]
    decide
  · exact printable_dots _ c hc
  · exact Text.printable_escape _ c hc
  · exact printable_dots _ c hc

theorem printable_pointer (column : Nat) : ∀ c ∈ pointer column, Text.Printable c := by
  intro c hc
  rcases List.mem_append.mp hc with hblank | hcaret
  · rw [List.eq_of_mem_replicate hblank]
    decide
  · rw [List.mem_singleton.mp hcaret]
    decide

/-- A text that prints has one line. -/
theorem not_mem_newline {text : List Char} (h : ∀ c ∈ text, Text.Printable c) :
    '\n' ∉ text :=
  fun hmem => absurd (h _ hmem) (by decide)

/-! ## Both lines -/

/-- A line of text and a line with a caret show a position of the input. -/
structure Pictures (input : List UInt8) (p : Nat) (text caretLine : List Char) : Prop where
  printable : ∀ c ∈ text ++ caretLine, Text.Printable c
  text_eq : text = line input p
  /-- The bytes that are shown can be read off the text. -/
  readable : Text.unescape? (Text.escape (shown input p)).toList = some (shown input p)
  /-- The caret stands where the front of the text ends, -/
  caret_eq : caretLine = pointer (front input p).length
  /-- and there the byte at the position begins, -/
  at_byte : ∀ b, input[p]? = some b → front input p ++ (Text.escapeByte b).toList <+: text
  /-- or the text ends, if there is none. -/
  at_end : p = input.length → text = front input p

theorem front_append_isPrefix {b : UInt8} (hb : input[p]? = some b) :
    front input p ++ (Text.escapeByte b).toList <+: line input p := by
  obtain ⟨hlt, rfl⟩ := List.getElem?_eq_some_iff.mp hb
  have hfollowing : following input p = input[p] :: (input.drop (p + 1)).take 15 := by
    rw [following, List.drop_eq_getElem_cons hlt, List.take_succ_cons]
  rw [line_eq (Nat.le_of_lt hlt), hfollowing, Text.toList_escape_cons, List.append_assoc,
    List.prefix_append_right_inj]
  exact List.prefix_append _ _

theorem line_eq_front (h : p = input.length) : line input p = front input p := by
  have hfollowing : following input p = [] := by
    rw [following, h, List.drop_length, List.take_nil]
  have hdots : dots (p + 16 < input.length) = [] := by
    rw [dots, decide_eq_false (by omega)]
    rfl
  rw [line_eq (Nat.le_of_eq h), hfollowing, hdots]
  simp [Text.escape]

/-- An excerpt is a line with the bytes around a position and a line with a caret, which
stands where the byte at the position begins. A position behind the end of the input
counts as the end. -/
theorem caret_pictures (input : List UInt8) (position : Nat) :
    ∃ text caretLine, (caret input position).toList.splitOn '\n' = [text, caretLine] ∧
      Pictures input (min position input.length) text caretLine := by
  have hlines := toList_caret input position
  generalize min position input.length = p at hlines
  have htext := printable_line input p
  have hpointer := printable_pointer (front input p).length
  refine ⟨line input p, pointer (front input p).length, ?_, ?_⟩
  · have hbreaks : ∀ l ∈ [line input p, pointer (front input p).length], '\n' ∉ l := by
      simp [not_mem_newline htext, not_mem_newline hpointer]
    rw [hlines, ← List.splitOn_intercalate '\n' hbreaks (List.cons_ne_nil _ _)]
    simp
  · exact {
      printable := fun c hc => (List.mem_append.mp hc).elim (htext c) (hpointer c)
      text_eq := rfl
      readable := Text.unescape?_escape _
      caret_eq := rfl
      at_byte := fun b hb => front_append_isPrefix hb
      at_end := line_eq_front }

example : caret [0x61, 0x0a, 0x63] 2 = "  a\\nc\n     ^" := by decide

end Packrat.Excerpt
