import Packrat.Proofs.Json.Unambiguous
import Packrat.Proofs.Json.Writing
import Packrat.Proofs.Text.Escape

/-!
# Texts that tell where they end

A value that is written down can be read again out of a longer text only if the text says where
the value ends. `Delimited` says so of one value: whatever is written in its place, with whatever
behind it, the characters come out different unless both are the same. Some texts end by
themselves, such as an escape or anything in quotes, and some end only before certain characters,
such as a number, so what may follow is part of the notion.

A text with a character in front or behind is delimited if the text is, and so is a row of texts
with a character behind that none of them begins with.
-/

namespace Packrat.Text

section Delimited

variable {α β : Type} {render : α → List Char} {follows : List Char → Prop} {a : α}

/-- Where `a` is written and something follows that may, nothing else is written, and nothing else
follows. -/
def Delimited (render : α → List Char) (follows : List Char → Prop) (a : α) : Prop :=
  ∀ ⦃b : α⦄ ⦃r r' : List Char⦄, follows r → follows r' → render a ++ r = render b ++ r' →
    a = b ∧ r = r'

theorem Delimited.mono {follows' : List Char → Prop} (h : Delimited render follows a)
    (himp : ∀ r, follows' r → follows r) : Delimited render follows' a :=
  fun _ _ _ hr hr' heq => h (himp _ hr) (himp _ hr') heq

/-- A value that is written as another is delimited if the other is. -/
theorem Delimited.comp (part : β → α) {b : β} (h : Delimited render follows (part b))
    (hpart : Function.Injective part) : Delimited (fun b => render (part b)) follows b := by
  intro c r r' hr hr' heq
  obtain ⟨hparts, hrest⟩ := h hr hr' heq
  exact ⟨hpart hparts, hrest⟩

theorem Delimited.cons (c : Char) (h : Delimited render follows a) :
    Delimited (fun a => c :: render a) follows a :=
  fun _ _ _ hr hr' heq => h hr hr' (List.cons.inj heq).2

/-- With an end mark behind it, anything may follow. -/
theorem Delimited.concat {stop : Char} (h : Delimited render follows a)
    (hstop : ∀ r, follows (stop :: r)) :
    Delimited (fun a => render a ++ [stop]) (fun _ => True) a := by
  intro b r r' _ _ heq
  simp only [List.append_assoc] at heq
  obtain ⟨hvalue, hrest⟩ := h (hstop r) (hstop r') heq
  exact ⟨hvalue, (List.cons.inj hrest).2⟩

/-- A row of values ends at a mark that none of them begins with. -/
theorem delimited_flatMap {stop : Char} {row : List α} (h : ∀ a ∈ row, Delimited render follows a)
    (hopens : ∀ a r r', render a ++ r ≠ stop :: r') (hmore : ∀ a r, follows (render a ++ r))
    (hstop : ∀ r, follows (stop :: r)) :
    Delimited (fun row => row.flatMap render ++ [stop]) (fun _ => True) row := by
  have hbehind : ∀ (row : List α) (r : List Char),
      follows (row.flatMap render ++ ([stop] ++ r)) := by
    intro row r
    cases row with
    | nil => exact hstop r
    | cons a row =>
        rw [List.flatMap_cons, List.append_assoc]
        exact hmore a _
  induction row with
  | nil =>
      intro other r r' _ _ heq
      cases other with
      | nil => exact ⟨rfl, (List.cons.inj heq).2⟩
      | cons b other =>
          simp only [List.flatMap_cons, List.append_assoc] at heq
          exact absurd heq.symm (hopens b _ r)
  | cons a row ih =>
      obtain ⟨ha, hrow⟩ := List.forall_mem_cons.mp h
      intro other r r' _ _ heq
      cases other with
      | nil =>
          simp only [List.flatMap_cons, List.append_assoc] at heq
          exact absurd heq (hopens a _ r')
      | cons b other =>
          simp only [List.flatMap_cons, List.append_assoc] at heq
          obtain ⟨rfl, hrest⟩ := ha (hbehind row r) (hbehind other r') heq
          simp only [← List.append_assoc] at hrest
          obtain ⟨rfl, rfl⟩ := ih hrow trivial trivial hrest
          exact ⟨rfl, rfl⟩

end Delimited

/-! ## Escapes -/

section Escapes

variable {b b' : UInt8} {text text' r r' : List Char}

theorem Escapes.eq_of_text (h : Escapes b text) (h' : Escapes b' text) : b = b' := by
  have hread := h.unescape? []
  rw [h'.unescape? []] at hread
  simpa [Text.unescape?] using hread.symm

/-- The first two characters of an escape tell how long it is. -/
theorem Escapes.length_eq (h : Escapes b text) (h' : Escapes b' text')
    (heq : text ++ r = text' ++ r') : text.length = text'.length := by
  cases h with
  | plain _ hne _ =>
      cases h' with
      | plain _ _ _ => rfl
      | shorthand _ _ => exact absurd (List.cons.inj heq).1 hne
      | number => exact absurd (List.cons.inj heq).1 hne
  | shorthand _ hcode =>
      cases h' with
      | plain _ hne _ => exact absurd (List.cons.inj heq).1.symm hne
      | shorthand _ _ => rfl
      | number =>
          have hc := (List.cons.inj (List.cons.inj heq).2).1
          rw [hc, shorthand?_x] at hcode
          cases hcode
  | number =>
      cases h' with
      | plain _ hne _ => exact absurd (List.cons.inj heq).1.symm hne
      | shorthand _ hcode =>
          have hc := (List.cons.inj (List.cons.inj heq).2).1
          rw [← hc, shorthand?_x] at hcode
          cases hcode
      | number => simp [hexByte]

theorem delimited_escapeByte (b : UInt8) :
    Delimited (fun b => (escapeByte b).toList) (fun _ => True) b := by
  intro b' r r' _ _ heq
  have h := escapes_escapeByte b
  have h' := escapes_escapeByte b'
  obtain ⟨htext, hrest⟩ : (escapeByte b).toList = (escapeByte b').toList ∧ r = r' :=
    List.append_inj heq (h.length_eq h' heq)
  rw [← htext] at h'
  exact ⟨h.eq_of_text h', hrest⟩

/-- No escape begins with a quote. -/
theorem escapeByte_append_ne (b : UInt8) (r r' : List Char) :
    (escapeByte b).toList ++ r ≠ '"' :: r' := by
  unfold escapeByte
  iterate 6
    split
    · exact fun heq => absurd (List.cons.inj heq).1 (by decide)
  split
  · next hquote _ _ _ =>
      rw [String.toList_singleton]
      intro heq
      have hchar : (Char.ofUInt8 b).toNat = b.toNat := rfl
      rw [(List.cons.inj heq).1] at hchar
      exact hquote (UInt8.toNat_inj.mp hchar.symm)
  · rw [String.toList_append]
    exact fun heq => absurd (List.cons.inj heq).1 (by decide)

end Escapes

/-! ## Texts in quotes -/

theorem toList_quoteByte (b : UInt8) :
    (quoteByte b).toList = '\x27' :: ((escapeByte b).toList ++ ['\x27']) := by
  simp [quoteByte]

theorem toList_quoteBytes (bytes : List UInt8) :
    (quoteBytes bytes).toList =
      '"' :: (bytes.flatMap (fun b => (escapeByte b).toList) ++ ['"']) := by
  simp [quoteBytes, toList_escape]

theorem delimited_quoteByte (b : UInt8) :
    Delimited (fun b => (quoteByte b).toList) (fun _ => True) b := by
  simp only [toList_quoteByte]
  exact ((delimited_escapeByte b).concat fun _ => trivial).cons '\x27'

/-- A byte string in quotes ends at the first quote that stands free. -/
theorem delimited_quoteBytes (bytes : List UInt8) :
    Delimited (fun bytes => (quoteBytes bytes).toList) (fun _ => True) bytes := by
  simp only [toList_quoteBytes]
  exact (delimited_flatMap (fun b _ => delimited_escapeByte b) escapeByte_append_ne
    (fun _ _ => trivial) fun _ => trivial).cons '"'

/-! ## Decimal numbers -/

section Numbers

open JsonText (Lacks Sign Whole opensNumber)

theorem toList_integer (n : Int) :
    (toString n).toList = (if n < 0 then ['-'] else []) ++ Nat.toDigits 10 n.natAbs := by
  rw [Int.toString_eq_repr, Int.repr_eq_if]
  by_cases hn : n < 0
  · rw [if_neg (by omega), if_pos hn, String.toList_append, Nat.toList_repr,
      show (-n).toNat = n.natAbs by omega]
    rfl
  · rw [if_pos (by omega), if_neg hn, Nat.toList_repr, show n.toNat = n.natAbs by omega]
    rfl

theorem integer_ne_nil (n : Int) : (toString n).toList ≠ [] := by
  rw [toList_integer]
  exact List.append_ne_nil_of_right_ne_nil _ Nat.toDigits_ne_nil

theorem opensNumber_of_mem_integer (n : Int) : ∀ c ∈ (toString n).toList, opensNumber c = true := by
  rw [toList_integer]
  refine List.forall_mem_append.mpr ⟨?_, fun c hc => ?_⟩
  · split
    · exact List.forall_mem_singleton.mpr rfl
    · exact nofun
  · rw [opensNumber, Nat.isDigit_of_mem_toDigits (b := 10) (by decide) (by decide) hc]
    rfl

/-- The text of an integer is a sign and a natural number. -/
theorem sign_whole_integer (n : Int) (r : List Char) :
    ∃ t, Sign ((toString n).toList ++ r) (decide (n < 0)) t ∧ Whole t n.natAbs r := by
  refine ⟨Nat.toDigits 10 n.natAbs ++ r, ?_, JsonText.whole_toDigits n.natAbs r⟩
  rw [toList_integer]
  by_cases hn : n < 0
  · rw [if_pos hn, decide_eq_true hn]
    exact .minus
  · rw [if_neg hn, decide_eq_false hn]
    exact .absent

/-- An integer ends where no digit follows. -/
theorem delimited_integer (n : Int) :
    Delimited (fun n : Int => (toString n).toList) (Lacks Char.isDigit) n := by
  intro m r r' hr hr' heq
  obtain ⟨t, hsign, hwhole⟩ := sign_whole_integer n r
  obtain ⟨t', hsign', hwhole'⟩ := sign_whole_integer m r'
  have heq : (toString n).toList ++ r = (toString m).toList ++ r' := heq
  rw [heq] at hsign
  obtain ⟨hnegative, rfl⟩ := hsign.unique hsign' hwhole.lacks hwhole'.lacks
  obtain ⟨habs, rfl⟩ := hwhole.unique hwhole' hr hr'
  rw [decide_eq_decide] at hnegative
  exact ⟨by omega, rfl⟩

theorem delimited_natural (n : Nat) :
    Delimited (fun n : Nat => (toString n).toList) (Lacks Char.isDigit) n :=
  (delimited_integer n).comp Int.ofNat fun _ _ => Int.ofNat.inj

end Numbers

end Packrat.Text
