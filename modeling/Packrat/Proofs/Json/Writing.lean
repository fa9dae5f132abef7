import Packrat.Proofs.Json.Language

/-!
# Writing JSON

Texts that say a value are put together from texts that say its parts. `Says` is
stated for whatever text follows, so the pieces can be written one behind the other.
Of texts in quotes only the escape of one character is looked at: if each escape reads
as its character, the whole text does.
-/

namespace Packrat.JsonText

/-- The text says `v`, whatever follows. -/
def Says (text : String) (v : Value) : Prop := ∀ r, Spells (text.toList ++ r) v r

/-- The text is these members, whatever follows. -/
def SaysMembers (text : String) (ms : List (String × Value)) : Prop :=
  ∀ r, Members (text.toList ++ r) ms r

theorem Says.document {text : String} {v : Value} (h : Says text v) : Document text v := by
  have hvalue := h []
  rw [List.append_nil] at hvalue
  exact .item .nil hvalue .nil

theorem says_null : Says "null" .null := fun _ => .nullWord

/-! ## Numbers -/

theorem digits_append {ds : List Char} (hne : ds ≠ []) (hds : ∀ c ∈ ds, c.isDigit = true)
    (r : List Char) : Digits (ds ++ r) ds r := by
  induction ds with
  | nil => exact absurd rfl hne
  | cons c ds ih =>
      obtain ⟨hc, hrest⟩ := List.forall_mem_cons.mp hds
      cases ds with
      | nil => exact .last hc
      | cons d ds => exact .more hc (ih (List.cons_ne_nil d ds) hrest)

/-- Only zero is written with a zero in front. -/
theorem toDigits_ne_zero {n : Nat} (h : n ≠ 0) :
    ∃ c ds, Nat.toDigits 10 n = c :: ds ∧ c ≠ '0' := by
  induction n using Nat.strongRecOn with
  | _ n ih =>
      by_cases hlt : n < 10
      · have hdigit : ∀ m < 10, m ≠ 0 → m.digitChar ≠ '0' := by decide
        exact ⟨_, [], Nat.toDigits_of_lt_base hlt, hdigit n hlt h⟩
      · obtain ⟨c, ds, hds, hc⟩ := ih (n / 10) (by omega) (by omega)
        refine ⟨c, ds ++ [(n % 10).digitChar], ?_, hc⟩
        rw [Nat.toDigits_of_base_le (by decide) (by omega), hds]
        rfl

theorem whole_toDigits (n : Nat) (r : List Char) : Whole (Nat.toDigits 10 n ++ r) n r := by
  by_cases hn : n = 0
  · rw [hn, Nat.toDigits_zero]
    exact .zero
  · have hds : Digits (Nat.toDigits 10 n ++ r) (Nat.toDigits 10 n) r :=
      digits_append Nat.toDigits_ne_nil
        (fun c hc => Nat.isDigit_of_mem_toDigits (b := 10) (by decide) (by decide) hc) r
    have hvalue : natural (Nat.toDigits 10 n) = n := Nat.ofDigitChars_ten_toDigits
    obtain ⟨c, ds, heq, hc⟩ := toDigits_ne_zero hn
    have hwhole : Whole (c :: (ds ++ r)) (natural (Nat.toDigits 10 n)) r :=
      .digits hc (by rwa [heq] at hds ⊢)
    rwa [hvalue, ← List.cons_append, ← heq] at hwhole

theorem says_nat (n : Nat) : Says (toString n) (.num n) := by
  intro r
  have hvalue : (n : ℚ) = (if false then -1 else 1) * (n + 0) * 10 ^ (0 : ℤ) := by simp
  rw [Nat.toString_eq_repr, Nat.toList_repr, hvalue]
  exact .num (.number .absent (whole_toDigits n r) .absent .absent)

/-! ## Texts in quotes -/

/-- Between quotes the piece reads as `c`, whatever follows. -/
def Escaped (c : Char) (piece : String) : Prop :=
  ∀ {s t r : List Char}, Chars s t r → Chars (piece.toList ++ s) (c :: t) r

/-! Three ways to write a character. -/

theorem escaped_singleton {c : Char} (hlow : 0x20 ≤ c.toNat) (hquote : c ≠ '"')
    (hbackslash : c ≠ '\\') : Escaped c (String.singleton c) := by
  intro s t r h
  rw [String.toList_singleton]
  exact .plain hlow hquote hbackslash h

theorem escaped_short {c e : Char} {piece : String} (hpiece : piece.toList = ['\\', e])
    (he : short? e = some c) : Escaped c piece := by
  intro s t r h
  rw [hpiece]
  exact .short he h

theorem toList_hex_four {n : Nat} (h : n < 0x100) :
    (Text.padLeft 4 '0' (Text.hex n)).toList =
      ['0', '0', (n / 16).digitChar, (n % 16).digitChar] := by
  rw [Text.padLeft, Text.hex, String.toList_append, String.toList_ofList, String.toList_ofList,
    String.length_ofList]
  by_cases hlt : n < 16
  · rw [Nat.toDigits_of_lt_base hlt, Nat.div_eq_of_lt hlt, Nat.mod_eq_of_lt hlt]
    rfl
  · rw [Nat.toDigits_of_base_le (by decide) (by omega), Nat.toDigits_of_lt_base (by omega)]
    rfl

theorem escaped_unit {c : Char} (h : c.toNat < 0x100) :
    Escaped c ("\\u" ++ Text.padLeft 4 '0' (Text.hex c.toNat)) := by
  intro s t r hrest
  have hunit : unit? '0' '0' (c.toNat / 16).digitChar (c.toNat % 16).digitChar =
      some c.toNat := by
    have hzero : Text.hexDigit? '0' = some 0 := rfl
    rw [unit?, hzero, Text.hexDigit?_digitChar _ (by omega), Text.hexDigit?_digitChar _ (by omega)]
    simp only [Option.bind_eq_bind, Option.bind_some, Option.pure_def, Option.some.injEq]
    omega
  have hchars := Chars.unit hunit (.inl (by omega)) hrest
  rw [Char.ofNat_toNat] at hchars
  rw [String.toList_append, toList_hex_four h]
  exact hchars

theorem chars_escape {escape : Char → String} (hescape : ∀ c, Escaped c (escape c))
    (t r : List Char) : Chars (t.flatMap (fun c => (escape c).toList) ++ '"' :: r) t r := by
  induction t with
  | nil => exact .close
  | cons c t ih =>
      rw [List.flatMap_cons, List.append_assoc]
      exact hescape c ih

theorem says_quote {escape : Char → String} (hescape : ∀ c, Escaped c (escape c))
    (text : String) :
    Says ("\"" ++ String.join (text.toList.map escape) ++ "\"") (.str text) := by
  intro r
  have hchars := chars_escape hescape text.toList r
  have hstr := Spells.str hchars
  rw [String.ofList_toList] at hstr
  simpa [String.toList_join, List.flatMap_map] using hstr

/-! ## Arrays and objects -/

/-- The text is made of blanks. -/
def Blank (text : String) : Prop := ∀ c ∈ text.toList, isBlank c = true

theorem blanks_append {front : List Char} (h : ∀ c ∈ front, isBlank c = true) {s r : List Char}
    (hs : Blanks s r) : Blanks (front ++ s) r := by
  induction front with
  | nil => exact hs
  | cons c front ih =>
      obtain ⟨hc, hrest⟩ := List.forall_mem_cons.mp h
      exact .cons hc (ih hrest)

section Lists

variable {front between back : String} {texts : List String} {vs : List Value}

/-- Items with blanks in front of the first, in front of each other one, and behind the last. -/
theorem items_intercalate (hbetween : Blank between) (hback : Blank back)
    (h : List.Forall₂ Says texts vs) (hne : vs ≠ []) :
    ∀ {front : String}, Blank front → ∀ r,
      Items ((front ++ ("," ++ between).intercalate texts ++ back).toList ++ r) vs r := by
  induction h with
  | nil => exact absurd rfl hne
  | @cons text v texts vs htext hrest ih =>
      intro front hfront r
      cases hrest with
      | nil =>
          rw [String.intercalate_singleton]
          simp only [String.toList_append, List.append_assoc]
          exact .last (.item (blanks_append hfront .nil) (htext _) (blanks_append hback .nil))
      | @cons text' v' texts vs htext' hrest =>
          rw [String.intercalate_cons_cons]
          have hmore := ih (List.cons_ne_nil _ _) hbetween r
          simp only [String.toList_append, List.append_assoc] at hmore ⊢
          exact .more (.item (blanks_append hfront .nil) (htext _) .nil) hmore

theorem says_arr (hfront : Blank front) (hbetween : Blank between) (hback : Blank back)
    (h : List.Forall₂ Says texts vs) :
    Says ("[" ++ (front ++ ("," ++ between).intercalate texts ++ back) ++ "]") (.arr vs) := by
  intro r
  by_cases hne : vs = []
  · subst hne
    cases h
    have hblanks := blanks_append hfront (blanks_append hback (.nil (r := ']' :: r)))
    simpa using Spells.noItems hblanks
  · simpa using Spells.arr (items_intercalate hbetween hback h hne hfront (']' :: r))

end Lists

theorem Members.append : ∀ {s t r : List Char} {ms ms' : List (String × Value)},
    Members s ms (',' :: t) → Members t ms' r → Members s (ms ++ ms') r
  | _, _, _, _, _, .last h, h' => .more h h'
  | _, _, _, _, _, .more h hmore, h' => .more h (hmore.append h')

/-- A text that may stand between quotes as it is. -/
def NeedsNoEscape (text : String) : Prop :=
  ∀ c ∈ text.toList, 0x20 ≤ c.toNat ∧ c ≠ '"' ∧ c ≠ '\\'

section Objects

variable {text text' : String} {ms ms' : List (String × Value)} {v : Value}

theorem says_member (name : String) (hname : NeedsNoEscape name) (h : Says text v) :
    SaysMembers ("\"" ++ name ++ "\":" ++ text) [(name, v)] := by
  have hchars : ∀ {t : List Char}, (∀ c ∈ t, 0x20 ≤ c.toNat ∧ c ≠ '"' ∧ c ≠ '\\') →
      ∀ r, Chars (t ++ '"' :: r) t r := by
    intro t ht r
    induction t with
    | nil => exact .close
    | cons c t ih =>
        obtain ⟨⟨hlow, hquote, hbackslash⟩, hrest⟩ := List.forall_mem_cons.mp ht
        exact .plain hlow hquote hbackslash (ih hrest)
  intro r
  have hmember := Member.member (.nil) (hchars hname (':' :: (text.toList ++ r))) .nil
    (.item .nil (h r) .nil)
  rw [String.ofList_toList] at hmember
  simpa using Members.last hmember

theorem SaysMembers.append (h : SaysMembers text ms) (h' : SaysMembers text' ms') :
    SaysMembers (text ++ "," ++ text') (ms ++ ms') := by
  intro r
  have hfront := h (',' :: (text'.toList ++ r))
  simpa using hfront.append (h' r)

theorem says_obj (h : SaysMembers text ms) : Says ("\x7b" ++ text ++ "\x7d") (.obj ms) := by
  intro r
  simpa using Spells.obj (h ('}' :: r))

end Objects

end Packrat.JsonText
