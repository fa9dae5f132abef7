import Packrat.Proofs.Json.Language

/-!
# A JSON text says one thing

Reading from the front, the next character always tells which rule applies, with one
exception: where a number ends is only known from the character behind it. So two
readings agree if what they leave does not go on with the number, and inside a text
there is a comma, a bracket or a blank behind every value.
-/

namespace Packrat.JsonText

/-! ## What may stand behind -/

/-- The text does not begin with a character that passes the test. -/
def Lacks (test : Char → Bool) (r : List Char) : Prop := ∀ c ∈ r.head?, test c = false

section Lacks

variable {test test' : Char → Bool} {c : Char} {r : List Char}

theorem lacks_nil : Lacks test [] := nofun

@[simp] theorem lacks_cons : Lacks test (c :: r) ↔ test c = false := by
  simp [Lacks]

theorem Lacks.mono (h : Lacks test r) (himp : ∀ c, test' c = true → test c = true) :
    Lacks test' r := by
  intro c hc
  refine Bool.eq_false_iff.mpr fun htrue => ?_
  exact Bool.eq_false_iff.mp (h c hc) (himp c htrue)

end Lacks

/-- The characters that numbers are made of. -/
def isNumeric (c : Char) : Bool :=
  c.isDigit || c == '.' || c == 'e' || c == 'E' || c == '+' || c == '-'

/-- The characters that a number may begin with. -/
def opensNumber (c : Char) : Bool := c.isDigit || c == '-'

/-- The characters behind an item: a comma or a closing bracket. -/
def isDelimiter (c : Char) : Bool := [',', ']', '}'].contains c

section Readings

variable {s r r' : List Char}

/-! ## Blanks -/

theorem Blanks.unique {t t' : List Char} (h : Blanks s t) (h' : Blanks s t')
    (ht : Lacks isBlank t) (ht' : Lacks isBlank t') : t = t' := by
  induction h with
  | nil =>
      cases h' with
      | nil => rfl
      | cons hc _ => rw [lacks_cons, hc] at ht; cases ht
  | cons hc _ ih =>
      cases h' with
      | nil => rw [lacks_cons, hc] at ht'; cases ht'
      | cons _ hrest => exact ih hrest ht

/-! ## Numbers -/

theorem Digits.starts {ds : List Char} (h : Digits s ds r) :
    ∃ c t, s = c :: t ∧ c.isDigit = true := by
  cases h with
  | last hc => exact ⟨_, _, rfl, hc⟩
  | more hc _ => exact ⟨_, _, rfl, hc⟩

theorem Digits.not_lacks {ds : List Char} (h : Digits s ds r) : ¬ Lacks Char.isDigit s := by
  obtain ⟨c, t, rfl, hc⟩ := h.starts
  rw [lacks_cons, hc]
  exact nofun

theorem Digits.unique {ds ds' : List Char} (h : Digits s ds r) (h' : Digits s ds' r')
    (hr : Lacks Char.isDigit r) (hr' : Lacks Char.isDigit r') : ds = ds' ∧ r = r' := by
  induction h generalizing ds' with
  | last _ =>
      cases h' with
      | last _ => exact ⟨rfl, rfl⟩
      | more _ hrest => exact absurd hr hrest.not_lacks
  | more _ hrest ih =>
      cases h' with
      | last _ => exact absurd hr' hrest.not_lacks
      | more _ hrest' =>
          obtain ⟨rfl, rfl⟩ := ih hrest' hr
          exact ⟨rfl, rfl⟩

theorem Sign.unique {negative negative' : Bool} (h : Sign s negative r)
    (h' : Sign s negative' r') (hr : Lacks (· == '-') r) (hr' : Lacks (· == '-') r') :
    negative = negative' ∧ r = r' := by
  cases h with
  | absent =>
      cases h' with
      | absent => exact ⟨rfl, rfl⟩
      | minus => cases lacks_cons.mp hr
  | minus =>
      cases h' with
      | absent => cases lacks_cons.mp hr'
      | minus => exact ⟨rfl, rfl⟩

theorem Whole.starts {n : Nat} (h : Whole s n r) : ∃ c t, s = c :: t ∧ c.isDigit = true := by
  cases h with
  | zero => exact ⟨_, _, rfl, by decide⟩
  | digits _ hds => exact hds.starts

theorem Whole.unique {n n' : Nat} (h : Whole s n r) (h' : Whole s n' r')
    (hr : Lacks Char.isDigit r) (hr' : Lacks Char.isDigit r') : n = n' ∧ r = r' := by
  cases h with
  | zero =>
      cases h' with
      | zero => exact ⟨rfl, rfl⟩
      | digits hc _ => exact absurd rfl hc
  | digits hc hds =>
      cases h' with
      | zero => exact absurd rfl hc
      | digits _ hds' =>
          obtain ⟨rfl, rfl⟩ := hds.unique hds' hr hr'
          exact ⟨rfl, rfl⟩

theorem Fraction.unique {f f' : ℚ} (h : Fraction s f r) (h' : Fraction s f' r')
    (hr : Lacks (fun c => c.isDigit || c == '.') r)
    (hr' : Lacks (fun c => c.isDigit || c == '.') r') : f = f' ∧ r = r' := by
  cases h with
  | absent =>
      cases h' with
      | absent => exact ⟨rfl, rfl⟩
      | present _ => cases lacks_cons.mp hr
  | present hds =>
      cases h' with
      | absent => cases lacks_cons.mp hr'
      | present hds' =>
          obtain ⟨rfl, rfl⟩ := hds.unique hds' (hr.mono (by simp +contextual))
            (hr'.mono (by simp +contextual))
          exact ⟨rfl, rfl⟩

theorem ExponentSign.unique {negative negative' : Bool} (h : ExponentSign s negative r)
    (h' : ExponentSign s negative' r') (hr : Lacks (fun c => c == '+' || c == '-') r)
    (hr' : Lacks (fun c => c == '+' || c == '-') r') : negative = negative' ∧ r = r' := by
  cases h with
  | plus =>
      cases h' with
      | plus => exact ⟨rfl, rfl⟩
      | sign hsign =>
          cases hsign with
          | absent => cases lacks_cons.mp hr'
  | sign hsign =>
      cases h' with
      | plus =>
          cases hsign with
          | absent => cases lacks_cons.mp hr
      | sign hsign' =>
          exact hsign.unique hsign' (hr.mono (by simp +contextual))
            (hr'.mono (by simp +contextual))

/-- A digit is none of the other characters of a number. -/
theorem Digits.lacks {test : Char → Bool} {ds : List Char} (h : Digits s ds r)
    (htest : ∀ c, test c = true → c.isDigit = false) : Lacks test s := by
  obtain ⟨c, t, rfl, hc⟩ := h.starts
  rw [lacks_cons]
  refine Bool.eq_false_iff.mpr fun htrue => ?_
  rw [htest c htrue] at hc
  cases hc

theorem Exponent.unique {e e' : ℤ} (h : Exponent s e r) (h' : Exponent s e' r')
    (hr : Lacks isNumeric r) (hr' : Lacks isNumeric r') : e = e' ∧ r = r' := by
  have hdigit : ∀ c, Char.isDigit c = true → isNumeric c = true := by
    intro c hc
    simp [isNumeric, hc]
  have hletter : ∀ {c : Char} {t : List Char}, c = 'e' ∨ c = 'E' → ¬ Lacks isNumeric (c :: t) := by
    intro c t hc
    rw [lacks_cons]
    rcases hc with rfl | rfl
    · decide
    · decide
  have hsign : ∀ c : Char, (c == '+' || c == '-') = true → c.isDigit = false := by
    intro c hc
    simp only [Bool.or_eq_true, beq_iff_eq] at hc
    rcases hc with rfl | rfl
    · decide
    · decide
  cases h with
  | absent =>
      cases h' with
      | absent => exact ⟨rfl, rfl⟩
      | present he _ _ => exact absurd hr (hletter he)
  | present he hs hds =>
      cases h' with
      | absent => exact absurd hr' (hletter he)
      | present _ hs' hds' =>
          obtain ⟨rfl, rfl⟩ := hs.unique hs' (hds.lacks hsign) (hds'.lacks hsign)
          obtain ⟨rfl, rfl⟩ := hds.unique hds' (hr.mono hdigit) (hr'.mono hdigit)
          exact ⟨rfl, rfl⟩

theorem Exponent.lacks {e : ℤ} (h : Exponent s e r) (hr : Lacks isNumeric r) :
    Lacks (fun c => c.isDigit || c == '.') s := by
  cases h with
  | absent =>
      refine hr.mono fun c hc => ?_
      rw [isNumeric, hc]
      rfl
  | present he _ _ =>
      rw [lacks_cons]
      rcases he with rfl | rfl
      · decide
      · decide

theorem Fraction.lacks {f : ℚ} (h : Fraction s f r)
    (hr : Lacks (fun c => c.isDigit || c == '.') r) : Lacks Char.isDigit s := by
  cases h with
  | absent => exact hr.mono (by simp +contextual)
  | present _ => exact lacks_cons.mpr (by decide)

theorem Whole.lacks {n : Nat} (h : Whole s n r) : Lacks (· == '-') s := by
  obtain ⟨c, t, rfl, hc⟩ := h.starts
  rw [lacks_cons]
  refine beq_false_of_ne ?_
  rintro rfl
  cases hc

theorem Number.unique {q q' : ℚ} (h : Number s q r) (h' : Number s q' r')
    (hr : Lacks isNumeric r) (hr' : Lacks isNumeric r') : q = q' ∧ r = r' := by
  obtain ⟨hsign, hwhole, hfraction, hexponent⟩ := h
  obtain ⟨hsign', hwhole', hfraction', hexponent'⟩ := h'
  have hw := hexponent.lacks hr
  have hw' := hexponent'.lacks hr'
  obtain ⟨rfl, rfl⟩ := hsign.unique hsign' hwhole.lacks hwhole'.lacks
  obtain ⟨rfl, rfl⟩ := hwhole.unique hwhole' (hfraction.lacks hw) (hfraction'.lacks hw')
  obtain ⟨rfl, rfl⟩ := hfraction.unique hfraction' hw hw'
  obtain ⟨rfl, rfl⟩ := hexponent.unique hexponent' hr hr'
  exact ⟨rfl, rfl⟩

theorem Number.starts {q : ℚ} (h : Number s q r) :
    ∃ c t, s = c :: t ∧ opensNumber c = true := by
  obtain ⟨hsign, hwhole, _, _⟩ := h
  cases hsign with
  | minus => exact ⟨_, _, rfl, by decide⟩
  | absent =>
      obtain ⟨c, t, rfl, hc⟩ := hwhole.starts
      exact ⟨c, t, rfl, by rw [opensNumber, hc]; rfl⟩

/-! ## Texts in quotes -/

/-- A code unit is no short escape. -/
theorem short?_u : short? 'u' = none := by decide

theorem Chars.unique {t t' : List Char} (h : Chars s t r) (h' : Chars s t' r') :
    t = t' ∧ r = r' := by
  induction h generalizing t' with
  | close =>
      cases h' with
      | close => exact ⟨rfl, rfl⟩
      | plain _ hquote _ _ => exact absurd rfl hquote
  | plain _ hquote hbackslash _ ih =>
      cases h' with
      | close => exact absurd rfl hquote
      | plain _ _ _ hrest =>
          obtain ⟨rfl, rfl⟩ := ih hrest
          exact ⟨rfl, rfl⟩
      | short _ _ | unit _ _ _ | pair _ _ _ _ _ _ _ => exact absurd rfl hbackslash
  | short hshort _ ih =>
      cases h' with
      | plain _ _ hbackslash _ => exact absurd rfl hbackslash
      | short hshort' hrest =>
          rw [hshort] at hshort'
          cases hshort'
          obtain ⟨rfl, rfl⟩ := ih hrest
          exact ⟨rfl, rfl⟩
      | unit _ _ _ | pair _ _ _ _ _ _ _ => cases short?_u.symm.trans hshort
  | unit hunit hplane _ ih =>
      cases h' with
      | plain _ _ hbackslash _ => exact absurd rfl hbackslash
      | short hshort _ => cases short?_u.symm.trans hshort
      | unit hunit' _ hrest =>
          rw [hunit] at hunit'
          cases hunit'
          obtain ⟨rfl, rfl⟩ := ih hrest
          exact ⟨rfl, rfl⟩
      | pair hunit' hlow hhigh _ _ _ _ =>
          rw [hunit] at hunit'
          cases hunit'
          omega
  | pair hhigh hge hlt hlow _ _ _ ih =>
      cases h' with
      | plain _ _ hbackslash _ => exact absurd rfl hbackslash
      | short hshort _ => cases short?_u.symm.trans hshort
      | unit hunit' hplane _ =>
          rw [hhigh] at hunit'
          cases hunit'
          omega
      | pair hhigh' _ _ hlow' _ _ hrest =>
          rw [hhigh] at hhigh'
          rw [hlow] at hlow'
          cases hhigh'
          cases hlow'
          obtain ⟨rfl, rfl⟩ := ih hrest
          exact ⟨rfl, rfl⟩

/-! ## Values -/

/-- Behind an item the text ends, or there is a comma or a closing bracket. -/
def Follows (r : List Char) : Prop := Lacks (fun c => !isDelimiter c) r

theorem follows_cons {c : Char} (hc : isDelimiter c = true) : Follows (c :: r) := by
  rw [Follows, lacks_cons, hc]
  rfl

theorem follows_of_head {c : Char} (h : r.head? = some c) (hc : isDelimiter c = true) :
    Follows r := by
  intro d hd
  cases h.symm.trans hd
  exact congrArg not hc

/-- Characters of a list pass no test that all of the list fail. -/
theorem fails_of_contains {chars : List Char} {test : Char → Bool}
    (h : chars.any test = false) : ∀ c, chars.contains c = true → test c = false := by
  intro c hc
  rw [List.contains_iff_mem] at hc
  exact Bool.eq_false_iff.mpr (List.any_eq_false.mp h c hc)

theorem Follows.lacks (h : Follows r) {test : Char → Bool}
    (htest : [',', ']', '}'].any test = false) : Lacks test r := by
  intro c hc
  have hdelimiter := h c hc
  rw [Bool.not_eq_false'] at hdelimiter
  exact fails_of_contains htest c hdelimiter

theorem Blanks.lacks_numeric (h : Blanks s r) (hr : Follows r) : Lacks isNumeric s := by
  cases h with
  | nil => exact hr.lacks rfl
  | cons hc _ => exact lacks_cons.mpr (fails_of_contains rfl _ hc)

theorem Number.not_starts {c : Char} {q : ℚ} (h : Number (c :: s) q r)
    (hc : opensNumber c = false) : False := by
  obtain ⟨d, t, heq, hd⟩ := h.starts
  cases heq
  rw [hc] at hd
  cases hd

theorem Spells.starts {v : Value} (h : Spells s v r) :
    ∃ c t, s = c :: t ∧ isBlank c = false ∧ isDelimiter c = false := by
  cases h with
  | num hnumber =>
      obtain ⟨c, t, rfl, hc⟩ := hnumber.starts
      refine ⟨c, t, rfl, ?_, ?_⟩
      · by_contra hblank
        rw [Bool.not_eq_false] at hblank
        exact hnumber.not_starts (fails_of_contains rfl c hblank)
      · by_contra hdelimiter
        rw [Bool.not_eq_false] at hdelimiter
        exact hnumber.not_starts (fails_of_contains rfl c hdelimiter)
  | _ => exact ⟨_, _, rfl, by decide, by decide⟩

theorem Item.not_blanks {v : Value} {c : Char} (h : Item s v r) (hc : isDelimiter c = true) :
    ¬ Blanks s (c :: r') := by
  intro hblanks
  cases h with
  | item hfront hvalue _ =>
      obtain ⟨d, t, rfl, hblank, hdelimiter⟩ := hvalue.starts
      have heq := hblanks.unique hfront ((follows_cons hc).lacks rfl)
        (lacks_cons.mpr hblank)
      cases heq
      rw [hc] at hdelimiter
      cases hdelimiter

theorem Items.not_blanks {vs : List Value} (h : Items s vs r) : ¬ Blanks s (']' :: r') := by
  cases h with
  | last h => exact h.not_blanks rfl
  | more h _ => exact h.not_blanks rfl

theorem Member.not_blanks {m : String × Value} (h : Member s m r) : ¬ Blanks s ('}' :: r') := by
  intro hblanks
  cases h with
  | member hfront _ _ _ =>
      have heq := hblanks.unique hfront (lacks_cons.mpr rfl) (lacks_cons.mpr rfl)
      cases heq

theorem Members.not_blanks {ms : List (String × Value)} (h : Members s ms r) :
    ¬ Blanks s ('}' :: r') := by
  cases h with
  | last h => exact h.not_blanks
  | more h _ => exact h.not_blanks

end Readings

mutual

/-- No text has two values at its front. -/
theorem Spells.unique : ∀ {s r r' : List Char} {v v' : Value}, Spells s v r → Spells s v' r' →
    Lacks isNumeric r → Lacks isNumeric r' → v = v' ∧ r = r'
  | _, _, _, _, _, .nullWord, h', _, _ => by
      cases h' with
      | nullWord => exact ⟨rfl, rfl⟩
      | num h => exact (h.not_starts rfl).elim
  | _, _, _, _, _, .trueWord, h', _, _ => by
      cases h' with
      | trueWord => exact ⟨rfl, rfl⟩
      | num h => exact (h.not_starts rfl).elim
  | _, _, _, _, _, .falseWord, h', _, _ => by
      cases h' with
      | falseWord => exact ⟨rfl, rfl⟩
      | num h => exact (h.not_starts rfl).elim
  | _, _, _, _, _, .num h, h', hr, hr' => by
      cases h' with
      | num h' =>
          obtain ⟨rfl, rfl⟩ := h.unique h' hr hr'
          exact ⟨rfl, rfl⟩
      | _ => exact (h.not_starts rfl).elim
  | _, _, _, _, _, .str h, h', _, _ => by
      cases h' with
      | str h' =>
          obtain ⟨rfl, rfl⟩ := h.unique h'
          exact ⟨rfl, rfl⟩
      | num h => exact (h.not_starts rfl).elim
  | _, _, _, _, _, .noItems h, h', _, _ => by
      cases h' with
      | num h => exact (h.not_starts rfl).elim
      | noItems h' =>
          cases h.unique h' (lacks_cons.mpr rfl) (lacks_cons.mpr rfl)
          exact ⟨rfl, rfl⟩
      | arr h' => exact (h'.not_blanks h).elim
  | _, _, _, _, _, .arr h, h', _, _ => by
      cases h' with
      | num h => exact (h.not_starts rfl).elim
      | noItems h' => exact (h.not_blanks h').elim
      | arr h' =>
          obtain ⟨rfl, hrest⟩ := h.unique h' rfl rfl
          cases hrest
          exact ⟨rfl, rfl⟩
  | _, _, _, _, _, .noMembers h, h', _, _ => by
      cases h' with
      | num h => exact (h.not_starts rfl).elim
      | noMembers h' =>
          cases h.unique h' (lacks_cons.mpr rfl) (lacks_cons.mpr rfl)
          exact ⟨rfl, rfl⟩
      | obj h' => exact (h'.not_blanks h).elim
  | _, _, _, _, _, .obj h, h', _, _ => by
      cases h' with
      | num h => exact (h.not_starts rfl).elim
      | noMembers h' => exact (h.not_blanks h').elim
      | obj h' =>
          obtain ⟨rfl, hrest⟩ := h.unique h' rfl rfl
          cases hrest
          exact ⟨rfl, rfl⟩

theorem Item.unique : ∀ {s r r' : List Char} {v v' : Value}, Item s v r → Item s v' r' →
    Follows r → Follows r' → v = v' ∧ r = r'
  | _, _, _, _, _, .item hfront hvalue hback, .item hfront' hvalue' hback', hr, hr' => by
      obtain ⟨_, _, hs, hblank, _⟩ := hvalue.starts
      obtain ⟨_, _, hs', hblank', _⟩ := hvalue'.starts
      cases hfront.unique hfront' (hs ▸ lacks_cons.mpr hblank) (hs' ▸ lacks_cons.mpr hblank')
      obtain ⟨rfl, rfl⟩ := hvalue.unique hvalue' (hback.lacks_numeric hr)
        (hback'.lacks_numeric hr')
      exact ⟨rfl, hback.unique hback' (hr.lacks rfl) (hr'.lacks rfl)⟩

theorem Items.unique : ∀ {s r r' : List Char} {vs vs' : List Value}, Items s vs r →
    Items s vs' r' → r.head? = some ']' → r'.head? = some ']' → vs = vs' ∧ r = r'
  | _, _, _, _, _, .last h, h', hr, hr' => by
      cases h' with
      | last h' =>
          obtain ⟨rfl, hrest⟩ := h.unique h' (follows_of_head hr rfl) (follows_of_head hr' rfl)
          exact ⟨rfl, hrest⟩
      | more h' _ =>
          obtain ⟨_, rfl⟩ := h.unique h' (follows_of_head hr rfl) (follows_cons rfl)
          cases hr
  | _, _, _, _, _, .more h hmore, h', hr, hr' => by
      cases h' with
      | last h' =>
          obtain ⟨_, rfl⟩ := h.unique h' (follows_cons rfl) (follows_of_head hr' rfl)
          cases hr'
      | more h' hmore' =>
          obtain ⟨rfl, hrest⟩ := h.unique h' (follows_cons rfl) (follows_cons rfl)
          cases hrest
          obtain ⟨rfl, hrest⟩ := hmore.unique hmore' hr hr'
          exact ⟨rfl, hrest⟩

theorem Member.unique : ∀ {s r r' : List Char} {m m' : String × Value}, Member s m r →
    Member s m' r' → Follows r → Follows r' → m = m' ∧ r = r'
  | _, _, _, _, _, .member hfront hname hcolon hitem, .member hfront' hname' hcolon' hitem',
      hr, hr' => by
      cases hfront.unique hfront' (lacks_cons.mpr rfl) (lacks_cons.mpr rfl)
      obtain ⟨rfl, rfl⟩ := hname.unique hname'
      cases hcolon.unique hcolon' (lacks_cons.mpr rfl) (lacks_cons.mpr rfl)
      obtain ⟨rfl, rfl⟩ := hitem.unique hitem' hr hr'
      exact ⟨rfl, rfl⟩

theorem Members.unique : ∀ {s r r' : List Char} {ms ms' : List (String × Value)},
    Members s ms r → Members s ms' r' → r.head? = some '}' → r'.head? = some '}' →
    ms = ms' ∧ r = r'
  | _, _, _, _, _, .last h, h', hr, hr' => by
      cases h' with
      | last h' =>
          obtain ⟨rfl, hrest⟩ := h.unique h' (follows_of_head hr rfl) (follows_of_head hr' rfl)
          exact ⟨rfl, hrest⟩
      | more h' _ =>
          obtain ⟨_, rfl⟩ := h.unique h' (follows_of_head hr rfl) (follows_cons rfl)
          cases hr
  | _, _, _, _, _, .more h hmore, h', hr, hr' => by
      cases h' with
      | last h' =>
          obtain ⟨_, rfl⟩ := h.unique h' (follows_cons rfl) (follows_of_head hr' rfl)
          cases hr'
      | more h' hmore' =>
          obtain ⟨rfl, hrest⟩ := h.unique h' (follows_cons rfl) (follows_cons rfl)
          cases hrest
          obtain ⟨rfl, hrest⟩ := hmore.unique hmore' hr hr'
          exact ⟨rfl, hrest⟩

end

/-- A document says one thing. -/
theorem Document.unique {text : String} {v w : Value} (h : Document text v)
    (h' : Document text w) : v = w :=
  (Item.unique h h' lacks_nil lacks_nil).1

end Packrat.JsonText
