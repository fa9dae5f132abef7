import Packrat.Proofs.Semantics.Decision
import Packrat.Proofs.Semantics.Words

/-!
# The leaves follow their rules

A leaf looks at the input and answers at once, so what it decides can be read off
its program. Some of them need an argument. A byte string is compared from the
front and left at the first byte that differs, and there is at most one such
place. A run of blanks ends at the first byte that is none, likewise. That shifting
bytes into a word makes the number of them is shown apart.
-/

namespace Packrat.Semantics

open Walk

variable {input : Array UInt8} {pos : Nat}

/-! ## One byte -/

/-- What a test of one byte answers. -/
def byteStep (input : Array UInt8) (check : UInt8 → Option Error.Kind) (pos : Nat) : Step :=
  match input[pos]? with
  | none => .failed ⟨.inputExhausted, pos⟩
  | some found =>
    match check found with
    | none => .matched (.byte found) (pos + 1)
    | some kind => .failed ⟨kind, pos⟩

theorem byteStep_exhausted {check : UInt8 → Option Error.Kind} (h : input.size ≤ pos) :
    byteStep input check pos = .failed ⟨.inputExhausted, pos⟩ := by
  rw [byteStep, Array.getElem?_eq_none h]

theorem byteStep_taken {check : UInt8 → Option Error.Kind} {b : UInt8}
    (hb : input[pos]? = some b) (hcheck : check b = none) :
    byteStep input check pos = .matched (.byte b) (pos + 1) := by
  rw [byteStep, hb]
  simp only [hcheck]

theorem byteStep_refused {check : UInt8 → Option Error.Kind} {b : UInt8} {kind : Error.Kind}
    (hb : input[pos]? = some b) (hcheck : check b = some kind) :
    byteStep input check pos = .failed ⟨kind, pos⟩ := by
  rw [byteStep, hb]
  simp only [hcheck]

/-- A test of one byte decides a relation with a rule for each of its three ends. -/
theorem decides_oneByte {check : UInt8 → Option Error.Kind} {P : Step → Prop}
    (hP : ∀ step, P step → step = byteStep input check pos)
    (hend : input.size ≤ pos → P (.failed ⟨.inputExhausted, pos⟩))
    (htaken : ∀ b, input[pos]? = some b → check b = none → P (.matched (.byte b) (pos + 1)))
    (hrefused : ∀ b kind, input[pos]? = some b → check b = some kind →
      P (.failed ⟨kind, pos⟩)) :
    Decides (oneByte input check pos) P := by
  have hrun : Decides (oneByte input check pos)
      (fun step => step = byteStep input check pos) := by
    unfold oneByte
    cases hb : input[pos]? with
    | none =>
        rw [byteStep_exhausted (Array.getElem?_eq_none_iff.mp hb)]
        exact Decides.fail _ _
    | some b =>
        cases hcheck : check b with
        | none =>
            rw [byteStep_taken hb hcheck]
            simp only [hcheck]
            exact Decides.pure _
        | some kind =>
            rw [byteStep_refused hb hcheck]
            simp only [hcheck]
            exact Decides.fail _ _
  refine hrun.congr fun step => ⟨?_, hP step⟩
  rintro rfl
  cases hb : input[pos]? with
  | none =>
      have hsize := Array.getElem?_eq_none_iff.mp hb
      rw [byteStep_exhausted hsize]
      exact hend hsize
  | some b =>
      cases hcheck : check b with
      | none => rw [byteStep_taken hb hcheck]; exact htaken b hb hcheck
      | some kind => rw [byteStep_refused hb hcheck]; exact hrefused b kind hb hcheck

theorem decides_literal {b : UInt8} :
    Decides (oneByte input (fun found =>
        if found = b then none else some (.literalMismatch b found)) pos)
      (Leaf input (.literal b) pos) := by
  refine decides_oneByte ?_ .literal_exhausted ?_ ?_
  · intro step h
    cases h with
    | literal hb => rw [byteStep_taken hb (if_pos rfl)]
    | literal_mismatch hfound hne => rw [byteStep_refused hfound (if_neg hne)]
    | literal_exhausted hsize => rw [byteStep_exhausted hsize]
  · intro found hfound hcheck
    split at hcheck
    · next heq => subst heq; exact .literal hfound
    · cases hcheck
  · intro found kind hfound hcheck
    split at hcheck
    · cases hcheck
    · next hne => cases hcheck; exact .literal_mismatch hfound hne

theorem decides_range {low high : UInt8} :
    Decides (oneByte input (fun found =>
        if low ≤ found ∧ found ≤ high then none else some (.rangeMismatch low high found)) pos)
      (Leaf input (.range low high) pos) := by
  refine decides_oneByte ?_ .range_exhausted ?_ ?_
  · intro step h
    cases h with
    | range hb hlow hhigh => rw [byteStep_taken hb (if_pos ⟨hlow, hhigh⟩)]
    | range_mismatch hfound hout =>
        rw [byteStep_refused hfound (if_neg (by grind))]
    | range_exhausted hsize => rw [byteStep_exhausted hsize]
  · intro found hfound hcheck
    split at hcheck
    · next hin => exact .range hfound hin.1 hin.2
    · cases hcheck
  · intro found kind hfound hcheck
    split at hcheck
    · cases hcheck
    · next hout => cases hcheck; exact .range_mismatch hfound (by grind)

theorem decides_set {members : ByteSet} :
    Decides (oneByte input (fun found =>
        if members.contains found then none else some (.setMismatch found)) pos)
      (Leaf input (.set members) pos) := by
  refine decides_oneByte ?_ .set_exhausted ?_ ?_
  · intro step h
    cases h with
    | set hb hmem => rw [byteStep_taken hb (if_pos hmem)]
    | set_mismatch hfound hout => rw [byteStep_refused hfound (if_neg (by simp [hout]))]
    | set_exhausted hsize => rw [byteStep_exhausted hsize]
  · intro found hfound hcheck
    split at hcheck
    · next hmem => exact .set hfound hmem
    · cases hcheck
  · intro found kind hfound hcheck
    split at hcheck
    · cases hcheck
    · next hout =>
        cases hcheck
        exact .set_mismatch hfound (Bool.eq_false_iff.mpr hout)

theorem decides_anyByte :
    Decides (oneByte input (fun _ => none) pos) (Leaf input .anyByte pos) := by
  refine decides_oneByte ?_ .anyByte_exhausted (fun _ hb _ => .anyByte hb) ?_
  · intro step h
    cases h with
    | anyByte hb => rw [byteStep_taken hb rfl]
    | anyByte_exhausted hsize => rw [byteStep_exhausted hsize]
  · intro found kind _ hcheck
    cases hcheck

/-! ## Byte strings -/

theorem Agrees.succ {expected : List UInt8} {i : Nat} (h : Agrees input expected pos i)
    (hi : input[pos + i]? = expected[i]?) : Agrees input expected pos (i + 1) := by
  intro j hj
  rcases Nat.lt_succ_iff_lt_or_eq.mp hj with hlt | rfl
  · exact h j hlt
  · exact hi

theorem Agrees.eq_of_differ {expected : List UInt8} {i j : Nat}
    (hi : Agrees input expected pos i) (hi' : input[pos + i]? ≠ expected[i]?)
    (hj : Agrees input expected pos j) (hj' : input[pos + j]? ≠ expected[j]?) : i = j := by
  rcases Nat.lt_trichotomy i j with hlt | heq | hgt
  · exact absurd (hj i hlt) hi'
  · exact heq
  · exact absurd (hi j hgt) hj'

/-- What comparing a byte string answers. -/
def bytesStep (input : Array UInt8) (expected : List UInt8) (pos : Nat) : Step :=
  match mismatch? input pos 0 expected with
  | none => .matched (.bytes expected) (pos + expected.length)
  | some failure => .failed failure

theorem leaf_of_mismatch? {expected : List UInt8} : ∀ {rest : List UInt8} {i : Nat},
    expected.drop i = rest → Agrees input expected pos i →
    match mismatch? input pos i rest with
    | none => Agrees input expected pos expected.length
    | some failure => Leaf input (.bytes expected) pos (.failed failure) := by
  intro rest
  induction rest with
  | nil =>
      intro i hrest h j hj
      exact h j (Nat.lt_of_lt_of_le hj (List.drop_eq_nil_iff.mp hrest))
  | cons b rest ih =>
      intro i hrest h
      have hlt : i < expected.length := by
        refine Nat.lt_of_not_le fun hle => ?_
        rw [List.drop_eq_nil_of_le hle] at hrest
        cases hrest
      rw [List.drop_eq_getElem_cons hlt] at hrest
      injection hrest with hb hrest
      have hb' : expected[i]? = some b := by rw [List.getElem?_eq_getElem hlt, hb]
      rw [mismatch?]
      cases hfound : input[pos + i]? with
      | none => exact .bytes_exhausted hlt h (Array.getElem?_eq_none_iff.mp hfound)
      | some found =>
          simp only []
          by_cases heq : found = b
          · rw [if_pos heq]
            exact ih hrest (h.succ (by rw [hfound, hb', heq]))
          · rw [if_neg heq]
            exact .bytes_mismatch hlt h hfound (by rw [hb']; simpa using fun h => heq h.symm)

theorem leaf_bytesStep {expected : List UInt8} :
    Leaf input (.bytes expected) pos (bytesStep input expected pos) := by
  have h := leaf_of_mismatch? (List.drop_zero) (fun i hi => absurd hi (Nat.not_lt_zero i)
    : Agrees input expected pos 0)
  unfold bytesStep
  cases hm : mismatch? input pos 0 expected with
  | none => rw [hm] at h; exact .bytes h
  | some failure => rw [hm] at h; exact h

theorem leaf_bytes_unique {expected : List UInt8} {step step' : Step}
    (h : Leaf input (.bytes expected) pos step) (h' : Leaf input (.bytes expected) pos step') :
    step = step' := by
  have hdiffer : ∀ {i found}, input[pos + i]? = some found → expected[i]? ≠ some found →
      input[pos + i]? ≠ expected[i]? := by
    intro i found hfound hne heq
    exact hne (heq ▸ hfound)
  have hends : ∀ {i}, i < expected.length → input.size ≤ pos + i →
      input[pos + i]? ≠ expected[i]? := by
    intro i hi hsize heq
    rw [Array.getElem?_eq_none hsize, List.getElem?_eq_getElem hi] at heq
    cases heq
  cases h with
  | bytes hall =>
      cases h' with
      | bytes => rfl
      | bytes_mismatch hi _ hfound hne => exact absurd (hall _ hi) (hdiffer hfound hne)
      | bytes_exhausted hi _ hsize => exact absurd (hall _ hi) (hends hi hsize)
  | bytes_mismatch hi hag hfound hne =>
      cases h' with
      | bytes hall => exact absurd (hall _ hi) (hdiffer hfound hne)
      | bytes_mismatch hi' hag' hfound' hne' =>
          rw [hag.eq_of_differ (hdiffer hfound hne) hag' (hdiffer hfound' hne')]
      | bytes_exhausted hi' hag' hsize =>
          have heq := hag.eq_of_differ (hdiffer hfound hne) hag' (hends hi' hsize)
          subst heq
          rw [Array.getElem?_eq_none hsize] at hfound
          cases hfound
  | bytes_exhausted hi hag hsize =>
      cases h' with
      | bytes hall => exact absurd (hall _ hi) (hends hi hsize)
      | bytes_mismatch hi' hag' hfound hne =>
          have heq := hag.eq_of_differ (hends hi hsize) hag' (hdiffer hfound hne)
          subst heq
          rw [Array.getElem?_eq_none hsize] at hfound
          cases hfound
      | bytes_exhausted hi' hag' hsize' =>
          rw [hag.eq_of_differ (hends hi hsize) hag' (hends hi' hsize')]

theorem decides_byteString {expected : List UInt8} :
    Decides (byteString input expected pos) (Leaf input (.bytes expected) pos) := by
  have hrun : Decides (byteString input expected pos)
      (fun step => step = bytesStep input expected pos) := by
    unfold byteString bytesStep
    cases mismatch? input pos 0 expected with
    | none => exact Decides.pure _
    | some failure => exact Decides.fail _ _
  refine hrun.congr fun step => ⟨?_, fun h => leaf_bytes_unique h leaf_bytesStep⟩
  rintro rfl
  exact leaf_bytesStep

/-! ## Integers and the end -/

theorem decides_unsigned {width : Nat} :
    Decides (integer input width false pos) (Leaf input (.unsigned width) pos) := by
  unfold integer
  refine (Decides.ite (fun _ => Decides.pure _) fun _ => Decides.fail _ _).congr fun step => ?_
  constructor
  · rintro (⟨hfits, rfl⟩ | ⟨hshort, rfl⟩)
    · simp only [bigEndian_slice hfits]
      exact .unsigned hfits
    · exact .unsigned_exhausted (Nat.lt_of_not_le hshort)
  · intro h
    cases h with
    | unsigned hfits =>
        rw [← bigEndian_slice hfits]
        exact .inl ⟨hfits, rfl⟩
    | unsigned_exhausted hshort => exact .inr ⟨Nat.not_le.mpr hshort, rfl⟩

theorem decides_signed {width : Nat} :
    Decides (integer input width true pos) (Leaf input (.signed width) pos) := by
  unfold integer
  refine (Decides.ite (fun _ => Decides.pure _) fun _ => Decides.fail _ _).congr fun step => ?_
  constructor
  · rintro (⟨hfits, rfl⟩ | ⟨hshort, rfl⟩)
    · simp only [signExtend_slice hfits]
      exact .signed hfits
    · exact .signed_exhausted (Nat.lt_of_not_le hshort)
  · intro h
    cases h with
    | signed hfits =>
        rw [← signExtend_slice hfits]
        exact .inl ⟨hfits, rfl⟩
    | signed_exhausted hshort => exact .inr ⟨Nat.not_le.mpr hshort, rfl⟩

theorem decides_endOfInput :
    Decides (if pos = input.size then pure (.matched .none pos)
      else fail (.trailingInput (input.size - pos)) pos) (Leaf input .endOfInput pos) := by
  refine (Decides.ite (fun _ => Decides.pure _) fun _ => Decides.fail _ _).congr fun step => ?_
  constructor
  · rintro (⟨rfl, rfl⟩ | ⟨hne, rfl⟩)
    · exact .endOfInput
    · exact .endOfInput_trailing hne
  · intro h
    cases h with
    | endOfInput => exact .inl ⟨rfl, rfl⟩
    | endOfInput_trailing hne => exact .inr ⟨hne, rfl⟩

theorem decides_epsilon : Decides (pure (.matched .none pos)) (Leaf input .epsilon pos) := by
  refine (Decides.pure _).congr fun step => ?_
  constructor
  · rintro rfl
    exact .epsilon
  · intro hleaf
    cases hleaf
    rfl

theorem decides_nothing : Decides (fail .noMatch pos) (Leaf input .nothing pos) := by
  refine (Decides.fail _ _).congr fun step => ?_
  constructor
  · rintro rfl
    exact .nothing
  · intro hleaf
    cases hleaf
    rfl

/-! ## Blanks -/

theorem slice_rest (input : Array UInt8) (pos : Nat) :
    slice input pos (input.size - pos) = input.toList.drop pos := by
  simp only [slice, Array.toList_extract, List.extract, Nat.add_sub_cancel_left]
  exact List.take_of_length_le (by simp)

/-- The longest run of elements that pass a test, place by place. -/
theorem takeWhile_run {α : Type} (test : α → Bool) (l : List α) :
    (∀ i < (l.takeWhile test).length, ∃ a, l[i]? = some a ∧ test a = true) ∧
      ∀ a, l[(l.takeWhile test).length]? = some a → test a = false := by
  induction l with
  | nil => simp
  | cons first rest ih =>
      cases hfirst : test first with
      | false => simp [List.takeWhile, hfirst]
      | true =>
          simp only [List.takeWhile, hfirst, List.length_cons, List.getElem?_cons_succ]
          refine ⟨fun i hi => ?_, ih.2⟩
          cases i with
          | zero => exact ⟨first, rfl, hfirst⟩
          | succ i => exact ih.1 i (by omega)

theorem blankRun_blanks : BlankRun input pos (pos + blanks input pos) := by
  have hget : ∀ i, input[pos + i]? = (input.toList.drop pos)[i]? := by
    intro i
    rw [List.getElem?_drop, Array.getElem?_toList]
  obtain ⟨hblank, hends⟩ := takeWhile_run Text.isBlankByte (input.toList.drop pos)
  unfold blanks
  rw [slice_rest]
  refine ⟨Nat.le_add_right _ _, fun i hlo hhi => ?_, fun b hb => ?_⟩
  · obtain ⟨k, rfl⟩ : ∃ k, i = pos + k := ⟨i - pos, by omega⟩
    rw [hget]
    exact hblank k (by omega)
  · rw [hget] at hb
    exact hends b hb

theorem BlankRun.unique {start start' : Nat} (h : BlankRun input pos start)
    (h' : BlankRun input pos start') : start = start' := by
  rcases Nat.lt_trichotomy start start' with hlt | heq | hgt
  · obtain ⟨b, hb, hblank⟩ := h'.blank start h.le hlt
    rw [h.ends b hb] at hblank
    cases hblank
  · exact heq
  · obtain ⟨b, hb, hblank⟩ := h.blank start' h'.le hgt
    rw [h'.ends b hb] at hblank
    cases hblank

end Packrat.Semantics
