import Packrat.Proofs.Grammar.Decimal
import Packrat.Proofs.Semantics.Inversion

/-!
# Decimal nodes

What the nodes of a decimal number match in any grammar that has them: a run of
digits with no digit behind it, whose number fits the word that the token holds.
The run is as long as it can be, so what is behind it matters, and a format that
puts a letter there loses that condition again.
-/

namespace Packrat.Semantics

open Decimal

variable {g : Grammar} {input : Array UInt8} {pos stop n : Nat} {token : Token}

/-! ## Digits -/

/-- A node for one digit and the node for a run of them. -/
structure DigitNodes (g : Grammar) (digit run : NodeId) : Prop where
  digit_eq : g.node? digit = some (.range 0x30 0x39)
  run_eq : g.node? run = some (.repeated digit 1 none)

section Digits

variable {digit run : NodeId}

theorem DigitNodes.needs (h : DigitNodes g digit run) : Needs g digit 1 run :=
  .through h.run_eq rfl .self

theorem strung_digits_iff {ds part : List UInt8} :
    Strung (fun b part => isDigit b = true ∧ part = [b]) ds part ↔
      part = ds ∧ ∀ b ∈ ds, isDigit b = true := by
  constructor
  · intro h
    induction h with
    | nil => exact ⟨rfl, nofun⟩
    | cons hb _ ih =>
        obtain ⟨hdigit, rfl⟩ := hb
        obtain ⟨rfl, hrest⟩ := ih
        exact ⟨rfl, List.forall_mem_cons.mpr ⟨hdigit, hrest⟩⟩
  · rintro ⟨rfl, hdigits⟩
    induction part with
    | nil => exact .nil
    | cons b part ih =>
        obtain ⟨hdigit, hrest⟩ := List.forall_mem_cons.mp hdigits
        show Strung _ (b :: part) ([b] ++ part)
        exact .cons ⟨hdigit, rfl⟩ (ih hrest)

theorem digit_matched_iff (h : DigitNodes g digit run) :
    YieldsWithin g input (n + 1) digit pos (.matched token stop) ↔
      ∃ b part, (isDigit b = true ∧ part = [b]) ∧ token = .byte b ∧
        Reads input pos part stop := by
  rw [range_matched_iff h.digit_eq]
  constructor
  · rintro ⟨b, hb, htoken, hreads⟩
    exact ⟨b, [b], ⟨by simpa [isDigit] using hb, rfl⟩, htoken, hreads⟩
  · rintro ⟨b, _, ⟨hb, rfl⟩, htoken, hreads⟩
    exact ⟨b, by simpa [isDigit] using hb, htoken, hreads⟩

theorem digits_matched_iff (h : DigitNodes g digit run) :
    YieldsWithin g input n run pos (.matched token stop) ↔
      2 ≤ n ∧ ∃ ds, Numeral ds ∧ token = .seq (ds.map .byte) ∧ Reads input pos ds stop ∧
        EndsAt input isDigit stop := by
  have hrounds : ∀ {m : Nat} {tokens : List Token},
      Rounds (YieldsWithin g input (m + 1)) digit 1 none 0 pos tokens stop ↔ _ :=
    rounds_iff (fun b part hb => by simp [hb.2]) fun _ _ _ => digit_matched_iff h
  constructor
  · intro hmatched
    have hlevels := h.needs.lt hmatched
    obtain ⟨m, rfl⟩ : ∃ m, n = m + 2 := ⟨n - 2, by omega⟩
    obtain ⟨tokens, hrun, hlength, rfl⟩ := (many_matched_iff h.run_eq).mp hmatched
    obtain ⟨ds, part, hstrung, rfl, hreads, hfails⟩ := hrounds.mp hrun
    obtain ⟨rfl, hdigits⟩ := strung_digits_iff.mp hstrung
    have hne : part ≠ [] := by
      intro hnil
      rw [hnil] at hlength
      simp at hlength
    exact ⟨by omega, part, ⟨hne, hdigits⟩, rfl, hreads, (range_fails_iff h.digit_eq).mp hfails⟩
  · rintro ⟨hlevels, ds, hnumeral, rfl, hreads, hends⟩
    obtain ⟨m, rfl⟩ : ∃ m, n = m + 2 := ⟨n - 2, by omega⟩
    refine (many_matched_iff h.run_eq).mpr ⟨ds.map .byte, hrounds.mpr ?_, ?_, rfl⟩
    · exact ⟨ds, ds, strung_digits_iff.mpr ⟨rfl, hnumeral.digits⟩, rfl, hreads,
        (range_fails_iff h.digit_eq).mpr hends⟩
    · rw [List.length_map]
      exact List.length_pos_iff.mpr hnumeral.ne_nil

/-- Without a digit in front there is no number, whatever is made of it. -/
theorem fails_of_needs_digit {id : NodeId} {k : Nat} (h : DigitNodes g digit run)
    (hneeds : Needs g digit k id) (hlevels : k < n) (hends : EndsAt input isDigit pos) :
    ∃ failure, YieldsWithin g input n id pos (.failed failure) := by
  obtain ⟨m, rfl⟩ : ∃ m, n = m + 1 + k := ⟨n - k - 1, by omega⟩
  exact hneeds.fails ((range_fails_iff h.digit_eq).mpr hends)

/-! ## Unsigned numbers -/

theorem uint_matched_iff {uint : NodeId} (h : DigitNodes g digit run)
    (huint : g.node? uint = some (.action run ⟨"decimal-uint", uintOfDigits⟩)) :
    YieldsWithin g input n uint pos (.matched token stop) ↔
      3 ≤ n ∧ ∃ ds, Numeral ds ∧ number ds < UInt64.size ∧
        token = .uint (UInt64.ofNat (number ds)) ∧ Reads input pos ds stop ∧
        EndsAt input isDigit stop := by
  constructor
  · intro hmatched
    obtain ⟨m, rfl⟩ := hmatched.exists_pred
    obtain ⟨raw, hraw, hresult⟩ := (action_matched_iff huint).mp hmatched
    obtain ⟨hlevels, ds, hnumeral, rfl, hreads, hends⟩ := (digits_matched_iff h).mp hraw
    change uintOfDigits (.seq (ds.map .byte)) = some token at hresult
    rw [uintOfDigits_eq hnumeral] at hresult
    split at hresult
    · next hfits =>
        cases hresult
        exact ⟨by omega, ds, hnumeral, hfits, rfl, hreads, hends⟩
    · cases hresult
  · rintro ⟨hlevels, ds, hnumeral, hfits, rfl, hreads, hends⟩
    obtain ⟨m, rfl⟩ : ∃ m, n = m + 1 := ⟨n - 1, by omega⟩
    have hrun : YieldsWithin g input m run pos (.matched (.seq (ds.map .byte)) stop) :=
      (digits_matched_iff h).mpr ⟨by omega, ds, hnumeral, rfl, hreads, hends⟩
    exact (action_matched_iff huint).mpr
      ⟨_, hrun, (uintOfDigits_eq hnumeral).trans (if_pos hfits)⟩

end Digits

/-! ## Signed numbers -/

/-- The nodes of a signed number. -/
structure SignedNodes (g : Grammar) (digit run minus sign parts sint : NodeId) : Prop
    extends DigitNodes g digit run where
  minus_eq : g.node? minus = some (.literal 0x2d)
  sign_eq : g.node? sign = some (.optional minus)
  parts_eq : g.node? parts = some (.sequence [sign, run])
  sint_eq : g.node? sint = some (.action parts ⟨"decimal-sint", sintOfParts⟩)

/-- The token of the sign in front of a number. -/
def minusToken (negative : Bool) : Token := if negative then .byte 0x2d else .none

section Signed

variable {digit run minus sign parts sint : NodeId}

/-- A minus is read if there is one. -/
theorem sign_matched_iff (h : SignedNodes g digit run minus sign parts sint) :
    YieldsWithin g input (n + 2) sign pos (.matched token stop) ↔
      ∃ negative, token = minusToken negative ∧ Reads input pos (minusSign negative) stop ∧
        (negative = false →
          ∃ failure, YieldsWithin g input (n + 1) minus pos (.failed failure)) := by
  rw [optional_matched_iff h.sign_eq, literal_matched_iff h.minus_eq]
  constructor
  · rintro (⟨rfl, hreads⟩ | ⟨hfails, rfl, rfl⟩)
    · exact ⟨true, rfl, hreads, nofun⟩
    · exact ⟨false, rfl, .nil, fun _ => hfails⟩
  · rintro ⟨negative, rfl, hreads, hfails⟩
    cases negative with
    | true => exact .inl ⟨rfl, hreads⟩
    | false => exact .inr ⟨hfails rfl, rfl, hreads.eq_of_nil⟩

theorem not_isNone_minusToken (negative : Bool) :
    (!(minusToken negative).isNone) = negative := by
  cases negative with
  | true => rfl
  | false => rfl

/-- A numeral does not begin with a minus. -/
theorem endsAt_minus_of_numeral {ds : List UInt8} (h : Numeral ds)
    (hreads : Reads input pos ds stop) : EndsAt input (· == 0x2d) pos := by
  cases ds with
  | nil => exact absurd rfl h.ne_nil
  | cons b ds =>
      have hb := h.digits b List.mem_cons_self
      have hne : b ≠ 0x2d := by
        rintro rfl
        exact absurd hb (by decide)
      exact EndsAt.of_head hreads.head (by simpa using hne)

theorem sint_matched_iff (h : SignedNodes g digit run minus sign parts sint) :
    YieldsWithin g input n sint pos (.matched token stop) ↔
      4 ≤ n ∧ ∃ negative ds, ∃ value : Int64, Numeral ds ∧
        value.toInt = signedNumber negative ds ∧ token = .sint value ∧
        Reads input pos (minusSign negative ++ ds) stop ∧ EndsAt input isDigit stop := by
  constructor
  · intro hmatched
    obtain ⟨m, rfl⟩ := hmatched.exists_pred
    obtain ⟨raw, hraw, hresult⟩ := (action_matched_iff h.sint_eq).mp hmatched
    obtain ⟨k, rfl⟩ := hraw.exists_pred
    obtain ⟨tokens, hmembers, rfl⟩ := (sequence_matched_iff h.parts_eq).mp hraw
    simp only [members_cons_iff, members_nil_iff] at hmembers
    obtain ⟨signToken, mid, _, hsign, ⟨runToken, _, _, hrun, ⟨rfl, rfl⟩, rfl⟩, rfl⟩ := hmembers
    obtain ⟨hlevels, ds, hnumeral, rfl, hreads, hends⟩ :=
      (digits_matched_iff h.toDigitNodes).mp hrun
    obtain ⟨j, rfl⟩ : ∃ j, k = j + 2 := ⟨k - 2, by omega⟩
    obtain ⟨negative, rfl, hreads', _⟩ := (sign_matched_iff h).mp hsign
    obtain ⟨value, hvalue, rfl⟩ := (sintOfParts_eq_some_iff hnumeral).mp hresult
    rw [not_isNone_minusToken] at hvalue
    exact ⟨by omega, negative, ds, value, hnumeral, hvalue, rfl, hreads'.append hreads, hends⟩
  · rintro ⟨hlevels, negative, ds, value, hnumeral, hvalue, rfl, hreads, hends⟩
    obtain ⟨j, rfl⟩ : ∃ j, n = j + 4 := ⟨n - 4, by omega⟩
    obtain ⟨mid, hsign, hrun⟩ := hreads.split
    have hplain : negative = false →
        ∃ failure, YieldsWithin g input (j + 1) minus pos (.failed failure) := by
      intro hnegative
      cases hnegative
      cases hsign.eq_of_nil
      exact literal_fails h.minus_eq (endsAt_minus_of_numeral hnumeral hrun)
    have hresult : sintOfParts (.seq [minusToken negative, .seq (ds.map .byte)]) =
        some (.sint value) := by
      refine (sintOfParts_eq_some_iff hnumeral).mpr ⟨value, ?_, rfl⟩
      rw [not_isNone_minusToken]
      exact hvalue
    have hsignStep : YieldsWithin g input (j + 2) sign pos
        (.matched (minusToken negative) mid) :=
      (sign_matched_iff h).mpr ⟨negative, rfl, hsign, hplain⟩
    have hrunStep : YieldsWithin g input (j + 2) run mid
        (.matched (.seq (ds.map .byte)) stop) :=
      (digits_matched_iff h.toDigitNodes).mpr ⟨by omega, ds, hnumeral, rfl, hrun, hends⟩
    have hparts : YieldsWithin g input (j + 3) parts pos
        (.matched (.seq [minusToken negative, .seq (ds.map .byte)]) stop) :=
      (sequence_matched_iff h.parts_eq).mpr ⟨_, .cons hsignStep (.cons hrunStep .nil), rfl⟩
    exact (action_matched_iff h.sint_eq).mpr ⟨_, hparts, hresult⟩

end Signed

end Packrat.Semantics
