import Mathlib.Data.List.Basic
import Mathlib.Data.List.Induction
import Packrat.Proofs.Bencode.RoundTrip

/-!
# Decoding and encoding again

A document writes its numbers as it likes: `i007e` and `i7e` are the same integer,
and so are `i-0e` and `i0e`, and a length may have zeros in front. A value keeps
the number and not the digits. So encoding what was decoded gives the document
back only if it wrote every number in the shortest way, and these documents are
the canonical ones.

`Canonical` says that without encoding anything, by the shape of the text alone.
That it is the same as being written by `encode` is an induction in each
direction, with one fact about digits behind both: digits that do not begin with a
zero are the digits that are written for their number.
-/

namespace Packrat

namespace Decimal

/-- Digits with no zero in front, unless they are a lone zero. -/
structure Shortest (ds : List UInt8) : Prop where
  numeral : Numeral ds
  eq_zero_of_head : ds.head? = some 0x30 → ds = [0x30]

end Decimal

namespace Bencode

open Decimal

/-! ## Canonical documents -/

/-- The documents of byte strings that write the length in the shortest way. -/
inductive CanonicalText : List UInt8 → Prop where
  | text {ds payload : List UInt8} : Shortest ds → number ds = payload.length →
      CanonicalText (ds ++ 0x3a :: payload)

mutual

/-- The documents that write every number in the shortest way. -/
inductive Canonical : List UInt8 → Prop where
  | int {n : Int64} {negative : Bool} {ds : List UInt8} : Shortest ds →
      n.toInt = signedNumber negative ds → (negative = true → number ds ≠ 0) →
      Canonical (0x69 :: (minusSign negative ++ ds ++ [0x65]))
  | bytes {doc : List UInt8} : CanonicalText doc → Canonical doc
  | list {body : List UInt8} : CanonicalItems body → Canonical (0x6c :: (body ++ [0x65]))
  | dict {body : List UInt8} : CanonicalEntries body → Canonical (0x64 :: (body ++ [0x65]))

/-- Canonical documents in a row. -/
inductive CanonicalItems : List UInt8 → Prop where
  | nil : CanonicalItems []
  | cons {doc rest : List UInt8} : Canonical doc → CanonicalItems rest →
      CanonicalItems (doc ++ rest)

/-- Canonical entries in a row. -/
inductive CanonicalEntries : List UInt8 → Prop where
  | nil : CanonicalEntries []
  | cons {keyDoc doc rest : List UInt8} : CanonicalText keyDoc → Canonical doc →
      CanonicalEntries rest → CanonicalEntries (keyDoc ++ doc ++ rest)

end

/-! ## Digits -/

theorem toNat_digit {b : UInt8} (hb : isDigit b = true) : 0x30 ≤ b.toNat ∧ b.toNat ≤ 0x39 := by
  simp only [isDigit, Bool.and_eq_true, decide_eq_true_eq, UInt8.le_iff_toNat_le] at hb
  exact hb

theorem digitByte_toNat {b : UInt8} (hb : isDigit b = true) :
    digitByte (b.toNat - 0x30) = b := by
  have hbounds := toNat_digit hb
  obtain ⟨hdigit, hvalue⟩ := digitByte_spells (b.toNat - 0x30) (by omega)
  have hbounds' := toNat_digit hdigit
  apply UInt8.toNat_inj.mp
  omega

theorem number_singleton (b : UInt8) : number [b] = b.toNat - 0x30 := by
  rw [← List.nil_append [b], number_append]
  exact Nat.zero_add _

/-- The digits without the last one. -/
theorem numeral_init {ds : List UInt8} {b : UInt8} (h : Numeral (ds ++ [b])) (hds : ds ≠ []) :
    Numeral ds :=
  ⟨hds, fun c hc => h.digits c (List.mem_append_left _ hc)⟩

/-- Digits without a zero in front are written for their number. -/
theorem decimalNat_number {ds : List UInt8} (h : Shortest ds) : decimalNat (number ds) = ds := by
  induction ds using List.reverseRecOn with
  | nil => exact absurd rfl h.numeral.ne_nil
  | append_singleton ds b ih =>
      have hb : isDigit b = true := h.numeral.digits b (by simp)
      have hbounds := toNat_digit hb
      by_cases hds : ds = []
      · subst hds
        rw [List.nil_append, number_singleton, decimalNat_of_lt (by omega), digitByte_toNat hb]
      · have hlong : ds ++ [b] ≠ [0x30] := by
          intro heq
          have hlen := congrArg List.length heq
          simp at hlen
          exact hds hlen
        have hhead : ds.head? ≠ some 0x30 := by
          intro heq
          exact hlong (h.eq_zero_of_head (by rw [List.head?_append_of_ne_nil ds hds, heq]))
        have hwritten : decimalNat (number ds) = ds :=
          ih ⟨numeral_init h.numeral hds, fun heq => absurd heq hhead⟩
        -- zero would have been written as a digit that may not stand in front
        have hpos : number ds ≠ 0 := by
          intro hzero
          rw [hzero, show decimalNat 0 = [0x30] from rfl] at hwritten
          exact hhead (by rw [← hwritten]; rfl)
        rw [number_append, decimalNat_of_le (by omega)]
        rw [show (number ds * 10 + (b.toNat - 0x30)) / 10 = number ds by omega,
          show (number ds * 10 + (b.toNat - 0x30)) % 10 = b.toNat - 0x30 by omega,
          hwritten, digitByte_toNat hb]

theorem shortest_decimalNat (n : Nat) : Shortest (decimalNat n) := by
  refine ⟨(decimalNat_spells n).1, ?_⟩
  induction n using Nat.strongRecOn with
  | _ n ih =>
      by_cases hlt : n < 10
      · rw [decimalNat_of_lt hlt]
        intro hhead
        simp only [List.head?_cons, Option.some.injEq] at hhead
        rw [hhead]
      · have hne := (decimalNat_spells (n / 10)).1.ne_nil
        rw [decimalNat_of_le (by omega), List.head?_append_of_ne_nil _ hne]
        intro hhead
        have hzero := (decimalNat_spells (n / 10)).2
        rw [ih (n / 10) (by omega) hhead, show number [0x30] = 0 from rfl] at hzero
        omega

/-- No digits for a number are fewer than the ones that are written. -/
theorem length_decimalNat_le {ds : List UInt8} (h : Numeral ds) :
    (decimalNat (number ds)).length ≤ ds.length := by
  induction ds using List.reverseRecOn with
  | nil => exact absurd rfl h.ne_nil
  | append_singleton ds b ih =>
      have hbounds := toNat_digit (h.digits b (by simp))
      rw [List.length_append, List.length_singleton]
      by_cases hlt : number (ds ++ [b]) < 10
      · rw [decimalNat_of_lt hlt, List.length_singleton]
        omega
      · have hds : ds ≠ [] := by
          rintro rfl
          rw [List.nil_append, number_singleton] at hlt
          omega
        have hinit := ih (numeral_init h hds)
        rw [decimalNat_of_le (by omega), number_append,
          show (number ds * 10 + (b.toNat - 0x30)) / 10 = number ds by omega]
        simp only [List.length_append, List.length_singleton]
        omega

/-! ## What is written is canonical -/

theorem canonicalText_encodeBytes (payload : List UInt8) :
    CanonicalText (encodeBytes payload) :=
  .text (shortest_decimalNat _) (decimalNat_spells payload.length).2

theorem canonical_encode_int (n : Int64) : Canonical (encode (.int n)) := by
  rw [encode, decimalInt_eq]
  refine .int (shortest_decimalNat _) (signedNumber_decimalNat n.toInt).symm ?_
  intro hneg
  rw [(decimalNat_spells n.toInt.natAbs).2]
  simp only [decide_eq_true_eq] at hneg
  omega

mutual

/-- What a value is written as is canonical. -/
theorem canonical_encode : ∀ v : Bencode, Canonical (encode v)
  | .int n => canonical_encode_int n
  | .bytes payload => by
      rw [encode]
      exact .bytes (canonicalText_encodeBytes payload)
  | .list items => by
      rw [encode]
      exact .list (canonical_encodeItems items)
  | .dict entries => by
      rw [encode]
      exact .dict (canonical_encodeEntries entries)

theorem canonical_encodeItems : ∀ items : List Bencode, CanonicalItems (encodeItems items)
  | [] => by
      rw [encodeItems]
      exact .nil
  | v :: items => by
      rw [encodeItems]
      exact .cons (canonical_encode v) (canonical_encodeItems items)

theorem canonical_encodeEntries :
    ∀ entries : List (List UInt8 × Bencode), CanonicalEntries (encodeEntries entries)
  | [] => by
      rw [encodeEntries]
      exact .nil
  | (key, v) :: entries => by
      rw [encodeEntries]
      exact .cons (canonicalText_encodeBytes key) (canonical_encode v)
        (canonical_encodeEntries entries)

end

/-! ## Canonical documents are written -/

theorem CanonicalText.written {doc : List UInt8} (h : CanonicalText doc) :
    ∃ payload, encodeBytes payload = doc := by
  cases h with
  | @text ds payload hds hnumber =>
      refine ⟨payload, ?_⟩
      rw [encodeBytes, ← hnumber, decimalNat_number hds]

theorem natAbs_signedNumber (negative : Bool) (ds : List UInt8) :
    (signedNumber negative ds).natAbs = number ds := by
  cases negative <;> simp [signedNumber]

theorem decimalInt_signedNumber {negative : Bool} {ds : List UInt8} (h : Shortest ds)
    (hzero : negative = true → number ds ≠ 0) :
    decimalInt (signedNumber negative ds) = minusSign negative ++ ds := by
  have hsign : decide (signedNumber negative ds < 0) = negative := by
    cases negative with
    | false => simp [signedNumber]
    | true =>
        have hpos := hzero rfl
        simp only [signedNumber, if_true, decide_eq_true_eq]
        omega
  rw [decimalInt_eq, hsign, natAbs_signedNumber, decimalNat_number h]

mutual

/-- A canonical document is what some value is written as. -/
theorem Canonical.written : ∀ {doc : List UInt8}, Canonical doc → ∃ v, encode v = doc
  | _, @Canonical.int n negative ds hds hvalue hzero => by
      refine ⟨.int n, ?_⟩
      rw [encode, hvalue, decimalInt_signedNumber hds hzero]
  | _, .bytes htext => by
      obtain ⟨payload, hpayload⟩ := htext.written
      exact ⟨.bytes payload, by rw [encode, hpayload]⟩
  | _, .list hbody => by
      obtain ⟨items, hitems⟩ := hbody.written
      exact ⟨.list items, by rw [encode, hitems]⟩
  | _, .dict hbody => by
      obtain ⟨entries, hentries⟩ := hbody.written
      exact ⟨.dict entries, by rw [encode, hentries]⟩

theorem CanonicalItems.written :
    ∀ {body : List UInt8}, CanonicalItems body → ∃ items, encodeItems items = body
  | _, .nil => ⟨[], by rw [encodeItems]⟩
  | _, .cons hdoc hrest => by
      obtain ⟨v, hv⟩ := hdoc.written
      obtain ⟨items, hitems⟩ := hrest.written
      exact ⟨v :: items, by rw [encodeItems, hv, hitems]⟩

theorem CanonicalEntries.written :
    ∀ {body : List UInt8}, CanonicalEntries body → ∃ entries, encodeEntries entries = body
  | _, .nil => ⟨[], by rw [encodeEntries]⟩
  | _, .cons hkey hdoc hrest => by
      obtain ⟨key, hkey⟩ := hkey.written
      obtain ⟨v, hv⟩ := hdoc.written
      obtain ⟨entries, hentries⟩ := hrest.written
      exact ⟨(key, v) :: entries, by rw [encodeEntries, hkey, hv, hentries]⟩

end

/-! ## Nothing is shorter -/

theorem Text.length_encodeBytes_le {payload doc : List UInt8} (h : Text payload doc) :
    (encodeBytes payload).length ≤ doc.length := by
  cases h with
  | text hds hnumber =>
      have hle := length_decimalNat_le hds
      rw [hnumber] at hle
      simp only [encodeBytes, List.length_append]
      omega

theorem length_encode_int_le {n : Int64} {negative : Bool} {ds : List UInt8} (hds : Numeral ds)
    (hvalue : n.toInt = signedNumber negative ds) :
    (encode (.int n)).length ≤ (0x69 :: (minusSign negative ++ ds ++ [0x65])).length := by
  have hle := length_decimalNat_le hds
  have hsign : (minusSign (decide (n.toInt < 0))).length ≤ (minusSign negative).length := by
    cases negative with
    | true => cases decide (n.toInt < 0) <;> decide
    | false =>
        have hnonneg : 0 ≤ n.toInt := by
          rw [hvalue]
          exact Int.natCast_nonneg _
        exact Nat.le_of_eq (by rw [decide_eq_false (Int.not_lt_of_ge hnonneg)])
  rw [encode, decimalInt_eq, hvalue, natAbs_signedNumber, ← hvalue]
  simp only [List.length_cons, List.length_append, List.length_nil]
  omega

mutual

/-- No document of a value is shorter than the one that is written. -/
theorem Document.length_encode_le : ∀ {v : Bencode} {doc : List UInt8}, Document v doc →
    (encode v).length ≤ doc.length
  | _, _, .int hds hvalue => length_encode_int_le hds hvalue
  | _, _, .bytes htext => by
      rw [encode]
      exact htext.length_encodeBytes_le
  | _, _, .list hbody => by
      have hle := hbody.length_encodeItems_le
      rw [encode]
      simp only [List.length_cons, List.length_append]
      omega
  | _, _, .dict hbody => by
      have hle := hbody.length_encodeEntries_le
      rw [encode]
      simp only [List.length_cons, List.length_append]
      omega

theorem Documents.length_encodeItems_le : ∀ {items : List Bencode} {body : List UInt8},
    Documents items body → (encodeItems items).length ≤ body.length
  | _, _, .nil => Nat.le_refl _
  | _, _, .cons hdoc hrest => by
      have hle := hdoc.length_encode_le
      have hle' := hrest.length_encodeItems_le
      rw [encodeItems]
      simp only [List.length_append]
      omega

theorem Entries.length_encodeEntries_le :
    ∀ {entries : List (List UInt8 × Bencode)} {body : List UInt8}, Entries entries body →
      (encodeEntries entries).length ≤ body.length
  | _, _, .nil => Nat.le_refl _
  | _, _, .cons hkey hdoc hrest => by
      have hle := hkey.length_encodeBytes_le
      have hle' := hdoc.length_encode_le
      have hle'' := hrest.length_encodeEntries_le
      rw [encodeEntries]
      simp only [List.length_append]
      omega

end

/-! ## Documents again -/

/-- Encoding what was decoded gives the document back if and only if the document
is canonical. In any case what is encoded decodes to the same value again. A
document is a byte string in memory, so its length is a 64-bit number. -/
theorem encode_decode_iff {doc : List UInt8} {v : Bencode} (hsize : doc.length < UInt64.size)
    (h : decode doc = .ok v) :
    (encode v = doc ↔ Canonical doc) ∧ decode (encode v) = .ok v := by
  obtain ⟨hdoc, hcost⟩ := document_of_decode h hsize
  have hle := hdoc.length_encode_le
  refine ⟨⟨?_, ?_⟩, decode_of_document (document_encode v) (by omega) hcost⟩
  · intro heq
    rw [← heq]
    exact canonical_encode v
  · intro hcanonical
    obtain ⟨w, hw⟩ := hcanonical.written
    have hdoc' : Document w doc := by
      rw [← hw]
      exact document_encode w
    rw [hdoc.value_unique hdoc' hsize, hw]

/-- A minus in front of zero and a zero in front of a length, in a dictionary. -/
theorem encode_decode_iff_padded :
    decode [0x64, 0x30, 0x31, 0x3a, 0x6b, 0x69, 0x2d, 0x30, 0x65, 0x65] =
        .ok (.dict [([0x6b], .int 0)]) ∧
      ¬ Canonical [0x64, 0x30, 0x31, 0x3a, 0x6b, 0x69, 0x2d, 0x30, 0x65, 0x65] ∧
      decode [0x64, 0x31, 0x3a, 0x6b, 0x69, 0x30, 0x65, 0x65] =
        .ok (.dict [([0x6b], .int 0)]) := by
  have hkey : Text [0x6b] [0x30, 0x31, 0x3a, 0x6b] :=
    @Text.text [0x30, 0x31] [0x6b] ⟨nofun, List.all_eq_true.mp rfl⟩ rfl
  have hzero : Document (.int 0) [0x69, 0x2d, 0x30, 0x65] :=
    @Document.int 0 true [0x30] ⟨nofun, List.all_eq_true.mp rfl⟩ rfl
  have hdecode : decode [0x64, 0x30, 0x31, 0x3a, 0x6b, 0x69, 0x2d, 0x30, 0x65, 0x65] =
      .ok (.dict [([0x6b], .int 0)]) :=
    decode_of_document (.dict (.cons hkey hzero .nil)) (by decide) (by decide)
  obtain ⟨hiff, hagain⟩ := encode_decode_iff (by decide) hdecode
  exact ⟨hdecode, fun hcanonical => absurd (hiff.mpr hcanonical) (by decide), hagain⟩

/-- Zeros in front of an integer are not written again. -/
theorem encode_decode_leading_zeros :
    decode [0x69, 0x30, 0x30, 0x37, 0x65] = .ok (.int 7) ∧
      encode (.int 7) ≠ [0x69, 0x30, 0x30, 0x37, 0x65] := by
  have hdoc : Document (.int 7) [0x69, 0x30, 0x30, 0x37, 0x65] :=
    @Document.int 7 false [0x30, 0x30, 0x37] ⟨nofun, List.all_eq_true.mp rfl⟩ rfl
  exact ⟨decode_of_document hdoc (by decide) (by decide), by decide⟩

end Bencode

end Packrat
