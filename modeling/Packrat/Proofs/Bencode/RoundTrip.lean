import Packrat.Proofs.Bencode.Decoding

/-!
# Encoding and decoding again

What a value is written as is one of its documents (`document_encode`), so all that
is known about decoding documents holds of it. The one thing to show is about
numbers: the digits that are written spell the number.
-/

namespace Packrat.Bencode

open Decimal

/-! ## Digits -/

/-- The byte of a digit. -/
def digitByte (n : Nat) : UInt8 := UInt8.ofNat n.digitChar.toNat

theorem digitByte_spells : ∀ n < 10,
    isDigit (digitByte n) = true ∧ (digitByte n).toNat - 0x30 = n := by
  decide

theorem decimalNat_of_lt {n : Nat} (h : n < 10) : decimalNat n = [digitByte n] := by
  rw [decimalNat, Nat.toDigits_of_lt_base h]
  rfl

theorem decimalNat_of_le {n : Nat} (h : 10 ≤ n) :
    decimalNat n = decimalNat (n / 10) ++ [digitByte (n % 10)] := by
  rw [decimalNat, Nat.toDigits_of_base_le (by decide) h, List.map_append]
  rfl

/-- The digits that are written for a number spell it. -/
theorem decimalNat_spells (n : Nat) : Numeral (decimalNat n) ∧ number (decimalNat n) = n := by
  induction n using Nat.strongRecOn with
  | _ n ih =>
      by_cases hlt : n < 10
      · obtain ⟨hdigit, hvalue⟩ := digitByte_spells n hlt
        rw [decimalNat_of_lt hlt]
        refine ⟨⟨List.cons_ne_nil _ _, List.forall_mem_singleton.mpr hdigit⟩, ?_⟩
        rw [← List.nil_append [digitByte n], number_append, hvalue]
        exact Nat.zero_add n
      · obtain ⟨hdigit, hvalue⟩ := digitByte_spells (n % 10) (Nat.mod_lt n (by decide))
        obtain ⟨hnumeral, hnumber⟩ := ih (n / 10) (by omega)
        rw [decimalNat_of_le (by omega)]
        refine ⟨hnumeral.append hdigit, ?_⟩
        rw [number_append, hvalue, hnumber]
        omega

theorem decimalInt_eq (n : Int) :
    decimalInt n = minusSign (decide (n < 0)) ++ decimalNat n.natAbs := by
  by_cases hneg : n < 0
  · rw [decimalInt, if_pos hneg, decide_eq_true hneg]
    rfl
  · rw [decimalInt, if_neg hneg, decide_eq_false hneg]
    rfl

theorem signedNumber_decimalNat (n : Int) :
    signedNumber (decide (n < 0)) (decimalNat n.natAbs) = n := by
  rw [signedNumber, (decimalNat_spells n.natAbs).2]
  by_cases hneg : n < 0
  · rw [decide_eq_true hneg, if_pos rfl]
    omega
  · rw [decide_eq_false hneg, if_neg Bool.false_ne_true]
    omega

/-! ## Documents -/

theorem text_encodeBytes (payload : List UInt8) : Text payload (encodeBytes payload) := by
  obtain ⟨hnumeral, hnumber⟩ := decimalNat_spells payload.length
  exact .text hnumeral hnumber

theorem document_encode_int (n : Int64) : Document (.int n) (encode (.int n)) := by
  obtain ⟨hnumeral, _⟩ := decimalNat_spells n.toInt.natAbs
  rw [encode, decimalInt_eq]
  exact .int hnumeral (signedNumber_decimalNat n.toInt).symm

mutual

/-- What a value is written as is one of its documents. -/
theorem document_encode : ∀ v : Bencode, Document v (encode v)
  | .int n => document_encode_int n
  | .bytes payload => by
      rw [encode]
      exact .bytes (text_encodeBytes payload)
  | .list items => by
      rw [encode]
      exact .list (documents_encodeItems items)
  | .dict entries => by
      rw [encode]
      exact .dict (entries_encodeEntries entries)

theorem documents_encodeItems : ∀ items : List Bencode, Documents items (encodeItems items)
  | [] => by
      rw [encodeItems]
      exact .nil
  | v :: items => by
      rw [encodeItems]
      exact .cons (document_encode v) (documents_encodeItems items)

theorem entries_encodeEntries :
    ∀ entries : List (List UInt8 × Bencode), Entries entries (encodeEntries entries)
  | [] => by
      rw [encodeEntries]
      exact .nil
  | (key, v) :: entries => by
      rw [encodeEntries]
      exact .cons (text_encodeBytes key) (document_encode v) (entries_encodeEntries entries)

end

/-! ## Round trips -/

/-- Decoding what a value is written as gives the value back, with its entries in
order and with every repetition, if it costs no more than the depth limit. If it
costs more, decoding runs into the limit. What is written is a byte string in
memory, so its length is a 64-bit number. -/
theorem decode_encode (v : Bencode) (hsize : v.encode.length < UInt64.size) :
    (cost v ≤ 256 → decode v.encode = .ok v) ∧
      (256 < cost v →
        ∃ p ≤ v.encode.length, decode v.encode = .error (.located (.recursionLimit 256) p)) :=
  ⟨decode_of_document (document_encode v) hsize, decode_of_costly (document_encode v) hsize⟩

/-- The least integer under a key that stands there twice. -/
theorem decode_encode_repeated_key :
    decode (encode (.dict [([0x6b], .int Int64.minValue), ([0x6b], .list [])])) =
      .ok (.dict [([0x6b], .int Int64.minValue), ([0x6b], .list [])]) :=
  (decode_encode _ (by decide)).1 (by decide)

end Packrat.Bencode
