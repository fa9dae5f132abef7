import Mathlib.Data.List.Induction
import Mathlib.Tactic.IntervalCases
import Packrat.Proofs.Semantics.Rules

/-!
# Bytes as words

The walk shifts the bytes of an integer into a word of 64 bits one after another. The word
is the number that the bytes spell as long as there is room for all of them, and what is
left of it if there is not. For an integer with a sign the word is shifted up, until the
sign bit is at the top, and down again, which divides by the same power of two but copies
the sign: so half of the numbers come back as they were, and the others less by the number
of all of them.

Both are said without a bound on the width. A grammar that was built has none but widths
up to eight bytes, and from those nothing is lost.
-/

namespace Packrat.Walk

open Semantics

/-! ## Numbers -/

/-- The number that a list of bytes spells, the most significant first. -/
def valueOf : List UInt8 → Nat
  | [] => 0
  | b :: rest => b.toNat * 256 ^ rest.length + valueOf rest

theorem valueOf_append (bytes : List UInt8) (b : UInt8) :
    valueOf (bytes ++ [b]) = valueOf bytes * 256 + b.toNat := by
  induction bytes with
  | nil => simp [valueOf]
  | cons first rest ih =>
      rw [List.cons_append, valueOf, ih, valueOf, List.length_append, List.length_singleton,
        Nat.pow_succ, ← Nat.mul_assoc, Nat.add_mul, Nat.add_assoc]

theorem valueOf_lt (bytes : List UInt8) : valueOf bytes < 256 ^ bytes.length := by
  induction bytes using List.reverseRecOn with
  | nil => exact Nat.one_pos
  | append_singleton bytes b ih =>
      have hb : b.toNat < 256 := b.toNat_lt
      rw [valueOf_append, List.length_append, List.length_singleton, Nat.pow_succ]
      omega

/-- Shifting in one byte after another gives the number they spell, as far as a word has
room for it. -/
theorem bigEndian_eq (raw : List UInt8) : bigEndian raw = UInt64.ofNat (valueOf raw) := by
  induction raw using List.reverseRecOn with
  | nil => rfl
  | append_singleton raw b ih =>
      have hb : b.toNat < 2 ^ 8 := b.toNat_lt
      have hshift : (bigEndian raw <<< 8).toNat = (valueOf raw % 2 ^ 56) <<< 8 := by
        rw [ih, UInt64.toNat_shiftLeft, UInt64.toNat_ofNat']
        show (valueOf raw % 2 ^ 64) <<< 8 % 2 ^ 64 = _
        rw [Nat.shiftLeft_eq, Nat.shiftLeft_eq]
        omega
      have hword : bigEndian (raw ++ [b]) = (bigEndian raw <<< 8) ||| b.toUInt64 := by
        rw [bigEndian, List.foldl_append]
        rfl
      rw [hword, ← UInt64.toNat_inj, UInt64.toNat_or, hshift, UInt8.toNat_toUInt64,
        ← Nat.shiftLeft_add_eq_or_of_lt hb, Nat.shiftLeft_eq, UInt64.toNat_ofNat', valueOf_append]
      omega

/-- A word has room for eight bytes. -/
theorem toNat_ofNat_of_width {width n : Nat} (hwidth : width ≤ 8) (h : n < 256 ^ width) :
    (UInt64.ofNat n).toNat = n :=
  UInt64.toNat_ofNat_of_lt' (Nat.lt_of_lt_of_le h (Nat.pow_le_pow_right (by decide) hwidth))

/-! ## Bytes of the input -/

theorem valueOf_ofFn : ∀ {width : Nat} (digit : Fin width → UInt8),
    valueOf (List.ofFn digit) = ∑ i : Fin width, (digit i).toNat * 256 ^ (width - 1 - i) := by
  intro width
  induction width with
  | zero => intro digit; rfl
  | succ width ih =>
      intro digit
      rw [List.ofFn_succ, valueOf, ih, Fin.sum_univ_succ, List.length_ofFn]
      congr 1
      refine Finset.sum_congr rfl fun i _ => ?_
      congr 2
      rw [Fin.val_succ]
      omega

section Slices

variable {input : Array UInt8} {pos width : Nat}

theorem length_slice (h : pos + width ≤ input.size) : (slice input pos width).length = width := by
  simp only [slice, Array.length_toList, Array.size_extract]
  omega

theorem valueOf_slice (h : pos + width ≤ input.size) :
    valueOf (slice input pos width) = spelled input pos width h := by
  have hslice : slice input pos width = List.ofFn fun i : Fin width => input[pos + i] := by
    refine List.ext_getElem (by rw [length_slice h, List.length_ofFn]) fun i hi hi' => ?_
    simp [slice]
  rw [hslice, valueOf_ofFn, spelled]

theorem spelled_lt (h : pos + width ≤ input.size) : spelled input pos width h < 256 ^ width := by
  have hlt := valueOf_lt (slice input pos width)
  rwa [length_slice h, valueOf_slice h] at hlt

theorem bigEndian_slice (h : pos + width ≤ input.size) :
    bigEndian (slice input pos width) = UInt64.ofNat (spelled input pos width h) := by
  rw [bigEndian_eq, valueOf_slice h]

end Slices

/-! ## Signs -/

/-- A word shifted up and down again keeps its value if the top bit stays free, and is less
by a whole turn if not. -/
theorem toInt_shift_back {shift : Nat} (hshift : shift < 64) (word : UInt64)
    (h : word.toNat * 2 ^ shift < 2 ^ 64) :
    ((word <<< UInt64.ofNat shift).toInt64 >>> Int64.ofNat shift).toInt =
      (if 2 * (word.toNat * 2 ^ shift) < 2 ^ 64 then ((word.toNat * 2 ^ shift : Nat) : Int)
        else (word.toNat * 2 ^ shift : Nat) - 2 ^ 64) / 2 ^ shift := by
  have hsmall : shift < UInt64.size := Nat.lt_trans hshift (by decide)
  have hup : (word <<< UInt64.ofNat shift).toNat = word.toNat * 2 ^ shift := by
    rw [UInt64.toNat_shiftLeft, UInt64.toNat_ofNat_of_lt' hsmall, Nat.mod_eq_of_lt hshift,
      Nat.shiftLeft_eq, Nat.mod_eq_of_lt h]
  have hdown : ∀ shift < 64, ((Int64.ofNat shift).toBitVec.smod 64).toNat = shift := by decide
  rw [← Int64.toInt_toBitVec, Int64.toBitVec_shiftRight, BitVec.sshiftRight', hdown shift hshift,
    BitVec.toInt_sshiftRight, UInt64.toBitVec_toInt64, Int.shiftRight_eq_div_pow,
    BitVec.toInt_eq_toNat_cond, UInt64.toNat_toBitVec, hup]
  norm_cast

theorem signExtend_toInt {width : Nat} (hwidth : 1 ≤ width ∧ width ≤ 8) {word : UInt64}
    (h : word.toNat < 256 ^ width) :
    (signExtend width word).toInt = twosComplement width word.toNat := by
  obtain ⟨hlow, hhigh⟩ := hwidth
  rw [signExtend]
  -- with the width a numeral, both sides are linear
  interval_cases width
  all_goals
    rw [toInt_shift_back (by omega) word (by omega), twosComplement]
    split <;> split <;> omega

/-- Of a width of eight bytes or more a word has the lower end, and the sign is its top bit. -/
theorem toInt64_ofNat {width n : Nat} (hwide : 8 ≤ width) :
    (UInt64.ofNat n).toInt64 = Int64.ofInt (twosComplement width n) := by
  obtain ⟨turns, hturns⟩ : ((2 ^ 64 : Nat) : Int) ∣ 256 ^ width :=
    pow_dvd_pow (256 : Int) hwide
  have hrem : twosComplement width n % (2 ^ 64 : Nat) = (n : Int) % (2 ^ 64 : Nat) := by
    rw [twosComplement]
    split
    · rfl
    · rw [hturns, Int.sub_mul_emod_self_left]
  apply Int64.toBitVec_inj.mp
  rw [UInt64.toBitVec_toInt64, Int64.toBitVec_ofInt]
  apply BitVec.eq_of_toNat_eq
  rw [UInt64.toNat_toBitVec, UInt64.toNat_ofNat', BitVec.toNat_ofInt, hrem]
  omega

/-- Extending the sign of the word that is made of a number reads the number in two's
complement, and makes a word of that. -/
theorem signExtend_ofNat {width n : Nat} (h : n < 256 ^ width) :
    signExtend width (UInt64.ofNat n) = Int64.ofInt (twosComplement width n) := by
  rcases Nat.lt_or_ge 8 width with hwide | hfits
  · have hshift : 64 - 8 * width = 0 := by omega
    rw [signExtend, hshift, ← toInt64_ofNat (Nat.le_of_lt hwide)]
    simp
  · rcases Nat.eq_zero_or_pos width with rfl | hpos
    · obtain rfl : n = 0 := by omega
      decide
    · have hn := toNat_ofNat_of_width hfits h
      rw [← Int64.ofInt_toInt (signExtend width _), signExtend_toInt ⟨hpos, hfits⟩ (by rwa [hn]),
        hn]

theorem signExtend_slice {input : Array UInt8} {pos width : Nat} (h : pos + width ≤ input.size) :
    signExtend width (bigEndian (slice input pos width)) =
      Int64.ofInt (twosComplement width (spelled input pos width h)) := by
  rw [bigEndian_slice h, signExtend_ofNat (spelled_lt h)]

theorem toInt_twosComplement {width n : Nat} (hwidth : 1 ≤ width ∧ width ≤ 8)
    (h : n < 256 ^ width) :
    (Int64.ofInt (twosComplement width n)).toInt = twosComplement width n := by
  have hn := toNat_ofNat_of_width hwidth.2 h
  rw [← signExtend_ofNat h, signExtend_toInt hwidth (by rwa [hn]), hn]

end Packrat.Walk
