import Mathlib.Data.List.Dedup
import Packrat.ByteSet

/-!
# Sets of bytes and their members

A byte set is four words of 64 bits, but all that can be told of it are its members. The
words are looked at in one place: the bit with number `i` of word `k` is the membership of
the byte `64 * k + i`, and every byte is one of these. Each operation is then described by
what it does to the members, and two sets with the same members are the same four words.
The list of members is sorted, so it has each member once, and the ones of the four words
together are as many as its length.
-/

namespace Packrat.ByteSet

variable {s t : ByteSet}

/-! ## Bits of the words -/

theorem toBitVec_mask (b : UInt8) : (mask b).toBitVec = BitVec.twoPow 64 (b.toNat % 64) := by
  have hlow : (b &&& 63).toNat = b.toNat % 64 := by
    rw [UInt8.toNat_and]
    exact Nat.and_two_pow_sub_one_eq_mod b.toNat 6
  have hshift : ((b &&& 63).toUInt64.toBitVec % 64).toNat = b.toNat % 64 := by
    calc ((b &&& 63).toUInt64.toBitVec % 64).toNat
        = (b &&& 63).toNat % 64 := rfl
      _ = b.toNat % 64 := by rw [hlow, Nat.mod_mod]
  rw [mask, UInt64.toBitVec_shiftLeft, BitVec.shiftLeft_eq', hshift, BitVec.twoPow_eq]
  rfl

theorem val_word (b : UInt8) : (word b).val = b.toNat / 64 :=
  calc (b >>> 6).toNat
      = b.toNat >>> 6 := UInt8.toNat_shiftRight b 6
    _ = b.toNat / 64 := Nat.shiftRight_eq_div_pow b.toNat 6

theorem and_twoPow_ne_zero {w i : Nat} (x : BitVec w) (hi : i < w) :
    x &&& BitVec.twoPow w i ≠ 0#w ↔ x.getLsbD i = true := by
  rw [BitVec.and_twoPow]
  refine ⟨fun hne => by_contra fun hbit => hne (if_neg hbit), fun hbit hzero => ?_⟩
  have hone : (BitVec.twoPow w i).getLsbD i = true := by simp [hi]
  rw [if_pos hbit] at hzero
  simp [hzero] at hone

/-- Membership is one bit of one word. -/
theorem contains_eq (s : ByteSet) {b : UInt8} {k : Fin 4} (hk : word b = k) :
    s.contains b = s.words[k].toBitVec.getLsbD (b.toNat % 64) := by
  subst hk
  rw [Bool.eq_iff_iff, contains, bne_iff_ne, ← and_twoPow_ne_zero _ (Nat.mod_lt _ (by decide)),
    ← toBitVec_mask, ← UInt64.toBitVec_and, Ne, ← UInt64.toBitVec_inj]
  rfl

/-- Every bit of every word is the membership of a byte. -/
theorem contains_ofNat (s : ByteSet) (k : Fin 4) {i : Nat} (hi : i < 64) :
    s.contains (UInt8.ofNat (64 * k + i)) = s.words[k].toBitVec.getLsbD i := by
  have hlt : 64 * k.val + i < 256 := by omega
  have hb : (UInt8.ofNat (64 * k + i)).toNat = 64 * k + i := UInt8.toNat_ofNat_of_lt' hlt
  have hword : word (UInt8.ofNat (64 * k + i)) = k := by
    apply Fin.ext
    rw [val_word, hb]
    omega
  have hbit : (UInt8.ofNat (64 * k + i)).toNat % 64 = i := by
    rw [hb]
    omega
  rw [contains_eq s hword, hbit]

/-! ## Membership -/

/-- A set is known by its members. -/
@[ext]
theorem ext (h : ∀ b, s.contains b = t.contains b) : s = t := by
  obtain ⟨words⟩ := s
  obtain ⟨words'⟩ := t
  congr 1
  refine Vector.ext fun k hk => UInt64.eq_of_toBitVec_eq ?_
  refine BitVec.eq_of_getLsbD_eq fun i hi => ?_
  have hbit := h (UInt8.ofNat (64 * k + i))
  rwa [contains_ofNat _ ⟨k, hk⟩ hi, contains_ofNat _ ⟨k, hk⟩ hi] at hbit

@[simp]
theorem contains_empty (b : UInt8) : empty.contains b = false := by
  rw [contains_eq empty rfl]
  simp [empty]

/-- A byte is where its word and its bit are. -/
theorem eq_iff_word_bit {b c : UInt8} :
    b = c ↔ word b = word c ∧ b.toNat % 64 = c.toNat % 64 := by
  rw [← UInt8.toNat_inj, Fin.ext_iff, val_word, val_word]
  omega

@[simp]
theorem contains_insert (s : ByteSet) (b c : UInt8) :
    (s.insert b).contains c = (s.contains c || b == c) := by
  have hbit : b.toNat % 64 < 64 := Nat.mod_lt _ (by decide)
  rw [contains_eq _ rfl, contains_eq _ rfl, insert]
  simp only [Fin.getElem_fin, Vector.getElem_set, ← Fin.ext_iff]
  by_cases hword : word b = word c
  · have hsame : (b == c) = decide (b.toNat % 64 = c.toNat % 64) := by
      rw [Bool.eq_iff_iff, beq_iff_eq, decide_eq_true_iff, eq_iff_word_bit]
      exact and_iff_right hword
    rw [if_pos hword, UInt64.toBitVec_or, toBitVec_mask, BitVec.getLsbD_or, BitVec.getLsbD_twoPow,
      decide_eq_true hbit, Bool.true_and, hsame]
    simp only [hword]
  · have hother : (b == c) = false :=
      beq_false_of_ne fun heq => hword (eq_iff_word_bit.mp heq).1
    rw [if_neg hword, hother, Bool.or_false]

/-- The complement flips every word. -/
theorem getElem_complement (s : ByteSet) (k : Fin 4) :
    s.complement.words[k] = ~~~s.words[k] := by
  match k with
  | 0 | 1 | 2 | 3 => rfl

@[simp]
theorem contains_complement (s : ByteSet) (b : UInt8) :
    s.complement.contains b = !s.contains b := by
  have hbit : b.toNat % 64 < 64 := Nat.mod_lt _ (by decide)
  rw [contains_eq _ rfl, contains_eq _ rfl, getElem_complement, UInt64.toBitVec_not,
    BitVec.getLsbD_not, decide_eq_true hbit, Bool.true_and]

@[simp]
theorem complement_complement (s : ByteSet) : s.complement.complement = s := by
  ext b
  simp

theorem contains_foldl_insert (inserted : List UInt8) (s : ByteSet) (b : UInt8) :
    (inserted.foldl insert s).contains b = true ↔ s.contains b = true ∨ b ∈ inserted := by
  induction inserted generalizing s with
  | nil => simp
  | cons first rest ih =>
      rw [List.foldl_cons, ih, contains_insert, Bool.or_eq_true, beq_iff_eq, List.mem_cons,
        or_assoc, eq_comm (a := first)]

theorem contains_ofList (bytes : List UInt8) (b : UInt8) :
    (ofList bytes).contains b = true ↔ b ∈ bytes := by
  rw [ofList, contains_foldl_insert, contains_empty]
  simp

/-! ## Members in order -/

/-- All bytes, in ascending order. -/
theorem pairwise_bytes : ((List.range 256).map UInt8.ofNat).Pairwise (· < ·) := by
  rw [List.pairwise_map]
  refine List.pairwise_lt_range.imp_of_mem fun {i j} hi hj hlt => ?_
  rw [UInt8.lt_iff_toNat_lt, UInt8.toNat_ofNat_of_lt' (List.mem_range.mp hi),
    UInt8.toNat_ofNat_of_lt' (List.mem_range.mp hj)]
  exact hlt

theorem mem_bytes (b : UInt8) : b ∈ (List.range 256).map UInt8.ofNat :=
  List.mem_map.mpr ⟨b.toNat, List.mem_range.mpr b.toNat_lt, UInt8.ofNat_toNat⟩

@[simp]
theorem mem_toList {b : UInt8} : b ∈ s.toList ↔ s.contains b = true := by
  rw [toList, List.mem_filter]
  exact and_iff_right (mem_bytes b)

theorem pairwise_toList (s : ByteSet) : s.toList.Pairwise (· < ·) := pairwise_bytes.filter _

theorem nodup_toList (s : ByteSet) : s.toList.Nodup :=
  s.pairwise_toList.imp fun hlt => UInt8.ne_of_lt hlt

/-! ## How many -/

theorem cpopNatRec_eq_countP {w : Nat} (x : BitVec w) (n : Nat) :
    x.cpopNatRec n 0 = (List.range n).countP x.getLsbD := by
  induction n with
  | zero => rfl
  | succ n ih =>
      rw [BitVec.cpopNatRec_succ, BitVec.cpopNatRec_eq, ih, List.range_succ, List.countP_append,
        List.countP_singleton]
      cases x.getLsbD n <;> simp

/-- The ones of a word are the members among its bytes. -/
theorem countOnes_eq (s : ByteSet) (k : Fin 4) :
    countOnes s.words[k] =
      (List.range 64).countP fun i => s.contains (UInt8.ofNat (64 * k + i)) := by
  rw [countOnes, BitVec.toNat_cpop, cpopNatRec_eq_countP]
  refine List.countP_congr fun i hi => ?_
  rw [contains_ofNat s k (List.mem_range.mp hi)]

theorem countP_range_add (p : Nat → Bool) (n m : Nat) :
    (List.range (n + m)).countP p =
      (List.range n).countP p + (List.range m).countP fun i => p (n + i) := by
  rw [List.range_add, List.countP_append, List.countP_map]
  rfl

/-- The ones of the four words are the members. -/
theorem size_eq (s : ByteSet) : s.size = s.toList.length := by
  have hparts := fun n => countP_range_add (fun i => s.contains (UInt8.ofNat i)) n 64
  calc s.size
      = countOnes s.words[(0 : Fin 4)] + countOnes s.words[(1 : Fin 4)] +
          countOnes s.words[(2 : Fin 4)] + countOnes s.words[(3 : Fin 4)] := rfl
    _ = (List.range 256).countP fun i => s.contains (UInt8.ofNat i) := by
      rw [hparts 192, hparts 128, hparts 64, countOnes_eq, countOnes_eq, countOnes_eq,
        countOnes_eq]
      simp only [Fin.isValue, Fin.val_zero, Nat.mul_zero, Nat.zero_add]
      rfl
    _ = s.toList.length := by
      rw [toList, ← List.countP_eq_length_filter, List.countP_map]
      rfl

theorem countOnes_not (w : UInt64) : countOnes (~~~w) + countOnes w = 64 := by
  have hle : w.toBitVec.cpop.toNat ≤ 64 := BitVec.toNat_cpop_le w.toBitVec
  rw [countOnes, UInt64.toBitVec_not, BitVec.toNat_cpop_not, countOnes]
  exact Nat.sub_add_cancel hle

theorem size_complement (s : ByteSet) : s.complement.size + s.size = 256 := by
  have h0 := countOnes_not s.words[0]
  have h1 := countOnes_not s.words[1]
  have h2 := countOnes_not s.words[2]
  have h3 := countOnes_not s.words[3]
  have hsize : s.complement.size =
      countOnes (~~~s.words[0]) + countOnes (~~~s.words[1]) + countOnes (~~~s.words[2]) +
        countOnes (~~~s.words[3]) := rfl
  rw [hsize, size]
  omega

/-- The members of a set are the different ones of any list that has the same. -/
theorem size_eq_dedup {members : List UInt8} (h : ∀ b, s.contains b = true ↔ b ∈ members) :
    s.size = members.dedup.length := by
  have hperm : s.toList.Perm members.dedup :=
    (List.perm_ext_iff_of_nodup s.nodup_toList members.nodup_dedup).mpr fun b => by
      rw [mem_toList, h, List.mem_dedup]
  rw [size_eq, hperm.length_eq]

end Packrat.ByteSet
