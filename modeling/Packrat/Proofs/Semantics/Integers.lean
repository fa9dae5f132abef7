import Packrat.Proofs.Semantics.Terminals

/-!
# Binary integers are read exactly

What a node for integers reads is told by its rule as an integer, so all that is left is
whether a word has room for it. It has for one, two, four and eight bytes. The numbers
that a width has room for are therefore those that are read, and each is read back from
the bytes that it is written with.
-/

namespace Packrat

namespace Semantics

open Walk

/-! ## Writing -/

/-- The bytes that a number is written with, the most significant first. -/
def spelling (width n : Nat) : List UInt8 :=
  (List.range width).reverse.map fun i => UInt8.ofNat (n / 256 ^ i)

theorem spelling_succ (width n : Nat) :
    spelling (width + 1) n = UInt8.ofNat (n / 256 ^ width) :: spelling width n := by
  simp [spelling, List.range_succ]

theorem length_spelling (width n : Nat) : (spelling width n).length = width := by
  simp [spelling]

theorem valueOf_spelling (width n : Nat) : valueOf (spelling width n) = n % 256 ^ width := by
  induction width with
  | zero => simp [spelling, valueOf, Nat.mod_one]
  | succ width ih =>
      have hbyte : (UInt8.ofNat (n / 256 ^ width)).toNat = n / 256 ^ width % 256 :=
        UInt8.toNat_ofNat'
      rw [spelling_succ, valueOf, hbyte, length_spelling, ih, Nat.mod_pow_succ, Nat.mul_comm,
        Nat.add_comm]

theorem slice_of_append {input : Array UInt8} {before part rest : List UInt8}
    (h : input.toList = before ++ part ++ rest) :
    slice input before.length part.length = part := by
  rw [slice, Array.toList_extract, h, List.extract_eq_take_drop, List.append_assoc, List.drop_left,
    Nat.add_sub_cancel_left, List.take_left]

/-- Where a number was written, it is what the bytes spell. -/
theorem spelled_of_written {input : Array UInt8} {before rest : List UInt8} {width n pos : Nat}
    (hn : n < 256 ^ width) (h : input.toList = before ++ spelling width n ++ rest)
    (hbefore : before.length = pos) :
    ∃ hfits : pos + width ≤ input.size, spelled input pos width hfits = n := by
  have hlength := congrArg List.length h
  rw [Array.length_toList, List.length_append, List.length_append, length_spelling] at hlength
  have hfits : pos + width ≤ input.size := by omega
  have hslice := slice_of_append h
  rw [length_spelling, hbefore] at hslice
  exact ⟨hfits, by rw [← valueOf_slice hfits, hslice, valueOf_spelling, Nat.mod_eq_of_lt hn]⟩

/-- An integer that the width has room for is the two's complement of its remainder. -/
theorem twosComplement_emod {width : Nat} {z : Int} (hlow : -256 ^ width ≤ 2 * z)
    (hhigh : 2 * z < 256 ^ width) :
    twosComplement width (z % 256 ^ width).toNat = z := by
  have hpow : ((256 ^ width : Nat) : Int) = 256 ^ width := by norm_cast
  have hpos : 0 < 256 ^ width := Nat.pow_pos (by decide)
  rw [twosComplement, ← hpow]
  rw [← hpow] at hlow hhigh
  by_cases hneg : z < 0
  · have hrem : z % ((256 ^ width : Nat) : Int) = z + (256 ^ width : Nat) := by
      rw [← Int.add_emod_right, Int.emod_eq_of_lt (by omega) (by omega)]
    rw [hrem, if_neg (by omega)]
    omega
  · rw [Int.emod_eq_of_lt (by omega) (by omega), if_pos (by omega)]
    omega

/-! ## Nodes -/

section Reading

variable {g : Grammar} {input : Array UInt8} (o : Occasion g input) (id : NodeId)
  (width pos : Nat)

/-- On this occasion the node reads an integer of `width` bytes without a sign. -/
structure ReadsUnsigned : Prop where
  value : ∀ h : pos + width ≤ input.size, ∃ word : UInt64,
    word.toNat = spelled input pos width h ∧
      o.Answers id pos (.matched (.uint word) (pos + width))
  /-- What is written behind any bytes and in front of any others is read. -/
  encoded : ∀ (before rest : List UInt8) (n : Nat), n < 256 ^ width →
    input.toList = before ++ spelling width n ++ rest → before.length = pos →
    o.Answers id pos (.matched (.uint (UInt64.ofNat n)) (pos + width))
  short : input.size < pos + width → o.Answers id pos (.failed ⟨.inputExhausted, input.size⟩)

/-- On this occasion the node reads an integer of `width` bytes with a sign. -/
structure ReadsSigned : Prop where
  value : ∀ h : pos + width ≤ input.size, ∃ number : Int64,
    number.toInt = twosComplement width (spelled input pos width h) ∧
      o.Answers id pos (.matched (.sint number) (pos + width))
  encoded : ∀ (before rest : List UInt8) (z : Int),
    -2 ^ (8 * width - 1) ≤ z → z < 2 ^ (8 * width - 1) →
    input.toList = before ++ spelling width (z % 256 ^ width).toNat ++ rest →
    before.length = pos → o.Answers id pos (.matched (.sint (Int64.ofInt z)) (pos + width))
  short : input.size < pos + width → o.Answers id pos (.failed ⟨.inputExhausted, input.size⟩)

end Reading

section Answers

variable {g : Grammar} {input : Array UInt8} {o : Occasion g input} {id : NodeId}
  {width pos : Nat}

theorem readsUnsigned_of_node (hlevels : 0 < o.levels)
    (hwidth : width = 1 ∨ width = 2 ∨ width = 4 ∨ width = 8)
    (hnode : g.node? id = some (.unsigned width)) : ReadsUnsigned o id width pos := by
  have hmatched : ∀ h : pos + width ≤ input.size, o.Answers id pos
      (.matched (.uint (UInt64.ofNat (spelled input pos width h))) (pos + width)) :=
    fun h => o.answers_leaf hlevels hnode rfl (.unsigned h)
  constructor
  · exact fun h => ⟨_, toNat_ofNat_of_width (by omega) (spelled_lt h), hmatched h⟩
  · intro before rest n hn h hbefore
    obtain ⟨hfits, hspelled⟩ := spelled_of_written hn h hbefore
    rw [← hspelled]
    exact hmatched hfits
  · exact fun h => o.answers_leaf hlevels hnode rfl (.unsigned_exhausted h)

theorem half_eq (hwidth : width = 1 ∨ width = 2 ∨ width = 4 ∨ width = 8) :
    (2 : Int) ^ (8 * width - 1) * 2 = 256 ^ width := by
  rcases hwidth with rfl | rfl | rfl | rfl <;> norm_num

theorem readsSigned_of_node (hlevels : 0 < o.levels)
    (hwidth : width = 1 ∨ width = 2 ∨ width = 4 ∨ width = 8)
    (hnode : g.node? id = some (.signed width)) : ReadsSigned o id width pos := by
  have hmatched : ∀ h : pos + width ≤ input.size, o.Answers id pos (.matched
      (.sint (Int64.ofInt (twosComplement width (spelled input pos width h)))) (pos + width)) :=
    fun h => o.answers_leaf hlevels hnode rfl (.signed h)
  constructor
  · exact fun h => ⟨_, toInt_twosComplement (by omega) (spelled_lt h), hmatched h⟩
  · intro before rest z hlow hhigh h hbefore
    have hhalf := half_eq hwidth
    have hn : (z % 256 ^ width).toNat < 256 ^ width := by
      have hpos : (0 : Int) < 256 ^ width := pow_pos (by decide) width
      rw [Int.toNat_lt (Int.emod_nonneg z (ne_of_gt hpos))]
      exact_mod_cast Int.emod_lt_of_pos z hpos
    obtain ⟨hfits, hspelled⟩ := spelled_of_written hn h hbefore
    have hvalue : twosComplement width (spelled input pos width hfits) = z := by
      rw [hspelled, twosComplement_emod (by omega) (by omega)]
    rw [← hvalue]
    exact hmatched hfits
  · exact fun h => o.answers_leaf hlevels hnode rfl (.signed_exhausted h)

end Answers

/-- At any position of any input, a node for integers of one, two, four or eight bytes reads
the number that the bytes spell, as it is or in two's complement, and stops behind it. So
whatever fits is read back from the bytes that it is written with. Where there are too few
bytes, it fails at the end of the input. -/
theorem binary_integers_exact {g : Grammar} {input : Array UInt8} (o : Occasion g input)
    (hlevels : 0 < o.levels) {width : Nat}
    (hwidth : width = 1 ∨ width = 2 ∨ width = 4 ∨ width = 8) (pos : Nat) :
    (∀ id, g.node? id = some (.unsigned width) → ReadsUnsigned o id width pos) ∧
    (∀ id, g.node? id = some (.signed width) → ReadsSigned o id width pos) :=
  ⟨fun _ hnode => readsUnsigned_of_node hlevels hwidth hnode,
    fun _ hnode => readsSigned_of_node hlevels hwidth hnode⟩

/-- An integer with a sign and one without, of eight bytes each. -/
def wide : NodeId × Builder :=
  Id.run <| StateT.run (do
    let number ← Builder.signed 8
    let word ← Builder.unsigned 8
    Builder.choice [number, word]) (Builder.new 0)

def wideGrammar : Grammar := ⟨wide.2.arena, wide.2.nodes, wide.2.names, wide.1⟩

/-- The least integer with a sign, behind one byte and in front of another: without the sign
it is the top bit alone. Two bytes later there is one byte too few. -/
theorem binary_integers_exact_least :
    let o := Occasion.lastLevel wideGrammar #[0x69, 0x80, 0, 0, 0, 0, 0, 0, 0, 0x65] 9
    o.Answers ⟨0, 0⟩ 1 (.matched (.sint (-9223372036854775808)) 9) ∧
    o.Answers ⟨0, 1⟩ 1 (.matched (.uint 9223372036854775808) 9) ∧
    o.Answers ⟨0, 1⟩ 3 (.failed ⟨.inputExhausted, 10⟩) := by
  intro o
  have hwidth : 8 = 1 ∨ 8 = 2 ∨ 8 = 4 ∨ 8 = 8 := by decide
  have hread := binary_integers_exact o Nat.one_pos hwidth
  refine ⟨?_, ?_, ?_⟩
  · exact ((hread 1).2 ⟨0, 0⟩ rfl).encoded [0x69] [0x65] (-9223372036854775808) (by decide)
      (by decide) (by decide) rfl
  · exact ((hread 1).1 ⟨0, 1⟩ rfl).encoded [0x69] [0x65] 9223372036854775808 (by decide)
      (by decide) rfl
  · exact ((hread 3).1 ⟨0, 1⟩ rfl).short (by decide)

end Semantics

end Packrat
