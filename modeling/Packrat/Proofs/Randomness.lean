import Packrat.Randomness

/-!
# What draws answer, whatever the source

`Always` says what holds of the answer of a draw from every state of its source. It goes through a
draw as the draw is written, with a rule for each way of putting draws together. What a sampler is
good for is that it stays in the ranges it is asked for, and nothing else is ever assumed of one.

Nothing is assumed of the words of a stream: not that they come from a cipher, nor that
they differ from each other. The sampler over them stays in its ranges by one fact of arithmetic: a
word scaled to a bound lies below the bound, no matter how often words were thrown away before.
-/

namespace Packrat.Randomness

variable {σ α β : Type} {P Q : α → Prop} {R : β → Prop} {draw : StateM σ α}

/-- The draw answers something with `P`, from every state. -/
def Always (draw : StateM σ α) (P : α → Prop) : Prop := ∀ s, P (draw s).1

namespace Always

theorem mono (h : Always draw P) (hPQ : ∀ a, P a → Q a) : Always draw Q :=
  fun s => hPQ _ (h s)

theorem pure {a : α} (h : P a) : Always (Pure.pure a : StateM σ α) P := fun _ => h

theorem bind {f : α → StateM σ β} (h : Always draw P) (hf : ∀ a, P a → Always (f a) R) :
    Always (draw >>= f) R :=
  fun s => hf _ (h s) (draw s).2

/-- Going on with whatever was drawn. -/
theorem bind_any {f : α → StateM σ β} (hf : ∀ a, Always (f a) R) : Always (draw >>= f) R :=
  fun s => hf _ (draw s).2

theorem several (h : Always draw P) (n : Nat) :
    Always (several draw n) fun xs => xs.length = n ∧ ∀ x ∈ xs, P x := by
  induction n with
  | zero => exact Always.pure ⟨rfl, nofun⟩
  | succ n ih =>
      refine h.bind fun x hx => ih.bind fun xs hxs => Always.pure ⟨?_, ?_⟩
      · rw [List.length_cons, hxs.1]
      · exact List.forall_mem_cons.mpr ⟨hx, hxs.2⟩

end Always

/-- A sampler that answers within the range it was asked for, from every state. -/
structure Sampler.InRange (sampler : Sampler σ) : Prop where
  index : ∀ alternatives, 0 < alternatives →
    Always (sampler.index alternatives) (· < alternatives)
  count : ∀ most, Always (sampler.count most) (· ≤ most)
  byte : ∀ low high, low ≤ high → Always (sampler.byte low high) fun b => low ≤ b ∧ b ≤ high
  int : ∀ low high, low ≤ high → Always (sampler.int low high) fun n => low ≤ n ∧ n ≤ high

/-! ## Numbers below a bound -/

/-- A word scaled to a bound lies below the bound. -/
theorem scale_lt {bound : Nat} (h : 0 < bound) (v width : Nat) :
    v % (1 <<< width) * bound / (1 <<< width) < bound := by
  have hpos : 0 < 1 <<< width := by
    rw [Nat.one_shiftLeft]
    exact Nat.two_pow_pos width
  refine Nat.div_lt_of_lt_mul ?_
  exact Nat.mul_lt_mul_of_pos_right (Nat.mod_lt v hpos) h

theorem scaled_always {bound : Nat} (h : 0 < bound) (draw : Draw Nat) (width zone tries : Nat) :
    Always (scaled draw width bound zone tries) (· < bound) := by
  induction tries with
  | zero => exact Always.bind_any fun v => Always.pure (scale_lt h v width)
  | succ tries ih =>
      refine Always.bind_any fun v => ?_
      simp only []
      split
      · exact Always.pure (scale_lt h v width)
      · exact ih

/-! ## The sampler over a stream -/

theorem byteBetween_always {low high : UInt8} (h : low ≤ high) :
    Always (byteBetween low high) fun b => low ≤ b ∧ b ≤ high := by
  have hle := UInt8.le_iff_toNat_le.mp h
  have hhigh := high.toNat_lt
  unfold byteBetween
  simp only []
  split
  next hall =>
    -- all bytes are allowed, so there is nothing below the one bound or above the other
    refine Always.bind_any fun v => Always.pure ?_
    have hv := (UInt8.ofNat v).toNat_lt
    rw [UInt8.le_iff_toNat_le, UInt8.le_iff_toNat_le]
    omega
  next =>
    refine (scaled_always (Nat.succ_pos _) _ _ _ _).bind fun v hv => Always.pure ?_
    have hsum : (UInt8.ofNat (low.toNat + v)).toNat = low.toNat + v :=
      UInt8.toNat_ofNat_of_lt' (show low.toNat + v < 2 ^ 8 by omega)
    rw [UInt8.le_iff_toNat_le, UInt8.le_iff_toNat_le, hsum]
    omega

theorem intBetween_always {low high : Int64} (h : low ≤ high) :
    Always (intBetween low high) fun n => low ≤ n ∧ n ≤ high := by
  have hle := Int64.le_iff_toInt_le.mp h
  have hlow := low.le_toInt
  have hhigh := high.toInt_lt
  unfold intBetween
  simp only []
  split
  next hall =>
    refine Always.bind_any fun v => Always.pure ?_
    have hmin := ((UInt64.ofNat v).toInt64).le_toInt
    have hmax := ((UInt64.ofNat v).toInt64).toInt_lt
    have hsize : (high.toInt - low.toInt).toNat + 1 = 2 ^ 64 := hall
    rw [Int64.le_iff_toInt_le, Int64.le_iff_toInt_le]
    omega
  next =>
    refine (scaled_always (Nat.succ_pos _) _ _ _ _).bind fun v hv => Always.pure ?_
    have hsum : (Int64.ofInt (low.toInt + v)).toInt = low.toInt + v :=
      Int64.toInt_ofInt_of_le (by omega) (by omega)
    rw [Int64.le_iff_toInt_le, Int64.le_iff_toInt_le, hsum]
    omega

/-- Whatever the words are, the sampler over them stays in its ranges. -/
theorem ofWords_inRange : ofWords.InRange where
  index _ h := scaled_always h _ _ _ _
  count _ := (scaled_always (Nat.succ_pos _) _ _ _ _).mono fun _ => Nat.le_of_lt_succ
  byte _ _ h := byteBetween_always h
  int _ _ h := intBetween_always h

end Packrat.Randomness
