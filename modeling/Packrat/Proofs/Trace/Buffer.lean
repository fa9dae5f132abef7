import Mathlib.Data.List.DropRight
import Packrat.Trace.Buffer

/-!
# What a buffer keeps

What a buffer stores is not what it keeps: evicted records stand in front of the kept
ones for a while, and they are taken out in bulk. None of this can be seen. What is kept
is the end of what is stored, as long as there is room for, and the end is not touched
by taking records out in front of it. So a new record goes behind the kept ones, and of
the result the end is kept.

From here on only the list of kept records is spoken of. What may be kept at all is what
came since the last clearing, in a list of commands of whatever kind.
-/

namespace Packrat.Trace

/-! ## Ends of lists -/

section Ends

variable {α : Type} {l m : List α} {n : Nat}

/-- An end with something behind it ends as the whole list does. -/
theorem rtake_rtake_append (l m : List α) (n : Nat) :
    (l.rtake n ++ m).rtake n = (l ++ m).rtake n := by
  simp only [List.rtake_eq_reverse_take_reverse, List.reverse_append, List.reverse_reverse,
    List.take_append, List.take_take]
  have hmin : min (n - m.reverse.length) n = n - m.reverse.length := by omega
  rw [hmin]

theorem rtake_rtake (l : List α) (n : Nat) : (l.rtake n).rtake n = l.rtake n := by
  have h := rtake_rtake_append l [] n
  simpa using h

theorem length_rtake (l : List α) (n : Nat) : (l.rtake n).length = min l.length n := by
  rw [List.rtake, List.length_drop]
  omega

/-- What fits is kept as a whole, and of what is in front of it an end. -/
theorem exists_rtake_append (l : List α) (h : m.length ≤ n) :
    ∃ kept, kept <:+ l ∧ (l ++ m).rtake n = kept ++ m := by
  refine ⟨l.drop ((l ++ m).length - n), List.drop_suffix _ l, ?_⟩
  have hle : (l ++ m).length - n ≤ l.length := by
    rw [List.length_append]
    omega
  rw [List.rtake, List.drop_append_of_le_length hle]

end Ends

/-! ## What came since the last clearing -/

section Clearing

variable {κ : Type}

/-- The commands up to the last clearing. -/
def untilCleared (isClear : κ → Bool) (commands : List κ) : List κ :=
  commands.rdropWhile fun c => !isClear c

/-- Of all records that commands make, those made since the last clearing. -/
def sinceCleared (isClear : κ → Bool) (made : List κ → List Record) (commands : List κ) :
    List Record :=
  (made commands).drop (made (untilCleared isClear commands)).length

variable {isClear : κ → Bool} {made : List κ → List Record} {commands : List κ} {c : κ}

theorem sinceCleared_append_clear (hc : isClear c = true) :
    sinceCleared isClear made (commands ++ [c]) = [] := by
  have hall : untilCleared isClear (commands ++ [c]) = commands ++ [c] :=
    List.rdropWhile_concat_neg _ _ _ (by rw [hc]; exact Bool.false_ne_true)
  rw [sinceCleared, hall]
  exact List.drop_length

/-- Whatever another command makes is new, if more commands only ever make more. -/
theorem sinceCleared_append (hmore : ∀ commands more, made commands <+: made (commands ++ more))
    (hc : isClear c = false) {records : List Record}
    (h : made (commands ++ [c]) = made commands ++ records) :
    sinceCleared isClear made (commands ++ [c]) =
      sinceCleared isClear made commands ++ records := by
  have hsame : untilCleared isClear (commands ++ [c]) = untilCleared isClear commands :=
    List.rdropWhile_concat_pos _ _ _ (by rw [hc]; rfl)
  have hle : (made (untilCleared isClear commands)).length ≤ (made commands).length := by
    obtain ⟨since, hsince⟩ : untilCleared isClear commands <+: commands :=
      List.rdropWhile_prefix _ commands
    have hfront := hmore (untilCleared isClear commands) since
    rw [hsince] at hfront
    exact hfront.length_le
  rw [sinceCleared, hsame, h, List.drop_append_of_le_length hle]
  rfl

end Clearing

/-! ## Buffers -/

namespace Buffer

theorem toList_eq (b : Buffer) : b.toList = b.stored.toList.rtake b.capacity := rfl

theorem length_toList (b : Buffer) : b.toList.length = b.size := by
  rw [toList_eq, length_rtake, Array.length_toList, size]

/-- Taking records out in front leaves the end as it is. -/
theorem rtake_trim (capacity : Nat) (stored : Array Record) :
    (trim capacity stored).toList.rtake capacity = stored.toList.rtake capacity := by
  unfold trim
  split
  · have hend : (stored.extract (stored.size - capacity) stored.size).toList =
        stored.toList.rtake capacity := by
      rw [Array.toList_extract, List.extract_eq_take_drop]
      exact List.take_of_length_le (by simp)
    rw [hend, rtake_rtake]
  · rfl

theorem toList_push (b : Buffer) (parse depth timestamp : Nat) (note : Note) :
    (b.push parse depth timestamp note).1.toList =
      (b.toList ++ [(⟨b.nextId, parse, depth, timestamp, note⟩ : Record)]).rtake b.capacity := by
  rw [toList_eq b, rtake_rtake_append]
  show (trim b.capacity (b.stored.push _)).toList.rtake b.capacity = _
  rw [rtake_trim, Array.toList_push]

@[simp]
theorem capacity_push (b : Buffer) (parse depth timestamp : Nat) (note : Note) :
    (b.push parse depth timestamp note).1.capacity = b.capacity := rfl

theorem toList_clear (b : Buffer) : b.clear.toList = [] := by simp [toList, clear]

theorem toList_new (capacity : Nat) : (new capacity).toList = [] := by simp [toList, new]

theorem newest?_eq (b : Buffer) : b.newest? = b.toList.getLast? := by
  rw [newest?, toList, List.getLast?_drop, Array.length_toList, Array.getLast?_toList]
  by_cases hnone : b.capacity = 0
  · rw [if_pos hnone, if_pos (by omega)]
  · rw [if_neg hnone]
    split
    · next hle =>
        have hempty : b.stored.size = 0 := by omega
        rw [Array.back?_eq_none_iff.mpr (Array.size_eq_zero_iff.mp hempty)]
    · rfl

end Buffer

end Packrat.Trace
