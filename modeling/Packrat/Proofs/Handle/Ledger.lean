import Packrat.Handle.Ledger

/-!
# What a ledger says

A ledger in order has its live blocks listed once each, and has given out all
their ids. `Keeps` says of it which blocks these are. Charging adds one that is
new, and giving back takes one away, or counts as one time too many if it was
not there.
-/

namespace Packrat.Ledger

/-- The live blocks are the due ones, and the counters agree with them. -/
structure Keeps (l : Ledger) (due : Nat → Prop) : Prop where
  nodup : l.live.Nodup
  mem_live : ∀ id, id ∈ l.live ↔ due id
  lt_nextId : ∀ id ∈ l.live, id < l.nextId
  balance : l.allocated = l.released + l.live.length

variable {l : Ledger} {due due' : Nat → Prop}

theorem keeps_empty : Keeps empty fun _ => False where
  nodup := List.nodup_nil
  mem_live _ := List.mem_nil_iff _
  lt_nextId _ h := absurd h List.not_mem_nil
  balance := rfl

theorem Keeps.congr (h : l.Keeps due) (hdue : ∀ id, due id ↔ due' id) : l.Keeps due' :=
  { h with mem_live := fun id => (h.mem_live id).trans (hdue id) }

theorem Keeps.allocate (h : l.Keeps due) (bytes : Nat) :
    (l.allocate bytes).2.Keeps fun id => id = l.nextId ∨ due id where
  nodup := by
    refine List.nodup_cons.mpr ⟨fun hmem => ?_, h.nodup⟩
    exact Nat.lt_irrefl _ (h.lt_nextId _ hmem)
  mem_live id := by
    simp only [Ledger.allocate, List.mem_cons, h.mem_live]
  lt_nextId id hmem := by
    rcases List.mem_cons.mp hmem with rfl | hmem
    · exact Nat.lt_succ_self _
    · exact Nat.lt_succ_of_lt (h.lt_nextId id hmem)
  balance := by
    have hbalance := h.balance
    simp only [Ledger.allocate, List.length_cons]
    omega

/-- Giving a due block back. -/
theorem Keeps.release (h : l.Keeps due) {a : Allocation} (ha : due a.id) :
    (l.release a).Keeps (fun id => id ≠ a.id ∧ due id) ∧
      (l.release a).nextId = l.nextId ∧
      (l.release a).doubleReleases = l.doubleReleases := by
  have hmem : a.id ∈ l.live := (h.mem_live _).mpr ha
  rw [Ledger.release, if_pos hmem]
  refine ⟨⟨h.nodup.erase _, fun id => ?_, fun id hid => ?_, ?_⟩, rfl, rfl⟩
  · rw [h.nodup.mem_erase_iff, h.mem_live]
  · exact h.lt_nextId id (List.mem_of_mem_erase hid)
  · have hbalance := h.balance
    have hpos := List.length_pos_of_mem hmem
    have hlength := List.length_erase_of_mem hmem
    show l.allocated = l.released + 1 + (l.live.erase a.id).length
    omega

/-- Giving a block back that is not due changes nothing but the count of such
attempts. -/
theorem Keeps.release_again (h : l.Keeps due) {a : Allocation} (ha : ¬ due a.id) :
    l.release a = { l with doubleReleases := l.doubleReleases + 1 } := by
  rw [Ledger.release, if_neg fun hmem => ha ((h.mem_live _).mp hmem)]

end Packrat.Ledger
