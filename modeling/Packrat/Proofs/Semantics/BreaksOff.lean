import Packrat.Proofs.Semantics.Reads

/-!
# Byte strings that break off

A byte string that was expected may be there in part only, since the input ends inside of
it. Then it breaks off, which is the counterpart of `Reads`: it goes over concatenations
in the same way. The first part breaks off; or the first one is read, and the rest breaks
off behind it.

So a repetition over a body that breaks off is read up to the element that does, and if
that element fails there, the repetition ends.
-/

namespace Packrat.Semantics

variable {input : Array UInt8} {pos stop : Nat}

/-- The input goes on at `pos` as the byte string does, and ends before it. -/
structure BreaksOff (input : Array UInt8) (pos : Nat) (doc : List UInt8) : Prop where
  pos_le : pos ≤ input.size
  missing : ∃ rest, rest ≠ [] ∧ input.toList.drop pos ++ rest = doc
  /-- The byte string is one of those that fit into memory. -/
  short : doc.length < UInt64.size

namespace BreaksOff

variable {doc part rest : List UInt8}

/-- Of two byte strings the first one breaks off, or else the second one does behind it. -/
theorem split (h : BreaksOff input pos (part ++ rest)) :
    BreaksOff input pos part ∨ ∃ mid, Reads input pos part mid ∧ BreaksOff input mid rest := by
  obtain ⟨hpos, ⟨missing, hmissing, heq⟩, hshort⟩ := h
  rw [List.length_append] at hshort
  have hread : ∀ {behind}, input.toList.drop pos = part ++ behind → behind ++ missing = rest →
      ∃ mid, Reads input pos part mid ∧ BreaksOff input mid rest := by
    intro behind hdrop hrest
    have hbehind : input.toList.drop (pos + part.length) = behind := by
      rw [← List.drop_drop, hdrop, List.drop_left]
    have hreads : Reads input pos part (pos + part.length) := ⟨rfl, by rw [hbehind, hdrop]⟩
    refine ⟨_, hreads, hreads.stop_le hpos, ⟨missing, hmissing, ?_⟩, by omega⟩
    rw [hbehind, hrest]
  rcases List.append_eq_append_iff.mp heq with ⟨more, hpart, hrest⟩ | ⟨behind, hdrop, hrest⟩
  · by_cases hmore : more = []
    · subst hmore
      rw [List.append_nil] at hpart
      have hrest : [] ++ missing = rest := hrest
      exact .inr (hread (by rw [hpart, List.append_nil]) hrest)
    · exact .inl ⟨hpos, ⟨more, hmore, hpart.symm⟩, by omega⟩
  · exact .inr (hread hdrop hrest.symm)

/-- What the input reads is not all of it. -/
theorem isPrefix_of_reads (h : BreaksOff input pos doc) (hreads : Reads input pos part stop) :
    part <+: doc ∧ part ≠ doc := by
  obtain ⟨_, ⟨missing, hmissing, rfl⟩, _⟩ := h
  rw [hreads.rest, List.append_assoc]
  refine ⟨List.prefix_append _ _, fun heq => ?_⟩
  have hnil := List.self_eq_append_right.mp heq
  exact hmissing (List.append_eq_nil_iff.mp hnil).2

/-- A byte breaks off where the input ends. -/
theorem eq_size {b : UInt8} (h : BreaksOff input pos [b]) : pos = input.size := by
  obtain ⟨hpos, ⟨missing, hmissing, heq⟩, _⟩ := h
  have hlength := congrArg List.length heq
  have hpositive := List.length_pos_iff.mpr hmissing
  simp only [List.length_append, List.length_drop, Array.length_toList, List.length_singleton]
    at hlength
  omega

/-- At least the first byte is there, if any is. -/
theorem of_head {b c : UInt8} (h : BreaksOff input pos (b :: rest)) (hc : input[pos]? = some c) :
    c = b ∧ BreaksOff input (pos + 1) rest := by
  have hsplit : BreaksOff input pos ([b] ++ rest) := h
  rcases hsplit.split with hbroken | ⟨mid, hreads, hrest⟩
  · rw [hbroken.eq_size, Array.getElem?_eq_none (Nat.le_refl _)] at hc
    cases hc
  · obtain ⟨hb, rfl⟩ := Reads.byte_iff.mp hreads
    rw [hc] at hb
    exact ⟨Option.some.inj hb, hrest⟩

end BreaksOff

/-! ## Repetitions that break off -/

/-- Elements in a row that break off are read up to the one that does. It fails, and so
does the element at the end of the input, which is where only the byte behind them is
missing. -/
theorem rounds_of_breaksOff {R : Judgement} {id : NodeId} {X : Type}
    {P : X → List UInt8 → Prop} {token : X → Token} {closing : UInt8}
    (hP : ∀ x part, P x part → part ≠ [])
    (hR : ∀ p t next, R id p (.matched t next) ↔
      ∃ x part, P x part ∧ t = token x ∧ Reads input p part next)
    (hbroken : ∀ x part p, P x part → BreaksOff input p part →
      ∃ failure, R id p (.failed failure))
    (hend : ∃ failure, R id input.size (.failed failure))
    {xs : List X} {body : List UInt8} (hstrung : Strung P xs body)
    (h : BreaksOff input pos (body ++ [closing])) :
    ∃ tokens stop, Rounds R id 0 none 0 pos tokens stop := by
  have hread : ∃ ys front, ∃ stop, Strung P ys front ∧ Reads input pos front stop ∧
      ∃ failure, R id stop (.failed failure) := by
    induction hstrung generalizing pos with
    | nil =>
        obtain rfl := h.eq_size
        exact ⟨[], [], _, .nil, .nil, hend⟩
    | @cons x xs part rest hpart _ ih =>
        rw [List.append_assoc] at h
        rcases h.split with hbreaks | ⟨mid, hreads, hrest⟩
        · exact ⟨[], [], pos, .nil, .nil, hbroken x part pos hpart hbreaks⟩
        · obtain ⟨ys, front, stop, hfront, hreads', hfails⟩ := ih hrest
          exact ⟨x :: ys, part ++ front, stop, .cons hpart hfront, hreads.append hreads', hfails⟩
  obtain ⟨ys, front, stop, hfront, hreads, hfails⟩ := hread
  exact ⟨_, stop, (rounds_iff hP hR).mpr ⟨ys, front, hfront, rfl, hreads, hfails⟩⟩

end Packrat.Semantics
