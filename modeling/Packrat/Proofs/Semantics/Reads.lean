import Packrat.Proofs.Semantics.Levels

/-!
# From nodes to byte strings

The rules speak of positions. A format is better described by the byte strings
it allows, and `Reads` is the way from one to the other: the input has this byte
string from here to there. It splits where byte strings are put together, so a
rule about members in a row becomes a statement about a concatenation.

A repetition takes one more step. It goes on for as long as its element matches,
so what it reads is one byte string after another, and then something at which
the element fails (`rounds_iff`).
-/

namespace Packrat.Semantics

open Walk

variable {input : Array UInt8} {pos stop : Nat}

/-- The input has `part` from `pos` to `stop`. -/
structure Reads (input : Array UInt8) (pos : Nat) (part : List UInt8) (stop : Nat) :
    Prop where
  stop_eq : stop = pos + part.length
  rest : input.toList.drop pos = part ++ input.toList.drop stop

namespace Reads

variable {part part' : List UInt8}

theorem nil : Reads input pos [] pos := ⟨rfl, rfl⟩

theorem eq_of_nil (h : Reads input pos [] stop) : stop = pos := h.stop_eq

theorem append {mid : Nat} (h : Reads input pos part mid) (h' : Reads input mid part' stop) :
    Reads input pos (part ++ part') stop := by
  constructor
  · rw [h'.stop_eq, h.stop_eq, List.length_append]
    omega
  · rw [h.rest, h'.rest, List.append_assoc]

theorem split (h : Reads input pos (part ++ part') stop) :
    ∃ mid, Reads input pos part mid ∧ Reads input mid part' stop := by
  have hstop := h.stop_eq
  have hrest := h.rest
  have hmid : input.toList.drop (pos + part.length) = part' ++ input.toList.drop stop := by
    rw [← List.drop_drop, hrest, List.append_assoc, List.drop_left]
  refine ⟨pos + part.length, ⟨rfl, ?_⟩, ⟨?_, hmid⟩⟩
  · rw [hrest, hmid, List.append_assoc]
  · rw [hstop, List.length_append]
    omega

theorem append_iff :
    Reads input pos (part ++ part') stop ↔
      ∃ mid, Reads input pos part mid ∧ Reads input mid part' stop :=
  ⟨split, fun ⟨_, h, h'⟩ => h.append h'⟩

theorem byte_iff {b : UInt8} :
    Reads input pos [b] stop ↔ input[pos]? = some b ∧ stop = pos + 1 := by
  constructor
  · intro h
    refine ⟨?_, h.stop_eq⟩
    rw [← Array.getElem?_toList, ← List.head?_drop, h.rest]
    rfl
  · rintro ⟨hb, rfl⟩
    refine ⟨rfl, ?_⟩
    obtain ⟨hlt, rfl⟩ := Array.getElem?_eq_some_iff.mp hb
    rw [List.drop_eq_getElem_cons (by simpa using hlt)]
    simp

theorem cons_iff {b : UInt8} :
    Reads input pos (b :: part) stop ↔
      input[pos]? = some b ∧ Reads input (pos + 1) part stop := by
  rw [← List.singleton_append, append_iff]
  constructor
  · rintro ⟨mid, h, h'⟩
    obtain ⟨hb, rfl⟩ := byte_iff.mp h
    exact ⟨hb, h'⟩
  · rintro ⟨hb, h'⟩
    exact ⟨pos + 1, byte_iff.mpr ⟨hb, rfl⟩, h'⟩

theorem head {b : UInt8} (h : Reads input pos (b :: part) stop) : input[pos]? = some b :=
  (cons_iff.mp h).1

theorem unique (h : Reads input pos part stop) (h' : Reads input pos part' stop) :
    part = part' := by
  have hrest := h.rest.symm.trans h'.rest
  exact List.append_cancel_right hrest

theorem whole : Reads input 0 input.toList input.size := by
  constructor
  · simp
  · simp

theorem stop_le (h : Reads input pos part stop) (hpos : pos ≤ input.size) :
    stop ≤ input.size := by
  have hlength := congrArg List.length h.rest
  have hstop := h.stop_eq
  simp only [List.length_drop, List.length_append, Array.length_toList] at hlength
  omega

theorem length_le (h : Reads input pos part stop) : part.length ≤ input.size := by
  have hlength := congrArg List.length h.rest
  simp only [List.length_drop, List.length_append, Array.length_toList] at hlength
  omega

theorem slice {count : Nat} (h : pos + count ≤ input.size) :
    Reads input pos (slice input pos count) (pos + count) := by
  have hslice : Walk.slice input pos count = (input.toList.drop pos).take count := by
    rw [Walk.slice, Array.toList_extract, List.extract, Nat.add_sub_cancel_left]
  constructor
  · rw [hslice, List.length_take_of_le (by simp; omega)]
  · rw [hslice, ← List.drop_drop, List.take_append_drop]

/-- A slice is what the input has there. -/
theorem slice_iff {count : Nat} (hpos : pos ≤ input.size) :
    pos + count ≤ input.size ∧ part = Walk.slice input pos count ∧ stop = pos + count ↔
      part.length = count ∧ Reads input pos part stop := by
  constructor
  · rintro ⟨hfits, rfl, rfl⟩
    have hreads := slice hfits
    have hstop := hreads.stop_eq
    exact ⟨by omega, hreads⟩
  · rintro ⟨rfl, hreads⟩
    have hstop := hreads.stop_eq
    have hfits : pos + part.length ≤ input.size := hstop ▸ hreads.stop_le hpos
    have hslice := slice hfits
    rw [← hstop] at hslice
    exact ⟨hfits, hreads.unique hslice, hstop⟩

end Reads

/-- The byte at `pos`, if there is one, does not pass the test. -/
def EndsAt (input : Array UInt8) (test : UInt8 → Bool) (pos : Nat) : Prop :=
  ∀ b, input[pos]? = some b → test b = false

theorem EndsAt.of_head {test : UInt8 → Bool} {b : UInt8} (h : input[pos]? = some b)
    (hb : test b = false) : EndsAt input test pos := by
  intro c hc
  rw [h] at hc
  cases hc
  exact hb

theorem EndsAt.at_end (test : UInt8 → Bool) : EndsAt input test input.size := by
  intro b hb
  rw [Array.getElem?_eq_none (Nat.le_refl _)] at hb
  cases hb

/-! ## Members and alternatives, one at a time -/

section Lists

variable {R : Judgement} {id : NodeId} {ids : List NodeId}

theorem members_nil_iff {tokens : List Token} :
    Members R [] pos tokens stop ↔ tokens = [] ∧ stop = pos := by
  constructor
  · rintro ⟨⟩
    exact ⟨rfl, rfl⟩
  · rintro ⟨rfl, rfl⟩
    exact .nil

theorem members_cons_iff {tokens : List Token} :
    Members R (id :: ids) pos tokens stop ↔
      ∃ token next more, R id pos (.matched token next) ∧ Members R ids next more stop ∧
        tokens = token :: more := by
  constructor
  · intro h
    cases h with
    | cons hstep hrest => exact ⟨_, _, _, hstep, hrest, rfl⟩
  · rintro ⟨token, next, more, hstep, hrest, rfl⟩
    exact .cons hstep hrest

theorem firstMatches_cons_iff {token : Token} :
    FirstMatches R (id :: ids) pos token stop ↔ R id pos (.matched token stop) ∨
      (∃ failure, R id pos (.failed failure)) ∧ FirstMatches R ids pos token stop := by
  constructor
  · intro h
    cases h with
    | here hstep => exact .inl hstep
    | later hstep hrest => exact .inr ⟨⟨_, hstep⟩, hrest⟩
  · rintro (hstep | ⟨⟨_, hstep⟩, hrest⟩)
    · exact .here hstep
    · exact .later hstep hrest

theorem not_firstMatches_nil {token : Token} : ¬ FirstMatches R [] pos token stop := by
  rintro ⟨⟩

theorem FirstMatches.exists_mem {token : Token} (h : FirstMatches R ids pos token stop) :
    ∃ id ∈ ids, R id pos (.matched token stop) := by
  induction h with
  | here hstep => exact ⟨_, List.mem_cons_self, hstep⟩
  | later _ _ ih =>
      obtain ⟨id, hid, hstep⟩ := ih
      exact ⟨id, List.mem_cons_of_mem _ hid, hstep⟩

/-! ## Rounds -/

/-- Each token of a repetition is one that its element matches with. -/
theorem Rounds.forall_mem {min count : Nat} {max : Option Nat} {tokens : List Token}
    {P : Token → Prop}
    (hR : ∀ p token next, R id p (.matched token next) → P token)
    (h : Rounds R id min max count pos tokens stop) : ∀ token ∈ tokens, P token := by
  induction h with
  | full | fails => exact nofun
  | stalls _ hstep _ => exact List.forall_mem_singleton.mpr (hR _ _ _ hstep)
  | round _ hstep _ _ ih => exact List.forall_mem_cons.mpr ⟨hR _ _ _ hstep, ih⟩

/-! ## Rounds of something that is read -/

/-- One byte string after another, each what `P` allows for the element. -/
inductive Strung {X : Type} (P : X → List UInt8 → Prop) : List X → List UInt8 → Prop where
  | nil : Strung P [] []
  | cons {x xs part rest} : P x part → Strung P xs rest → Strung P (x :: xs) (part ++ rest)

/-- An unbounded repetition of a node that reads something each time goes on until
the node fails. -/
theorem rounds_iff {X : Type} {P : X → List UInt8 → Prop} {token : X → Token} {min : Nat}
    (hP : ∀ x part, P x part → part ≠ [])
    (hR : ∀ p t next, R id p (.matched t next) ↔
      ∃ x part, P x part ∧ t = token x ∧ Reads input p part next) :
    ∀ {count pos : Nat} {tokens : List Token} {stop : Nat},
      Rounds R id min none count pos tokens stop ↔
        ∃ xs parts, Strung P xs parts ∧ tokens = xs.map token ∧ Reads input pos parts stop ∧
          ∃ failure, R id stop (.failed failure) := by
  -- so no round stalls, and only a failure ends the repetition
  have hmoves : ∀ p t next, R id p (.matched t next) → next ≠ p := by
    intro p t next hstep
    obtain ⟨x, part, hpart, _, hreads⟩ := (hR p t next).mp hstep
    have hlength := List.length_pos_iff.mpr (hP x part hpart)
    have hnext := hreads.stop_eq
    omega
  intro count pos tokens stop
  constructor
  · intro h
    induction h with
    | full hmax => cases hmax
    | fails _ hstep => exact ⟨[], [], .nil, rfl, .nil, _, hstep⟩
    | stalls _ hstep => exact absurd rfl (hmoves _ _ _ hstep)
    | round _ hstep _ _ ih =>
        obtain ⟨x, part, hpart, rfl, hreads⟩ := (hR _ _ _).mp hstep
        obtain ⟨xs, parts, hstrung, rfl, hreads', hfails⟩ := ih
        exact ⟨x :: xs, part ++ parts, .cons hpart hstrung, rfl, hreads.append hreads', hfails⟩
  · rintro ⟨xs, parts, hstrung, rfl, hreads, failure, hfails⟩
    induction hstrung generalizing pos count with
    | nil =>
        cases hreads.eq_of_nil
        exact .fails (fun _ => nofun) hfails
    | cons hpart _ ih =>
        obtain ⟨mid, hreads, hreads'⟩ := hreads.split
        have hstep := (hR _ _ _).mpr ⟨_, _, hpart, rfl, hreads⟩
        exact .round (fun _ => nofun) hstep (.inl (hmoves _ _ _ hstep)) (ih hreads')

end Lists

end Packrat.Semantics
