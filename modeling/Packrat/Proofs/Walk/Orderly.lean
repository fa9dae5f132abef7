import Mathlib.Data.Finset.Prod
import Packrat.Proofs.Semantics.Rules
import Packrat.Proofs.Walk.Brackets

/-!
# Words in which each node is evaluated once

What remembering answers comes to can be said of the events alone. The first time that
a node is entered at a position it is evaluated: other nodes are tried inside, never
itself at the same position, and it is left with its answer. Every other time there is
a hit and the same answer. `Orderly` says so of a word, given what was known before
it, so that words in order can be put one after another and one inside another.

Counting comes last. In a word in order that begins with nothing known, the list of
evaluations has no pair of node and position twice, and there are only so many pairs.
-/

namespace Packrat

/-! ## Words in order -/

/-- The node is entered at this position somewhere among the events. -/
def Entered (id : NodeId) (pos : Nat) (events : List Event) : Prop :=
  ∃ depth, .enter id pos depth ∈ events

theorem entered_append {id : NodeId} {pos : Nat} {events later : List Event} :
    Entered id pos (events ++ later) ↔ Entered id pos events ∨ Entered id pos later := by
  simp only [Entered, List.mem_append, exists_or]

theorem entered_enter_cons {id id' : NodeId} {pos pos' depth : Nat} {events : List Event} :
    Entered id pos (.enter id' pos' depth :: events) ↔
      (id = id' ∧ pos = pos') ∨ Entered id pos events := by
  simp only [Entered, List.mem_cons, exists_or, Event.enter.injEq]
  simp only [exists_and_left, exists_eq, and_true]

theorem not_entered_nil {id : NodeId} {pos : Nat} : ¬ Entered id pos [] := by
  rintro ⟨_, h⟩
  cases h

theorem Closes.not_enter {id id' : NodeId} {pos pos' depth depth' : Nat} {event : Event}
    (h : Closes id pos depth event) : event ≠ .enter id' pos' depth' := by
  cases h <;> nofun

theorem not_entered_of_closes {id id' : NodeId} {pos pos' depth : Nat} {event : Event}
    (h : Closes id pos depth event) : ¬ Entered id' pos' [event] := by
  rintro ⟨_, hin⟩
  exact h.not_enter (List.mem_singleton.mp hin).symm

/-- A place in one word after another is a place in one of them. -/
theorem split_append {α : Type} {word word' before after : List α} {x : α}
    (h : word ++ word' = before ++ x :: after) :
    (∃ rest, word = before ++ x :: rest ∧ after = rest ++ word') ∨
      ∃ front, before = word ++ front ∧ word' = front ++ x :: after := by
  rcases List.append_eq_append_iff.mp h with ⟨front, hbefore, hword'⟩ | ⟨rest, hword, hafter⟩
  · exact .inr ⟨front, hbefore, hword'⟩
  · rcases List.cons_eq_append_iff.mp hafter with ⟨rfl, hword'⟩ | ⟨rest', rfl, hafter'⟩
    · exact .inr ⟨[], by rw [hword, List.append_nil, List.append_nil], hword'⟩
    · exact .inl ⟨rest', hword, hafter'⟩

/-- What follows when a node is entered whose answer is known: the hit, and the
answer. -/
def GivenAgain (id : NodeId) (pos depth : Nat) (step : Step) (after : List Event) : Prop :=
  ∃ rest, after = .memoHit id pos depth :: Walk.leaving id pos depth step :: rest

/-- What follows when a node is evaluated: other nodes are tried, this one at this
position not among them, and then it is left with its answer. -/
def FoundOut (id : NodeId) (pos depth : Nat) (step : Step) (after : List Event) : Prop :=
  ∃ inner rest, after = inner ++ Walk.leaving id pos depth step :: rest ∧
    Visits true (depth + 1) inner ∧ ¬ Entered id pos inner

/-- Each node that is entered yields its answer. It is given again if it was known
before, or the node was entered before, and otherwise it is found out. -/
def Orderly (g : Grammar) (input : Array UInt8) (known : NodeId → Nat → Prop)
    (word : List Event) : Prop :=
  ∀ before id pos depth after, word = before ++ .enter id pos depth :: after →
    ∃ step, Semantics.Yields g input id pos step ∧
      (known id pos ∨ Entered id pos before → GivenAgain id pos depth step after) ∧
      (¬ (known id pos ∨ Entered id pos before) → FoundOut id pos depth step after)

section Words

variable {g : Grammar} {input : Array UInt8} {known known' : NodeId → Nat → Prop}
  {word word' after : List Event} {id : NodeId} {pos depth : Nat} {step : Step}

theorem GivenAgain.append (h : GivenAgain id pos depth step after) (later : List Event) :
    GivenAgain id pos depth step (after ++ later) := by
  obtain ⟨rest, rfl⟩ := h
  exact ⟨rest ++ later, rfl⟩

theorem FoundOut.append (h : FoundOut id pos depth step after) (later : List Event) :
    FoundOut id pos depth step (after ++ later) := by
  obtain ⟨inner, rest, rfl, hinner, hnot⟩ := h
  exact ⟨inner, rest ++ later, by rw [List.append_assoc, List.cons_append], hinner, hnot⟩

theorem orderly_nil : Orderly g input known [] := by
  intro before id pos depth after h
  rw [eq_comm, List.append_eq_nil_iff] at h
  cases h.2

/-- A word goes on in order if what was entered in it is known from then on. -/
theorem Orderly.append (h : Orderly g input known word) (h' : Orderly g input known' word')
    (hknown : ∀ id pos, known' id pos ↔ known id pos ∨ Entered id pos word) :
    Orderly g input known (word ++ word') := by
  intro before id pos depth after hsplit
  rcases split_append hsplit with ⟨rest, hword, rfl⟩ | ⟨front, rfl, hword'⟩
  · obtain ⟨step, hstep, hagain, hfirst⟩ := h before id pos depth rest hword
    exact ⟨step, hstep, fun hk => (hagain hk).append word', fun hk => (hfirst hk).append word'⟩
  · obtain ⟨step, hstep, hagain, hfirst⟩ := h' front id pos depth after hword'
    rw [hknown, or_assoc, ← entered_append] at hagain hfirst
    exact ⟨step, hstep, hagain, hfirst⟩

theorem orderly_again (hstep : Semantics.Yields g input id pos step) (hknown : known id pos) :
    Orderly g input known
      [.enter id pos depth, .memoHit id pos depth, Walk.leaving id pos depth step] := by
  intro before id' pos' depth' after hsplit
  rcases List.cons_eq_append_iff.mp hsplit with ⟨rfl, heq⟩ | ⟨front, rfl, heq⟩
  · cases heq
    exact ⟨step, hstep, fun _ => ⟨[], rfl⟩, fun hnot => absurd (.inl hknown) hnot⟩
  · have hin : .enter id' pos' depth' ∈
        [.memoHit id pos depth, Walk.leaving id pos depth step] := by
      rw [heq]
      simp
    rcases List.mem_cons.mp hin with heq | hin
    · cases heq
    · exact absurd ⟨depth', hin⟩ (not_entered_of_closes (Walk.closes_leaving id pos depth step))

/-- A node that was evaluated, with what was tried for it in order. -/
theorem orderly_first (hstep : Semantics.Yields g input id pos step)
    (hunknown : ¬ known id pos) (hvisits : Visits true (depth + 1) word)
    (hword : Orderly g input known word) (hnot : ¬ Entered id pos word) :
    Orderly g input known (.enter id pos depth :: (word ++ [Walk.leaving id pos depth step])) := by
  intro before id' pos' depth' after hsplit
  rcases List.cons_eq_append_iff.mp hsplit with ⟨rfl, heq⟩ | ⟨front, rfl, heq⟩
  · cases heq
    refine ⟨step, hstep, fun hk => ?_, fun _ => ⟨word, [], rfl, hvisits, hnot⟩⟩
    exact absurd hk (not_or.mpr ⟨hunknown, not_entered_nil⟩)
  · rcases split_append heq with ⟨rest, hinner, rfl⟩ | ⟨front', rfl, hleave⟩
    · obtain ⟨step', hstep', hagain, hfirst⟩ := hword front id' pos' depth' rest hinner
      have hne : ¬ (id' = id ∧ pos' = pos) := by
        rintro ⟨rfl, rfl⟩
        exact hnot ⟨depth', by rw [hinner]; simp⟩
      rw [entered_enter_cons, or_iff_right hne]
      exact ⟨step', hstep', fun hk => (hagain hk).append _, fun hk => (hfirst hk).append _⟩
    · have hin : .enter id' pos' depth' ∈ [Walk.leaving id pos depth step] := by
        rw [hleave]
        simp
      exact absurd ⟨depth', hin⟩ (not_entered_of_closes (Walk.closes_leaving id pos depth step))

end Words

/-! ## Evaluations -/

def Event.isHit : Event → Bool
  | .memoHit _ _ _ => true
  | _ => false

/-- The nodes that are evaluated, with their positions, in the order in which they are
entered. A node that is entered and not hit is evaluated. -/
def evaluations : List Event → List (NodeId × Nat)
  | [] => []
  | .enter id pos _ :: rest =>
    if rest.head?.any Event.isHit then evaluations rest else (id, pos) :: evaluations rest
  | _ :: rest => evaluations rest

section Evaluations

variable {g : Grammar} {input : Array UInt8} {known : NodeId → Nat → Prop}
  {word after : List Event} {id : NodeId} {pos depth : Nat} {step : Step}

theorem GivenAgain.head_isHit (h : GivenAgain id pos depth step after) :
    after.head?.any Event.isHit = true := by
  obtain ⟨rest, rfl⟩ := h
  rfl

/-- What is tried inside begins with a node, if there is anything. -/
theorem Visits.head_not_hit {memoize : Bool} (h : Visits memoize depth word)
    {later : List Event} (hlater : later.head?.any Event.isHit = false) :
    (word ++ later).head?.any Event.isHit = false := by
  cases h with
  | nil => exact hlater
  | cons hvisit _ => cases hvisit <;> rfl

theorem FoundOut.head_not_hit (h : FoundOut id pos depth step after) :
    after.head?.any Event.isHit = false := by
  obtain ⟨inner, rest, rfl, hinner, _⟩ := h
  refine hinner.head_not_hit ?_
  cases step <;> rfl

theorem evaluations_of_hit (h : after.head?.any Event.isHit = true) :
    evaluations (.enter id pos depth :: after) = evaluations after := by
  rw [evaluations, if_pos h]

theorem evaluations_of_not_hit (h : after.head?.any Event.isHit = false) :
    evaluations (.enter id pos depth :: after) = (id, pos) :: evaluations after := by
  rw [evaluations, if_neg (by rw [h]; exact Bool.false_ne_true)]

/-- From any place on, each node that was not entered before is evaluated once at a
position, if it is entered at all, and no other is. -/
theorem evaluations_from (h : Orderly g input known word) (hknown : ∀ id pos, ¬ known id pos) :
    ∀ (suffix before : List Event), word = before ++ suffix →
      (evaluations suffix).Nodup ∧ ∀ id pos,
        (id, pos) ∈ evaluations suffix ↔ Entered id pos suffix ∧ ¬ Entered id pos before := by
  -- on what is left of the word: what came before decides whether a node is evaluated
  intro suffix
  induction suffix with
  | nil =>
      intro before _
      refine ⟨List.nodup_nil, fun id pos => ?_⟩
      exact iff_of_false List.not_mem_nil fun hin => not_entered_nil hin.1
  | cons event rest ih =>
      intro before hword
      obtain ⟨hnodup, hmem⟩ := ih (before ++ [event]) (by rw [hword]; simp)
      cases event with
      | enter id' pos' depth =>
          simp only [entered_append, entered_enter_cons, not_entered_nil, or_false] at hmem
          simp only [entered_enter_cons]
          obtain ⟨step, _, hagain, hfirst⟩ := h before id' pos' depth rest hword
          rw [or_iff_right (hknown id' pos')] at hagain hfirst
          by_cases hbefore : Entered id' pos' before
          · rw [evaluations_of_hit (hagain hbefore).head_isHit]
            refine ⟨hnodup, fun id pos => (hmem id pos).trans ?_⟩
            constructor
            · exact fun hin => ⟨.inr hin.1, fun hb => hin.2 (.inl hb)⟩
            · rintro ⟨⟨rfl, rfl⟩ | hin, hnot⟩
              · exact absurd hbefore hnot
              · refine ⟨hin, not_or.mpr ⟨hnot, ?_⟩⟩
                rintro ⟨rfl, rfl⟩
                exact hnot hbefore
          · rw [evaluations_of_not_hit (hfirst hbefore).head_not_hit]
            constructor
            · refine List.nodup_cons.mpr ⟨fun hin => ?_, hnodup⟩
              exact ((hmem id' pos').mp hin).2 (.inr ⟨rfl, rfl⟩)
            · intro id pos
              rw [List.mem_cons, Prod.mk.injEq, hmem]
              constructor
              · rintro (⟨rfl, rfl⟩ | ⟨hin, hnot⟩)
                · exact ⟨.inl ⟨rfl, rfl⟩, hbefore⟩
                · exact ⟨.inr hin, fun hb => hnot (.inl hb)⟩
              · rintro ⟨heq | hin, hnot⟩
                · exact .inl heq
                · by_cases heq : id = id' ∧ pos = pos'
                  · exact .inl heq
                  · exact .inr ⟨hin, not_or.mpr ⟨hnot, heq⟩⟩
      | _ =>
          refine ⟨hnodup, fun id pos => (hmem id pos).trans ?_⟩
          simp [Entered]

theorem length_evaluations_le (hnodup : (evaluations word).Nodup)
    (hentered : ∀ id pos, (id, pos) ∈ evaluations word →
      g.contains id = true ∧ pos ≤ input.size) :
    (evaluations word).length ≤ g.size * (input.size + 1) := by
  have hsub : (evaluations word).toFinset ⊆ g.ids.toFinset ×ˢ Finset.range (input.size + 1) := by
    rintro ⟨id, pos⟩ hin
    obtain ⟨hid, hpos⟩ := hentered id pos (List.mem_toFinset.mp hin)
    refine Finset.mem_product.mpr ⟨List.mem_toFinset.mpr ?_, Finset.mem_range.mpr (by omega)⟩
    exact Grammar.mem_ids_of_contains hid
  have hcard := Finset.card_le_card hsub
  rw [List.toFinset_card_of_nodup hnodup, Finset.card_product, Finset.card_range] at hcard
  refine Nat.le_trans hcard (Nat.mul_le_mul_right _ ?_)
  refine Nat.le_trans (List.toFinset_card_le _) ?_
  simp [Grammar.ids, Grammar.size]

end Evaluations

end Packrat
