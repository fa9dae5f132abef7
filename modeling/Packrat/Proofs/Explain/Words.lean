import Packrat.Proofs.Explain.Hearing

/-!
# What an explainer makes of the events of a walk

An explainer does not know which position its list will be about. It keeps the list of
the furthest failure so far, and begins a new one when a node fails further on, so it
hears of each position as long as nothing is known to fail beyond it. At such a position
its list, `expectedAt`, is what the hearing of that position has.

The explainer has frames where the hearing has lists. A frame says how long the list was,
and that is enough: inside a node the list only grows (`Expects.grows`), so what it was is
the front of what it is.

A walk that gives up leaves its nodes open. Its events are finished visits and then,
perhaps, a node with the same inside; an explainer has followed them as far as they go.
-/

namespace Packrat

/-! ## Words that were cut off -/

/-- The events of nodes one after another, of which the last may be unfinished. -/
inductive Unfinished (memoize : Bool) : Nat → List Event → Prop where
  | between {depth word} : Visits memoize depth word → Unfinished memoize depth word
  | inside {id pos depth word inner} : Visits memoize depth word →
      Unfinished memoize (depth + 1) inner →
      Unfinished memoize depth (word ++ .enter id pos depth :: inner)

theorem Visits.append_unfinished {memoize : Bool} {depth : Nat} {word rest : List Event}
    (h : Visits memoize depth word) (h' : Unfinished memoize depth rest) :
    Unfinished memoize depth (word ++ rest) := by
  cases h' with
  | between hrest => exact .between (h.append hrest)
  | inside hrest hinner =>
      rw [← List.append_assoc]
      exact .inside (h.append hrest) hinner

section Unfinished

variable {g : Grammar} {position : Nat} {labels : List String} {memoize : Bool} {depth : Nat}
  {word inner : List Event}

/-- Nothing that was kept from before is looked at. -/
theorem Unfinished.foldl_labels (h : Unfinished memoize depth word) :
    ∀ labels kept, (word.foldl (Hearing.hear g position) ⟨labels, kept⟩).labels =
      heard g position labels word := by
  induction h with
  | between hword => intro labels kept; rw [hword.steady labels kept]
  | @inside id pos depth word inner hword _ ih =>
      intro labels kept
      have hopen : ∀ kept, (word ++ .enter id pos depth :: inner).foldl
          (Hearing.hear g position) ⟨labels, kept⟩ = inner.foldl (Hearing.hear g position)
            ⟨heard g position labels word, heard g position labels word :: kept⟩ := by
        intro kept
        rw [List.foldl_append, hword.steady labels kept]
        rfl
      rw [heard, hopen kept, hopen [], ih, ih]

/-- In a node that was left open, what is expected is what the inside makes of what was
expected before the node. -/
theorem Unfinished.heard_enter (h : Unfinished memoize (depth + 1) inner) (id : NodeId)
    (pos : Nat) :
    heard g position labels (.enter id pos depth :: inner) = heard g position labels inner :=
  h.foldl_labels labels [labels]

end Unfinished

namespace Explainer

/-! ## Positions -/

/-- The furthest position after several refusals. -/
def reached (furthest : Option Nat) (rs : List Refusal) : Option Nat :=
  rs.foldl (fun furthest r => some (max (furthest.getD 0) r.position)) furthest

/-- Nothing fails beyond `limit`. -/
def NoFurther (furthest : Option Nat) (limit : Nat) : Prop := ∀ f ∈ furthest, f ≤ limit

theorem noFurther_some {f limit : Nat} : NoFurther (some f) limit ↔ f ≤ limit := by
  simp [NoFurther]

theorem reached_append (furthest : Option Nat) (rs later : List Refusal) :
    reached furthest (rs ++ later) = reached (reached furthest rs) later :=
  List.foldl_append

theorem noFurther_reached {rs : List Refusal} {limit : Nat} : ∀ {furthest : Option Nat},
    NoFurther (reached furthest rs) limit ↔
      NoFurther furthest limit ∧ ∀ r ∈ rs, r.position ≤ limit := by
  induction rs with
  | nil => intro furthest; simp [reached]
  | cons r rest ih =>
      intro furthest
      show NoFurther (reached (some (max (furthest.getD 0) r.position)) rest) limit ↔ _
      rw [ih, noFurther_some, Nat.max_le, List.forall_mem_cons, and_assoc]
      refine and_congr_left fun _ => ?_
      cases furthest with
      | none => simp [NoFurther]
      | some f => exact noFurther_some.symm

theorem reached_some (rs : List Refusal) :
    ∀ f, reached (some f) rs = some ((rs.map Refusal.position).foldl max f) := by
  induction rs with
  | nil => intro f; rfl
  | cons r rest ih => intro f; exact ih (max f r.position)

/-- From the start on, the furthest position is the greatest one. -/
theorem reached_none (rs : List Refusal) :
    reached none rs = (rs.map Refusal.position).max? := by
  cases rs with
  | nil => rfl
  | cons r rest =>
      show reached (some (max 0 r.position)) rest = _
      rw [reached_some, Nat.zero_max]
      rfl

theorem eq_none_of_reached {furthest : Option Nat} {rs : List Refusal}
    (h : reached furthest rs = none) : furthest = none := by
  cases furthest with
  | none => rfl
  | some f => rw [reached_some] at h; cases h

/-- It depends on nothing but on which refusals there were. -/
theorem reached_eq_of_same {rs rs' : List Refusal} (h : ∀ r, r ∈ rs ↔ r ∈ rs') :
    reached none rs = reached none rs' := by
  rw [reached_none, reached_none]
  refine Option.ext fun f => ?_
  simp only [List.max?_eq_some_iff, List.mem_map, h]

/-! ## Single events -/

/-- What is expected at a position, as far as is known. -/
def expectedAt (x : Explainer) (position : Nat) : List String :=
  if x.furthest = some position then x.expected else []

variable {g : Grammar} {input : List UInt8} {x y z : Explainer} {frame : Frame}
  {rest : List Frame} {node : NodeId} {tried position limit : Nat}

theorem expect_eq (x : Explainer) (label : String) :
    x.expect label = { x with expected := once x.expected label } := by
  unfold expect once
  split <;> rfl

theorem note_eq (x : Explainer) (g : Grammar) (frame : Frame) (node : NodeId)
    (tried position : Nat) :
    x.note g frame node tried position = { x with
      expected := noted g node tried position
        (x.expected.take (if frame.furthest = some position then frame.mark else 0))
        x.expected } := by
  unfold note noted
  cases g.name? node with
  | some name =>
      by_cases hlt : tried < position
      · simp only [if_pos hlt]
      · simp only [if_neg hlt, expect_eq]
  | none =>
      simp only [expect_eq]
      split <;> rfl

/-- What a failure does to an explainer that has the node's frame. -/
theorem failed_eq (hgrammar : x.grammar = some g) (hstack : x.stack = frame :: rest) :
    x.failed node tried position = { x with
      stack := rest
      furthest := some (max (x.furthest.getD 0) position)
      expected := if x.furthest.any (position < ·) then x.expected else
        noted g node tried position
          ((x.expectedAt position).take (if frame.furthest = some position then frame.mark else 0))
          (x.expectedAt position) } := by
  unfold failed expectedAt
  simp only [hstack, hgrammar]
  cases hfurthest : x.furthest with
  | none => simp [note_eq]
  | some f =>
      by_cases hlt : position < f
      · have hmax : max f position = f := by omega
        simp [hlt, hmax]
      · have hmax : max f position = position := by omega
        by_cases heq : f = position
        · subst heq
          simp [note_eq]
        · simp [hlt, note_eq, hmax, heq]

/-- A failure is heard at its own position, and at those that nothing fails beyond. -/
theorem expectedAt_failed (hgrammar : x.grammar = some g) (hstack : x.stack = frame :: rest)
    (hbefore : NoFurther x.furthest limit) (hle : position ≤ limit) :
    (x.failed node tried position).expectedAt limit =
      if position = limit then
        noted g node tried limit ((x.expectedAt limit).take
          (if frame.furthest = some limit then frame.mark else 0)) (x.expectedAt limit)
      else x.expectedAt limit := by
  rw [failed_eq hgrammar hstack]
  by_cases heq : position = limit
  · subst heq
    have hnot : x.furthest.any (position < ·) = false := by
      cases hfurthest : x.furthest with
      | none => rfl
      | some f =>
          rw [hfurthest, noFurther_some] at hbefore
          simpa using hbefore
    have hmax : max (x.furthest.getD 0) position = position := by
      refine Nat.max_eq_right ?_
      cases hfurthest : x.furthest with
      | none => exact Nat.zero_le _
      | some f =>
          rw [hfurthest, noFurther_some] at hbefore
          exact hbefore
    simp only [expectedAt, hmax, if_true, hnot, Bool.false_eq_true, if_false]
  · rw [if_neg heq]
    cases hfurthest : x.furthest with
    | none => simp [expectedAt, hfurthest, heq]
    | some f =>
        rw [hfurthest, noFurther_some] at hbefore
        by_cases hf : f = limit
        · subst hf
          have hlt : position < f := by omega
          have hmax : max f position = f := by omega
          simp [expectedAt, hmax, hfurthest, hlt]
        · have hmax : max f position ≠ limit := by omega
          simp [expectedAt, hmax, hfurthest, hf]

/-! ## Words -/

/-- What an explainer knows after a word, seen from before. -/
structure Learns (g : Grammar) (word : List Event) (x y : Explainer) : Prop where
  grammar : y.grammar = x.grammar
  input : y.input = x.input
  furthest : y.furthest = reached x.furthest (refusals word)
  unheard : y.furthest = none → y.expected = x.expected
  expects : ∀ position, NoFurther y.furthest position →
    y.expectedAt position = heard g position (x.expectedAt position) word

theorem watch_append (x : Explainer) (g : Grammar) (input : List UInt8)
    (events later : List Event) :
    x.watch g input (events ++ later) = (x.watch g input events).watch g input later :=
  List.foldl_append

theorem Learns.append {word later : List Event} {memoize : Bool} {depth : Nat}
    (hvisits : Visits memoize depth word) (h : Learns g word x y) (h' : Learns g later y z) :
    Learns g (word ++ later) x z where
  grammar := h'.grammar.trans h.grammar
  input := h'.input.trans h.input
  furthest := by rw [h'.furthest, h.furthest, refusals_append, reached_append]
  unheard hnone := by
    rw [h'.unheard hnone]
    rw [h'.furthest] at hnone
    exact h.unheard (eq_none_of_reached hnone)
  expects position hlimit := by
    have hfirst : NoFurther y.furthest position := by
      rw [h'.furthest] at hlimit
      exact (noFurther_reached.mp hlimit).1
    rw [h'.expects position hlimit, h.expects position hfirst, heard_append hvisits]

theorem learns_refl (x : Explainer) : Learns g [] x x :=
  ⟨rfl, rfl, rfl, fun _ => rfl, fun _ _ => rfl⟩

/-- Entering a node changes nothing that is expected. -/
theorem expectedAt_enter (x : Explainer) (position : Nat) :
    x.enter.expectedAt position = x.expectedAt position := rfl

/-- The frame of a node says what was expected when it was entered. -/
theorem take_frame {labels : List String} (h : x.expectedAt position <+: labels) :
    labels.take (if x.furthest = some position then x.expected.length else 0) =
      x.expectedAt position := by
  unfold expectedAt at h ⊢
  split
  · next hat =>
      rw [if_pos hat] at h
      exact (List.prefix_iff_eq_take.mp h).symm
  · rfl

theorem learns_around {memoize : Bool} {id : NodeId} {pos depth : Nat} {inner : List Event}
    {exit : Event} (hinside : Inside memoize id pos depth inner)
    (hexit : Closes id pos depth exit) (hgrammar : x.grammar = some g)
    (h : Learns g inner x.enter y) (hstack : y.stack = x.enter.stack) :
    Learns g (.enter id pos depth :: (inner ++ [exit])) x (observe g input y exit) ∧
      (observe g input y exit).stack = x.stack := by
  have hown : y.grammar = some g := h.grammar.trans hgrammar
  cases hexit with
  | matched =>
      refine ⟨⟨h.grammar, h.input, ?_, h.unheard, fun position hlimit => ?_⟩, ?_⟩
      · rw [refusals_around]
        exact h.furthest.trans (congrArg _ (List.append_nil _).symm)
      · rw [heard_around hinside .matched]
        exact h.expects position hlimit
      · show y.stack.tail = _
        rw [hstack]
        rfl
  | @failed kind stopped =>
      have hframe : y.stack = ⟨x.expected.length, x.furthest⟩ :: x.stack := hstack
      show Learns g _ x (y.failed id pos stopped) ∧ (y.failed id pos stopped).stack = _
      have hfailed := @failed_eq g y _ _ id pos stopped hown hframe
      refine ⟨⟨?_, ?_, ?_, fun hnone => ?_, fun position hlimit => ?_⟩, ?_⟩
      · rw [hfailed]
        exact h.grammar
      · rw [hfailed]
        exact h.input
      · rw [hfailed, refusals_around, reached_append]
        show some (max (y.furthest.getD 0) stopped) = _
        rw [h.furthest]
        rfl
      · rw [hfailed] at hnone
        cases hnone
      · rw [hfailed] at hlimit
        have hboth := Nat.max_le.mp (noFurther_some.mp hlimit)
        have hbefore : NoFurther y.furthest position := fun f hf => by
          rw [Option.mem_def.mp hf] at hboth
          exact hboth.1
        have hinner := h.expects position hbefore
        rw [expectedAt_enter] at hinner
        have hgrows : x.expectedAt position <+: y.expectedAt position := by
          rw [hinner]
          exact (hinside.expects g position).grows _
        rw [expectedAt_failed hown hframe hbefore hboth.2, take_frame hgrows, hinner,
          heard_around hinside .failed]
        rfl
      · rw [hfailed]

/-- An explainer that follows visits has heard of them, and is back at its frames. -/
theorem learns_of_visits {memoize : Bool} {depth : Nat} {word : List Event}
    (h : Visits memoize depth word) :
    ∀ x : Explainer, x.grammar = some g →
      Learns g word x (x.watch g input word) ∧ (x.watch g input word).stack = x.stack := by
  refine Visits.induct (P := fun _ word => ∀ x : Explainer, x.grammar = some g →
    Learns g word x (x.watch g input word) ∧ (x.watch g input word).stack = x.stack) ?_ ?_ ?_ ?_ h
  · exact fun _ x _ => ⟨learns_refl x, rfl⟩
  · intro _ word later hvisits _ hword hlater x hgrammar
    obtain ⟨hfirst, hstack⟩ := hword x hgrammar
    obtain ⟨hsecond, hstack'⟩ := hlater _ (hfirst.grammar.trans hgrammar)
    rw [watch_append]
    exact ⟨hfirst.append hvisits hsecond, hstack'.trans hstack⟩
  · exact fun _ _ _ x _ => ⟨⟨rfl, rfl, rfl, fun _ => rfl, fun _ _ => rfl⟩, rfl⟩
  · intro id pos depth inner exit hinside hinner hexit x hgrammar
    obtain ⟨hlearns, hstack⟩ := hinner x.enter hgrammar
    have hwatch : x.watch g input (.enter id pos depth :: (inner ++ [exit])) =
        observe g input (x.enter.watch g input inner) exit :=
      watch_append x.enter g input inner [exit]
    rw [hwatch]
    exact learns_around hinside hexit hgrammar hlearns hstack

/-- An explainer has followed a word that was cut off as far as it goes. -/
theorem learns_of_unfinished {memoize : Bool} {depth : Nat} {word : List Event}
    (h : Unfinished memoize depth word) :
    ∀ x : Explainer, x.grammar = some g → Learns g word x (x.watch g input word) := by
  induction h with
  | between hword => exact fun x hgrammar => (learns_of_visits hword x hgrammar).1
  | @inside id pos depth word inner hword hinner ih =>
      intro x hgrammar
      have hfirst : Learns g word x (x.watch g input word) :=
        (learns_of_visits hword x hgrammar).1
      have hopen := ih (x.watch g input word).enter (hfirst.grammar.trans hgrammar)
      rw [watch_append]
      refine hfirst.append hword
        ⟨hopen.grammar, hopen.input, hopen.furthest, hopen.unheard, ?_⟩
      intro position hlimit
      rw [hinner.heard_enter]
      exact hopen.expects position hlimit

end Explainer

end Packrat
