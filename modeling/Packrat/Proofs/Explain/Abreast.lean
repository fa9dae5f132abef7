import Packrat.Proofs.Explain.Words
import Packrat.Proofs.Walk.Recital

/-!
# What is expected if answers are remembered

A plain parse and one that remembers pass through different events. Where the second is
given an answer again, it hears a single failure, if any, and the first hears everything
that the work consists of. Yet all of that has been heard before, and hearing it once more
adds nothing (`Expects.settled`): as a rule both expect the same.

The exception is a name. When a node with a name fails where it was tried, what its inside
brought is taken away again. Let an answer found inside be given again later on: the plain
parse hears all of it anew, and the one that remembers does not. `Withheld` says that this
happened. In any case the one that remembers expects nothing that the plain one does not,
and it expects something if the plain one does; `Abreast` keeps these together.

For that, each answer in the memory must have been heard of. `Recalls` says so: the plain
walk tells a word for it, the refusals in it have been told, and hearing it again would
change nothing, unless the answer was found beneath a name that took its place.
-/

namespace Packrat

/-! ## Answers that were found beneath a name -/

/-- The node is evaluated at the position: other nodes are tried for it. -/
def Evaluated (id : NodeId) (pos : Nat) (events : List Event) : Prop :=
  ∃ before depth inner exit after,
    events = before ++ .enter id pos depth :: (inner ++ exit :: after) ∧
      Visits true (depth + 1) inner ∧ Closes id pos depth exit

/-- The node is evaluated beneath a node with a name, which was tried at `position` and
failed there. -/
def FoundBeneath (g : Grammar) (position : Nat) (id : NodeId) (pos : Nat)
    (events : List Event) : Prop :=
  ∃ before node depth inner kind after,
    events = before ++ .enter node position depth ::
      (inner ++ .failed node position kind position depth :: after) ∧
    Visits true (depth + 1) inner ∧ (g.name? node).isSome ∧ Evaluated id pos inner

/-- An answer is given again that was found beneath such a node. -/
def Withheld (g : Grammar) (position : Nat) (events : List Event) : Prop :=
  ∃ before id pos depth after, events = before ++ .memoHit id pos depth :: after ∧
    FoundBeneath g position id pos before

section Found

variable {g : Grammar} {position : Nat} {id : NodeId} {pos : Nat} {events : List Event}

theorem Evaluated.append_left (h : Evaluated id pos events) (earlier : List Event) :
    Evaluated id pos (earlier ++ events) := by
  obtain ⟨before, depth, inner, exit, after, rfl, hvisits, hexit⟩ := h
  exact ⟨earlier ++ before, depth, inner, exit, after, by rw [List.append_assoc], hvisits, hexit⟩

theorem Evaluated.append_right (h : Evaluated id pos events) (later : List Event) :
    Evaluated id pos (events ++ later) := by
  obtain ⟨before, depth, inner, exit, after, rfl, hvisits, hexit⟩ := h
  exact ⟨before, depth, inner, exit, after ++ later, by simp, hvisits, hexit⟩

theorem FoundBeneath.append (h : FoundBeneath g position id pos events) (later : List Event) :
    FoundBeneath g position id pos (events ++ later) := by
  obtain ⟨before, node, depth, inner, kind, after, rfl, hrest⟩ := h
  exact ⟨before, node, depth, inner, kind, after ++ later, by simp, hrest⟩

theorem Withheld.append (h : Withheld g position events) (later : List Event) :
    Withheld g position (events ++ later) := by
  obtain ⟨before, id, pos, depth, after, rfl, hfound⟩ := h
  exact ⟨before, id, pos, depth, after ++ later, by simp, hfound⟩

theorem FoundBeneath.append_left (h : FoundBeneath g position id pos events)
    (earlier : List Event) : FoundBeneath g position id pos (earlier ++ events) := by
  obtain ⟨before, node, depth, inner, kind, after, rfl, hrest⟩ := h
  exact ⟨earlier ++ before, node, depth, inner, kind, after, by simp, hrest⟩

theorem Withheld.append_left (h : Withheld g position events) (earlier : List Event) :
    Withheld g position (earlier ++ events) := by
  obtain ⟨before, id, pos, depth, after, rfl, hfound⟩ := h
  exact ⟨earlier ++ before, id, pos, depth, after, by simp, hfound.append_left earlier⟩

end Found

/-! ## Depths do not matter -/

section Flat

variable {g : Grammar} {position : Nat} {word word' : List Event}

theorem heard_flat (labels : List String) (word : List Event) :
    heard g position labels (word.map Event.flat) = heard g position labels word := by
  have hflat : ∀ (h : Hearing) (event : Event),
      h.hear g position event.flat = h.hear g position event := by
    intro h event
    cases event <;> rfl
  simp only [heard, List.foldl_map, hflat]

theorem Alike.heard_eq (h : Alike word word') (labels : List String) :
    heard g position labels word = heard g position labels word' := by
  rw [← heard_flat, h, heard_flat]

theorem refusals_flat (word : List Event) : refusals (word.map Event.flat) = refusals word := by
  have hflat : Event.refusal? ∘ Event.flat = Event.refusal? := by
    funext event
    cases event <;> rfl
  rw [refusals, List.filterMap_map, hflat]
  rfl

theorem Alike.refusals_eq (h : Alike word word') : refusals word = refusals word' := by
  rw [← refusals_flat, h, refusals_flat]

end Flat

/-! ## Abreast -/

/-- A plain parse was told of `told` and expects `more`. One that remembers has passed
through `events` and expects `fewer`. -/
structure Abreast (g : Grammar) (position : Nat) (told : List Refusal) (more : List String)
    (events : List Event) (fewer : List String) : Prop where
  same : ∀ r, r ∈ refusals events ↔ r ∈ told
  silent : more = [] ↔ Silent g position told
  silent' : fewer = [] ↔ Silent g position (refusals events)
  subset : fewer ⊆ more
  equal : ¬ Withheld g position events → fewer = more

section Abreast

variable {g : Grammar} {position : Nat} {told : List Refusal} {more fewer : List String}
  {events : List Event} {memoize : Bool} {depth : Nat}

theorem abreast_start : Abreast g position [] [] [] [] where
  same _ := Iff.rfl
  silent := iff_of_true rfl (List.forall_mem_nil _)
  silent' := iff_of_true rfl (List.forall_mem_nil _)
  subset := List.Subset.refl _
  equal _ := rfl

theorem Abreast.nil_iff (h : Abreast g position told more events fewer) :
    fewer = [] ↔ more = [] := by
  rw [h.silent, h.silent']
  exact forall_congr' fun r => by rw [h.same]

/-- Going on, the plain parse through `word` and the other one through `word'`. -/
theorem Abreast.advance (h : Abreast g position told more events fewer)
    {word word' : List Event} {f f' : List String → List String}
    (hword : Expects g position (refusals word) f)
    (hword' : Expects g position (refusals word') f')
    (hsame : ∀ r, r ∈ told ∨ r ∈ refusals word' ↔ r ∈ told ∨ r ∈ refusals word)
    (hsubset : f' fewer ⊆ f more)
    (hequal : ¬ Withheld g position (events ++ word') → f' fewer = f more) :
    Abreast g position (told ++ refusals word) (f more) (events ++ word') (f' fewer) where
  same r := by
    rw [refusals_append, List.mem_append, List.mem_append, h.same, hsame]
  silent := by rw [hword.eq_nil_iff, h.silent, silent_append]
  silent' := by rw [hword'.eq_nil_iff, h.silent', refusals_append, silent_append]
  subset := hsubset
  equal := hequal

/-- Entering a node changes nothing that is heard. -/
theorem Abreast.enter (h : Abreast g position told more events fewer) (id : NodeId)
    (pos depth : Nat) :
    Abreast g position told more (events ++ [.enter id pos depth]) fewer where
  same r := by rw [refusals_append]; simpa using h.same r
  silent := h.silent
  silent' := by rw [refusals_append]; simpa using h.silent'
  subset := h.subset
  equal hnot := h.equal fun hwithheld => hnot (hwithheld.append _)

variable {id : NodeId} {pos : Nat} {exit : Event} {word : List Event}

/-- A node is left that was entered abreast, and its inside was passed through abreast. -/
theorem Abreast.leave (h : Abreast g position told more events fewer) {word' : List Event}
    (hword : Visits false (depth + 1) word) (hword' : Visits true (depth + 1) word')
    (hexit : Closes id pos depth exit)
    (hinner : Abreast g position (told ++ refusals word) (heard g position more word)
      (events ++ .enter id pos depth :: word') (heard g position fewer word')) :
    Abreast g position (told ++ refusals (.enter id pos depth :: (word ++ [exit])))
      (heard g position more (.enter id pos depth :: (word ++ [exit])))
      (events ++ .enter id pos depth :: (word' ++ [exit]))
      (heard g position fewer (.enter id pos depth :: (word' ++ [exit]))) := by
  have hmany := (hword.expects g position).around exit
  have hfew := (hword'.expects g position).around exit
  rw [← refusals_around id pos depth] at hmany hfew
  rw [heard_around (.inl hword) hexit, heard_around (.inl hword') hexit]
  refine h.advance hmany hfew ?_ ?_ ?_
  · intro r
    have hsame := hinner.same r
    rw [refusals_append, refusals_enter_cons, List.mem_append, List.mem_append, h.same] at hsame
    rw [refusals_around, refusals_around, List.mem_append, List.mem_append, ← or_assoc,
      ← or_assoc, hsame]
  · exact left_subset h.subset hinner.subset hinner.nil_iff
  · intro hnot
    have hbefore : fewer = more := h.equal fun hwithheld => hnot (hwithheld.append _)
    have hinside : heard g position fewer word' = heard g position more word := by
      refine hinner.equal fun hwithheld => hnot ?_
      have hlonger := hwithheld.append [exit]
      rwa [List.append_assoc, List.cons_append] at hlonger
    rw [hbefore, ← hinside, hbefore]

/-- A node's answer is given again. The plain parse hears the work on it once more. -/
theorem Abreast.again (h : Abreast g position told more events fewer)
    (hword : Visits false (depth + 1) word) (hexit : Closes id pos depth exit)
    (htold : ∀ r ∈ refusals (.enter id pos depth :: (word ++ [exit])), r ∈ told)
    (hheard : heard g position more (.enter id pos depth :: (word ++ [exit])) = more ∨
      FoundBeneath g position id pos events) :
    Abreast g position (told ++ refusals (.enter id pos depth :: (word ++ [exit])))
      (heard g position more (.enter id pos depth :: (word ++ [exit])))
      (events ++ [.enter id pos depth, .memoHit id pos depth, exit])
      (heard g position fewer [.enter id pos depth, .memoHit id pos depth, exit]) := by
  have hinside : Inside true id pos depth [.memoHit id pos depth] := .inr rfl
  have hmany := (hword.expects g position).around exit
  have hfew := (hinside.expects g position).around exit
  have hhit : Event.enter id pos depth :: ([.memoHit id pos depth] ++ [exit]) =
    [.enter id pos depth, .memoHit id pos depth, exit] := rfl
  rw [← refusals_around id pos depth] at hmany hfew
  rw [← hhit, heard_around hinside hexit]
  rw [heard_around (.inl hword) hexit] at hheard ⊢
  have hwhole : ∀ r, r ∈ refusals word ∨ r ∈ exit.refusal?.toList → r ∈ told := by
    intro r hr
    refine htold r ?_
    rwa [refusals_around, List.mem_append]
  refine h.advance hmany hfew ?_ ?_ ?_
  · intro r
    rw [refusals_around, refusals_around, List.mem_append, List.mem_append]
    constructor
    · rintro (hr | hr | hr)
      · exact .inl hr
      · cases hr
      · exact .inl (hwhole r (.inr hr))
    · rintro (hr | hr)
      · exact .inl hr
      · exact .inl (hwhole r hr)
  · refine left_subset h.subset
      (fun label hin => ((hword.expects g position).grows more).subset (h.subset hin)) ?_
    -- the work on the node brings nothing if nothing was expected, as it was told of before
    rw [show heard g position fewer [.memoHit id pos depth] = fewer from rfl, h.nil_iff,
      (hword.expects g position).eq_nil_iff more]
    refine ⟨fun hnil => ⟨hnil, ?_⟩, And.left⟩
    exact (h.silent.mp hnil).mono fun r hr => hwhole r (.inl hr)
  · intro hnot
    have hbefore : fewer = more := h.equal fun hwithheld => hnot (hwithheld.append _)
    have hfound : ¬ FoundBeneath g position id pos events := fun hfound =>
      hnot ⟨events ++ [.enter id pos depth], id, pos, depth, [exit], by simp, hfound.append _⟩
    have hsettled := hheard.resolve_right hfound
    rw [hsettled, hbefore]
    exact left_settled (by rw [hsettled]; exact List.Subset.refl _) fun _ => rfl

end Abreast

end Packrat
