import Packrat.Explain
import Packrat.Proofs.Walk.Brackets

/-!
# What is expected at one position

An explanation keeps one list of labels for all nodes under way. When a node with a name
fails where it was tried, what its inside brought is taken off the list again, and the
name takes its place; so what is done on leaving a node depends on what the list had been
when the node was entered, far back in the events.

A `Hearing` listens to the failures at one position and to no others, and it keeps the
list from before for each node under way. The events of a node are a word of brackets, and
such a word gives back what is kept as it was. So over words a hearing is nothing but a
function from lists to lists, `heard`, which follows the nesting of the word: a node makes
of the list what its inside makes of it, and then `left` what it has to say itself. All
that is known of expectations is known of this function.
-/

namespace Packrat

/-! ## Refusals -/

/-- A node that failed: where it was tried, and where it failed. -/
structure Refusal where
  node : NodeId
  start : Nat
  position : Nat

/-- What an event tells of a failure, the reason apart. -/
def Event.refusal? : Event → Option Refusal
  | .failed node tried _ position _ => some ⟨node, tried, position⟩
  | _ => none

/-- The refusals that events tell of, in order. -/
def refusals (events : List Event) : List Refusal := events.filterMap Event.refusal?

@[simp] theorem refusals_nil : refusals [] = [] := rfl

@[simp] theorem refusals_append (events later : List Event) :
    refusals (events ++ later) = refusals events ++ refusals later :=
  List.filterMap_append

@[simp] theorem refusals_enter_cons (id : NodeId) (pos depth : Nat) (events : List Event) :
    refusals (.enter id pos depth :: events) = refusals events := rfl

/-- A refusal that is left to be explained by others: the node has a name, and it got
somewhere before it failed. -/
def Refusal.Mute (g : Grammar) (r : Refusal) : Prop :=
  (g.name? r.node).isSome ∧ r.start < r.position

/-- No refusal at the position is worth a label. -/
def Silent (g : Grammar) (position : Nat) (rs : List Refusal) : Prop :=
  ∀ r ∈ rs, r.position = position → r.Mute g

theorem silent_append {g : Grammar} {position : Nat} {rs later : List Refusal} :
    Silent g position (rs ++ later) ↔ Silent g position rs ∧ Silent g position later :=
  List.forall_mem_append

theorem not_silent {g : Grammar} {position : Nat} {rs : List Refusal} :
    ¬ Silent g position rs ↔ ∃ r ∈ rs, r.position = position ∧ ¬ r.Mute g := by
  simp [Silent]

theorem Silent.mono {g : Grammar} {position : Nat} {rs later : List Refusal}
    (h : Silent g position later) (hsub : ∀ r ∈ rs, r ∈ later) : Silent g position rs :=
  fun r hr => h r (hsub r hr)

/-! ## Words, one case for each shape -/

/-- What is between entering a node and leaving it: the events of other nodes, or a hit. -/
def Inside (memoize : Bool) (id : NodeId) (pos depth : Nat) (inner : List Event) : Prop :=
  Visits memoize (depth + 1) inner ∨ inner = [.memoHit id pos depth]

/-- What holds of no events, of a hit and of words one after another, and of a node if it
holds of its inside, holds of the events of any nodes. -/
theorem Visits.induct {memoize : Bool} {P : Nat → List Event → Prop}
    (nil : ∀ depth, P depth [])
    (append : ∀ depth word later, Visits memoize depth word → Visits memoize depth later →
      P depth word → P depth later → P depth (word ++ later))
    (hit : ∀ id pos depth, P (depth + 1) [.memoHit id pos depth])
    (around : ∀ id pos depth inner exit, Inside memoize id pos depth inner →
      P (depth + 1) inner → Closes id pos depth exit →
      P depth (.enter id pos depth :: (inner ++ [exit]))) :
    ∀ {depth : Nat} {word : List Event}, Visits memoize depth word → P depth word := by
  intro depth word h
  refine @Visits.rec memoize (fun _ _ depth word _ => P depth word)
    (fun depth word _ => P depth word) ?_ ?_ ?_ ?_ depth word h
  · intro id pos depth inner exit hinner hexit ih
    exact around id pos depth inner exit (.inl hinner) ih hexit
  · intro id pos depth exit _ hexit
    exact around id pos depth _ exit (.inr rfl) (hit id pos depth) hexit
  · exact fun {depth} => nil depth
  · exact fun {_ _ depth word rest} hvisit hvisits hword hrest =>
      append depth word rest (.one hvisit) hvisits hword hrest

/-! ## Labels -/

/-- Labels with one more, which is not repeated. -/
def once (labels : List String) (label : String) : List String :=
  if label ∈ labels then labels else labels ++ [label]

theorem prefix_once (labels : List String) (label : String) : labels <+: once labels label := by
  unfold once
  split
  · exact List.prefix_refl labels
  · exact List.prefix_append labels [label]

theorem mem_once {labels : List String} {label other : String} :
    other ∈ once labels label ↔ other ∈ labels ∨ other = label := by
  unfold once
  split
  · next hin =>
      refine ⟨.inl, ?_⟩
      rintro (h | rfl)
      · exact h
      · exact hin
  · rw [List.mem_append, List.mem_singleton]

theorem once_of_mem {labels : List String} {label : String} (h : label ∈ labels) :
    once labels label = labels := if_pos h

theorem once_ne_nil (labels : List String) (label : String) : once labels label ≠ [] :=
  List.ne_nil_of_mem (mem_once.mpr (.inr rfl))

theorem nodup_once {labels : List String} (h : labels.Nodup) (label : String) :
    (once labels label).Nodup := by
  unfold once
  split
  · exact h
  · next hnot =>
      refine List.nodup_append.mpr ⟨h, List.pairwise_singleton _ label, ?_⟩
      intro a ha b hb hab
      rw [List.mem_singleton.mp hb] at hab
      exact hnot (hab ▸ ha)

/-- What is expected at a position after a node failed there, which had been `before` when
the node was entered and was `labels` when it was left. -/
def noted (g : Grammar) (node : NodeId) (tried position : Nat) (before labels : List String) :
    List String :=
  match g.name? node with
  | some name => if tried < position then labels else once before name
  | none =>
    if (g.node? node).any Node.isTerminal || labels.isEmpty then once labels (g.describe node)
    else labels

/-- The same after leaving a node in any way. -/
def left (g : Grammar) (position : Nat) (before labels : List String) : Event → List String
  | .failed node tried _ stopped _ =>
    if stopped = position then noted g node tried position before labels else labels
  | _ => labels

section Leaving

variable {g : Grammar} {position : Nat} {before labels : List String} {event : Event}

theorem describe_of_named {id : NodeId} {name : String} (h : g.name? id = some name) :
    g.describe id = name := by
  simp only [Grammar.describe, Grammar.label, h]

/-- What leaving a node can do to what is expected. -/
inductive Leaves (g : Grammar) (position : Nat) (event : Event) : Prop where
  /-- Nothing. -/
  | quiet (silent : Silent g position event.refusal?.toList)
      (eq : ∀ before labels, left g position before labels event = labels)
  /-- A terminal adds what it is called. -/
  | adds (r : Refusal) (told : event.refusal? = some r) (here : r.position = position)
      (unnamed : g.name? r.node = none)
      (terminal : (g.node? r.node).any Node.isTerminal = true)
      (eq : ∀ before labels,
        left g position before labels event = once labels (g.describe r.node))
  /-- Another node says what it is called if there is nothing else to say. -/
  | fillsIn (r : Refusal) (told : event.refusal? = some r) (here : r.position = position)
      (unnamed : g.name? r.node = none)
      (eq : ∀ before labels, left g position before labels event =
        if labels = [] then [g.describe r.node] else labels)
  /-- A name takes the place of what the inside brought. -/
  | hides (r : Refusal) (name : String) (told : event.refusal? = some r)
      (here : r.position = position) (named : g.name? r.node = some name)
      (stuck : position ≤ r.start)
      (eq : ∀ before labels, left g position before labels event = once before name)

theorem leaves (g : Grammar) (position : Nat) (event : Event) : Leaves g position event := by
  cases event with
  | failed node tried kind stopped depth =>
      by_cases hhere : stopped = position
      · subst hhere
        cases hname : g.name? node with
        | some name =>
            by_cases hlt : tried < stopped
            · refine .quiet (List.forall_mem_singleton.mpr fun _ => ⟨?_, hlt⟩) ?_
              · rw [hname]; rfl
              · simp [left, noted, hname, hlt]
            · exact .hides ⟨node, tried, stopped⟩ name rfl rfl hname (Nat.le_of_not_lt hlt)
                (by simp [left, noted, hname, hlt])
        | none =>
            by_cases hterminal : (g.node? node).any Node.isTerminal = true
            · exact .adds ⟨node, tried, stopped⟩ rfl rfl hname hterminal
                (by simp [left, noted, hname, hterminal])
            · refine .fillsIn ⟨node, tried, stopped⟩ rfl rfl hname fun before labels => ?_
              cases labels with
              | nil => simp [left, noted, hname, once]
              | cons label rest => simp [left, noted, hname, hterminal]
      · exact .quiet (List.forall_mem_singleton.mpr fun h => absurd h hhere)
          (by simp [left, hhere])
  | _ => exact .quiet nofun fun _ _ => rfl

/-- What is expected only grows, seen from before the node. -/
theorem prefix_left (h : before <+: labels) : before <+: left g position before labels event := by
  cases leaves g position event with
  | quiet _ eq => rw [eq]; exact h
  | adds r _ _ _ _ eq => rw [eq]; exact h.trans (prefix_once _ _)
  | fillsIn r _ _ _ eq =>
      rw [eq]
      split
      · next hnil =>
          rw [hnil] at h
          rw [List.prefix_nil.mp h]
          exact List.nil_prefix
      · exact h
  | hides r name _ _ _ _ eq => rw [eq]; exact prefix_once _ _

theorem left_eq_nil :
    left g position before labels event = [] ↔
      labels = [] ∧ Silent g position event.refusal?.toList := by
  -- a refusal that is told of here and is not mute leaves a label behind
  have hloud : ∀ {r : Refusal}, event.refusal? = some r → r.position = position →
      (g.name? r.node = none ∨ position ≤ r.start) →
      ¬ Silent g position event.refusal?.toList := by
    intro r htold hhere hwhy hsilent
    obtain ⟨hnamed, hlt⟩ := hsilent r (by rw [htold]; exact List.mem_singleton_self r) hhere
    rcases hwhy with hnone | hle
    · rw [hnone] at hnamed; cases hnamed
    · omega
  cases leaves g position event with
  | quiet hsilent eq => rw [eq]; exact (and_iff_left hsilent).symm
  | adds r htold hhere hnone _ eq =>
      rw [eq]
      exact iff_of_false (once_ne_nil _ _) fun h => hloud htold hhere (.inl hnone) h.2
  | fillsIn r htold hhere hnone eq =>
      rw [eq]
      refine iff_of_false ?_ fun h => hloud htold hhere (.inl hnone) h.2
      split
      · exact List.cons_ne_nil _ _
      · assumption
  | hides r name htold hhere _ hstuck eq =>
      rw [eq]
      exact iff_of_false (once_ne_nil _ _) fun h => hloud htold hhere (.inr hstuck) h.2

theorem nodup_left (hbefore : before.Nodup) (hlabels : labels.Nodup) :
    (left g position before labels event).Nodup := by
  cases leaves g position event with
  | quiet _ eq => rw [eq]; exact hlabels
  | adds r _ _ _ _ eq => rw [eq]; exact nodup_once hlabels _
  | fillsIn r _ _ _ eq =>
      rw [eq]
      split
      · exact List.pairwise_singleton _ _
      · exact hlabels
  | hides r name _ _ _ _ eq => rw [eq]; exact nodup_once hbefore _

/-- Where a label comes from. -/
theorem mem_left {label : String} (h : label ∈ left g position before labels event) :
    label ∈ before ∨ label ∈ labels ∨
      ∃ r ∈ event.refusal?, r.position = position ∧ g.describe r.node = label := by
  cases leaves g position event with
  | quiet _ eq => rw [eq] at h; exact .inr (.inl h)
  | adds r htold hhere _ _ eq =>
      rw [eq, mem_once] at h
      rcases h with h | rfl
      · exact .inr (.inl h)
      · exact .inr (.inr ⟨r, htold, hhere, rfl⟩)
  | fillsIn r htold hhere _ eq =>
      rw [eq] at h
      split at h
      · exact .inr (.inr ⟨r, htold, hhere, (List.mem_singleton.mp h).symm⟩)
      · exact .inr (.inl h)
  | hides r name htold hhere hname _ eq =>
      rw [eq, mem_once] at h
      rcases h with h | rfl
      · exact .inl h
      · exact .inr (.inr ⟨r, htold, hhere, describe_of_named hname⟩)

/-- If all that a node left behind is expected already, leaving it again changes
nothing, provided that its inside changes nothing. -/
theorem left_settled {later labels' : List String}
    (h : left g position before labels event ⊆ later)
    (hinner : labels ⊆ later → labels' = later) :
    left g position later labels' event = later := by
  cases leaves g position event with
  | quiet _ eq =>
      rw [eq] at h ⊢
      exact hinner h
  | adds r _ _ _ _ eq =>
      rw [eq] at h ⊢
      rw [hinner fun label hin => h (mem_once.mpr (.inl hin)),
        once_of_mem (h (mem_once.mpr (.inr rfl)))]
  | fillsIn r _ _ _ eq =>
      rw [eq] at h ⊢
      have hne : later ≠ [] := by
        rintro rfl
        split at h
        · exact absurd (h (List.mem_singleton_self _)) List.not_mem_nil
        · next hnil => exact hnil (List.subset_nil.mp h)
      have hsub : labels ⊆ later := by
        split at h
        · next hnil => rw [hnil]; exact List.nil_subset _
        · exact h
      rw [hinner hsub, if_neg hne]
  | hides r name _ _ _ _ eq =>
      rw [eq] at h ⊢
      exact once_of_mem (h (mem_once.mpr (.inr rfl)))

/-- Who expects no more before a node and inside it, expects no more after it, as long as
both expect something or neither does. -/
theorem left_subset {before' labels' : List String} (hbefore : before ⊆ before')
    (hlabels : labels ⊆ labels') (hnil : labels = [] ↔ labels' = []) :
    left g position before labels event ⊆ left g position before' labels' event := by
  have honce : ∀ {fewer more : List String} (label : String), fewer ⊆ more →
      once fewer label ⊆ once more label := fun label hsub other hin =>
    mem_once.mpr ((mem_once.mp hin).imp_left fun hin => hsub hin)
  cases leaves g position event with
  | quiet _ eq => rw [eq, eq]; exact hlabels
  | adds r _ _ _ _ eq => rw [eq, eq]; exact honce _ hlabels
  | fillsIn r _ _ _ eq =>
      rw [eq, eq]
      by_cases hempty : labels = []
      · rw [if_pos hempty, if_pos (hnil.mp hempty)]
        exact List.Subset.refl _
      · rw [if_neg hempty, if_neg (fun h => hempty (hnil.mpr h))]
        exact hlabels
  | hides r name _ _ _ _ eq => rw [eq, eq]; exact honce _ hbefore

/-- Leaving a node takes nothing away, or the node has a name and failed where it was
tried. -/
theorem left_keeps_or_hides (g : Grammar) (position : Nat) (event : Event) :
    (∀ before labels, labels ⊆ left g position before labels event) ∨
      ∃ r, event.refusal? = some r ∧ r.position = position ∧ (g.name? r.node).isSome ∧
        position ≤ r.start := by
  cases leaves g position event with
  | quiet _ eq => exact .inl fun before labels => by rw [eq]; exact List.Subset.refl _
  | adds r _ _ _ _ eq =>
      exact .inl fun before labels => by rw [eq]; exact (prefix_once _ _).subset
  | fillsIn r _ _ _ eq =>
      refine .inl fun before labels => ?_
      rw [eq]
      split
      · next hnil => rw [hnil]; exact List.nil_subset _
      · exact List.Subset.refl _
  | hides r name htold hhere hname hstuck _ =>
      exact .inr ⟨r, htold, hhere, by rw [hname]; rfl, hstuck⟩

end Leaving

/-! ## Hearing -/

/-- What is expected at a position, and what was expected there when each of the nodes
under way was entered, innermost first. -/
structure Hearing where
  labels : List String
  kept : List (List String)

/-- Follows an event. -/
def Hearing.hear (g : Grammar) (position : Nat) (h : Hearing) (event : Event) : Hearing :=
  match event with
  | .enter _ _ _ => { h with kept := h.labels :: h.kept }
  | .matched _ _ _ _ | .failed _ _ _ _ _ =>
    match h.kept with
    | [] => h
    | before :: kept => ⟨left g position before h.labels event, kept⟩
  | _ => h

/-- What is expected at a position after some events. -/
def heard (g : Grammar) (position : Nat) (labels : List String) (word : List Event) :
    List String :=
  (word.foldl (Hearing.hear g position) ⟨labels, []⟩).labels

/-- A word after which no more is kept, and no less, than before. -/
def Steady (g : Grammar) (position : Nat) (word : List Event) : Prop :=
  ∀ labels kept, word.foldl (Hearing.hear g position) ⟨labels, kept⟩ =
    ⟨heard g position labels word, kept⟩

section Words

variable {g : Grammar} {position : Nat} {labels later : List String} {memoize : Bool}
  {depth : Nat} {word : List Event}

theorem hear_of_closes {id : NodeId} {pos depth : Nat} {exit : Event}
    (h : Closes id pos depth exit) (before labels : List String) (kept : List (List String)) :
    Hearing.hear g position ⟨labels, before :: kept⟩ exit =
      ⟨left g position before labels exit, kept⟩ := by
  cases h <;> rfl

theorem Steady.append (h : Steady g position word) (rest : List Event) :
    heard g position labels (word ++ rest) =
      heard g position (heard g position labels word) rest := by
  simp only [heard, List.foldl_append]
  rw [h labels []]

theorem Steady.foldl_around (h : Steady g position word) {id : NodeId} {pos : Nat}
    {exit : Event} (hexit : Closes id pos depth exit) (labels : List String)
    (kept : List (List String)) :
    (Event.enter id pos depth :: (word ++ [exit])).foldl (Hearing.hear g position)
        ⟨labels, kept⟩ =
      ⟨left g position labels (heard g position labels word) exit, kept⟩ := by
  rw [List.foldl_cons, List.foldl_append]
  show [exit].foldl (Hearing.hear g position)
    (word.foldl (Hearing.hear g position) ⟨labels, labels :: kept⟩) = _
  rw [h labels (labels :: kept)]
  exact hear_of_closes hexit _ _ _

theorem Steady.heard_around (h : Steady g position word) {id : NodeId} {pos : Nat}
    {exit : Event} (hexit : Closes id pos depth exit) :
    heard g position labels (.enter id pos depth :: (word ++ [exit])) =
      left g position labels (heard g position labels word) exit := by
  show (List.foldl (Hearing.hear g position) ⟨labels, []⟩ _).labels = _
  rw [h.foldl_around hexit labels []]

theorem Visits.steady (h : Visits memoize depth word) : Steady g position word := by
  refine Visits.induct (P := fun _ word => Steady g position word) ?_ ?_ ?_ ?_ h
  · intro _ labels kept
    rfl
  · intro _ word later _ _ hword hlater labels kept
    rw [List.foldl_append, hword labels kept, hlater _ kept, hword.append later]
  · intro id pos depth labels kept
    rfl
  · intro id pos depth inner exit _ hinner hexit labels kept
    rw [hinner.foldl_around hexit labels kept, hinner.heard_around hexit]

theorem Inside.steady {id : NodeId} {pos : Nat} (h : Inside memoize id pos depth word) :
    Steady g position word := by
  rcases h with h | rfl
  · exact h.steady
  · intro labels kept
    rfl

theorem heard_append (h : Visits memoize depth word) (rest : List Event) :
    heard g position labels (word ++ rest) =
      heard g position (heard g position labels word) rest :=
  h.steady.append rest

/-- A node makes of what is expected what its inside makes of it, and then what it has to
say itself. -/
theorem heard_around {id : NodeId} {pos : Nat} {exit : Event}
    (h : Inside memoize id pos depth word) (hexit : Closes id pos depth exit) :
    heard g position labels (.enter id pos depth :: (word ++ [exit])) =
      left g position labels (heard g position labels word) exit :=
  h.steady.heard_around hexit

end Words

/-! ## What is known of it -/

/-- What a word with these refusals can make of what is expected. -/
structure Expects (g : Grammar) (position : Nat) (rs : List Refusal)
    (f : List String → List String) : Prop where
  grows : ∀ labels, labels <+: f labels
  eq_nil_iff : ∀ labels, f labels = [] ↔ labels = [] ∧ Silent g position rs
  nodup : ∀ labels, labels.Nodup → (f labels).Nodup
  /-- Labels are what refusing nodes are called. -/
  sound : ∀ labels, ∀ label ∈ f labels,
    label ∈ labels ∨ ∃ r ∈ rs, r.position = position ∧ g.describe r.node = label
  /-- A word that brings nothing new brings nothing at all. -/
  settled : ∀ labels later, f labels ⊆ later → f later = later

namespace Expects

variable {g : Grammar} {position : Nat} {rs rs' : List Refusal}
  {f f' : List String → List String}

theorem refl (g : Grammar) (position : Nat) : Expects g position [] id where
  grows := List.prefix_refl
  eq_nil_iff _ := (and_iff_left (List.forall_mem_nil _)).symm
  nodup _ h := h
  sound _ _ h := .inl h
  settled _ _ _ := rfl

theorem trans (h : Expects g position rs f) (h' : Expects g position rs' f') :
    Expects g position (rs ++ rs') (fun labels => f' (f labels)) where
  grows labels := (h.grows labels).trans (h'.grows _)
  eq_nil_iff labels := by rw [h'.eq_nil_iff, h.eq_nil_iff, silent_append, and_assoc]
  nodup labels hlabels := h'.nodup _ (h.nodup _ hlabels)
  sound labels label hin := by
    rcases h'.sound _ label hin with hin | ⟨r, hr, hat⟩
    · exact (h.sound _ label hin).imp_right fun ⟨r, hr, hat⟩ =>
        ⟨r, List.mem_append_left _ hr, hat⟩
    · exact .inr ⟨r, List.mem_append_right _ hr, hat⟩
  settled labels later hsub := by
    have hfirst : f later = later :=
      h.settled labels later fun label hin => hsub ((h'.grows _).subset hin)
    rw [hfirst]
    exact h'.settled (f labels) later hsub

theorem around (h : Expects g position rs f) (exit : Event) :
    Expects g position (rs ++ exit.refusal?.toList)
      (fun labels => left g position labels (f labels) exit) where
  grows labels := prefix_left (h.grows labels)
  eq_nil_iff labels := by rw [left_eq_nil, h.eq_nil_iff, silent_append, and_assoc]
  nodup labels hlabels := nodup_left hlabels (h.nodup _ hlabels)
  sound labels label hin := by
    rcases mem_left hin with hin | hin | ⟨r, hr, hat⟩
    · exact .inl hin
    · exact (h.sound _ label hin).imp_right fun ⟨r, hr, hat⟩ =>
        ⟨r, List.mem_append_left _ hr, hat⟩
    · exact .inr ⟨r, List.mem_append_right _ (Option.mem_toList.mpr hr), hat⟩
  settled labels later hsub := left_settled hsub (h.settled labels later)

end Expects

theorem refusals_around (id : NodeId) (pos depth : Nat) (inner : List Event) (exit : Event) :
    refusals (.enter id pos depth :: (inner ++ [exit])) =
      refusals inner ++ exit.refusal?.toList := by
  rw [refusals_enter_cons, refusals_append]
  cases exit <;> rfl

theorem Visits.expects {memoize : Bool} {depth : Nat} {word : List Event}
    (h : Visits memoize depth word) (g : Grammar) (position : Nat) :
    Expects g position (refusals word) (heard g position · word) := by
  refine Visits.induct
    (P := fun _ word => Expects g position (refusals word) (heard g position · word))
    ?_ ?_ ?_ ?_ h
  · exact fun _ => .refl g position
  · intro _ word later hvisits _ hword hlater
    simp only [refusals_append, heard_append hvisits]
    exact hword.trans hlater
  · exact fun _ _ _ => .refl g position
  · intro id pos depth inner exit hinside hinner hexit
    simp only [refusals_around, heard_around hinside hexit]
    exact hinner.around exit

theorem Inside.expects {memoize : Bool} {id : NodeId} {pos depth : Nat} {inner : List Event}
    (h : Inside memoize id pos depth inner) (g : Grammar) (position : Nat) :
    Expects g position (refusals inner) (heard g position · inner) := by
  rcases h with h | rfl
  · exact h.expects g position
  · exact .refl g position

end Packrat
