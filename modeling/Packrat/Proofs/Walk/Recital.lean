import Packrat.Proofs.Walk.Answers

/-!
# A plain walk tells the same story each time

A plain walk does not read the progress it is given, so what it adds to the events does
not depend on them either. `Recites` says so in one equation: the walk answers, joins what
it found to the furthest failure, puts a word behind the events, and leaves the memory
alone.

Tried again somewhere else, deeper or with more levels allowed, a node is told of in the
same words. All that changes is the depth written into each event, so words are compared
with the depths taken out. The comparison is a congruence once more; a walk that gives up
takes no part in it.
-/

namespace Packrat

/-- An event without its depth. -/
def Event.flat : Event → Event
  | .enter node pos _ => .enter node pos 0
  | .matched node tried stop _ => .matched node tried stop 0
  | .failed node tried kind position _ => .failed node tried kind position 0
  | .memoHit node pos _ => .memoHit node pos 0
  | event => event

/-- Words that differ in nothing but depths. -/
def Alike (word word' : List Event) : Prop := word.map Event.flat = word'.map Event.flat

theorem Alike.append {word word' later later' : List Event} (h : Alike word word')
    (h' : Alike later later') : Alike (word ++ later) (word' ++ later') := by
  unfold Alike
  rw [List.map_append, List.map_append, h, h']

/-- Progress after a stretch of a walk that met `found` itself and added `word`. -/
def Progress.after (s : Progress) (found : Option Failure) (word : List Event) : Progress :=
  { s with
    furthest := Walk.join s.furthest found
    events := (s.events.toList ++ word).toArray }

theorem Progress.after_after (s : Progress) (found found' : Option Failure)
    (word word' : List Event) :
    (s.after found word).after found' word' = s.after (Walk.join found found') (word ++ word') := by
  simp only [Progress.after, Walk.join_assoc, List.append_assoc]

namespace Walk

/-! ## Reciting -/

/-- From any progress the walk answers `a`, meets `found` and adds `word`. -/
def Recites {α : Type} (x : Walk α) (a : α) (found : Option Failure) (word : List Event) :
    Prop :=
  ∀ s, x s = .ok a (s.after found word)

section Reciting

variable {α β : Type} {x : Walk α} {a b : α} {found found' : Option Failure}
  {word word' : List Event}

theorem Recites.pure (a : α) : Recites (Pure.pure a) a none [] := by
  intro s
  show EStateM.Result.ok a s = _
  simp only [Progress.after, join_none, List.append_nil]

theorem Recites.offer (failure : Failure) : Recites (offer failure) () (some failure) [] := by
  intro s
  show EStateM.Result.ok () { s with furthest := further s.furthest failure } = _
  simp only [Progress.after, join_some, List.append_nil]

theorem Recites.emit (event : Event) : Recites (emit event) () none [event] := by
  intro s
  show EStateM.Result.ok () { s with events := s.events.push event } = _
  simp only [Progress.after, join_none, ← Array.toList_push]

theorem Recites.bind {f : α → Walk β} {b : β} (hx : Recites x a found word)
    (hf : Recites (f a) b found' word') :
    Recites (x >>= f) b (join found found') (word ++ word') := by
  intro s
  rw [bind_of_ok (hx s), hf, Progress.after_after]

theorem Recites.answers (h : Recites x a found word) : Answers Unread x a found :=
  fun s _ => ⟨_, h s, rfl, trivial⟩

theorem Recites.unique (h : Recites x a found word) (h' : Recites x b found' word') :
    a = b ∧ found = found' ∧ word = word' := by
  obtain ⟨hab, hfound⟩ := h.answers.unique h'.answers
  have hrun := (h ⟨none, ∅, #[]⟩).symm.trans (h' ⟨none, ∅, #[]⟩)
  injection hrun with _ hs
  refine ⟨hab, hfound, ?_⟩
  simpa [Progress.after] using congrArg Progress.events hs

/-- Entering and leaving a node is told around what is told inside. -/
theorem Recites.around {x : Walk Step} {step : Step} (h : Recites x step found word)
    (before : Event) (after : Step → Event) :
    Recites (do Walk.emit before; let step ← x; Walk.emit (after step); return step) step found
      (before :: (word ++ [after step])) := by
  intro s
  rw [emit_bind, bind_of_ok (h _), emit_bind]
  show EStateM.Result.ok step _ = _
  simp [Progress.after]

theorem recites_invoke {g : Grammar} {input : Array UInt8} {config : Config}
    (hplain : config.memoize = false) {allowance depth pos : Nat} {id : NodeId} {step : Step}
    (h : Recites (answer ⟨g, input, config⟩ (invoke ⟨g, input, config⟩ allowance (depth + 1)) id
      pos) step found word) :
    Recites (invoke ⟨g, input, config⟩ (allowance + 1) depth id pos) step found
      (.enter id pos depth :: (word ++ [leaving id pos depth step])) := by
  simp only [invoke, hplain, Bool.false_eq_true, if_false]
  exact h.around _ _

end Reciting

/-! ## The same words -/

/-- Unless `x` gives up, `x` and `y` answer the same and tell the same. -/
inductive Echoes {α : Type} (Q : α → Prop) (x y : Walk α) : Prop where
  | answers (a : α) (found : Option Failure) (word word' : List Event) (post : Q a)
      (left : Recites x a found word) (right : Recites y a found word') (alike : Alike word word')
  | aborts (e : Error) (left : Aborts Unread x e)

theorem echoes_congruence (size : Nat) : Congruence size Echoes where
  pure hQ := .answers _ none [] [] hQ (Recites.pure _) (Recites.pure _) rfl
  offer _ _ := .answers () _ [] [] trivial (Recites.offer _) (Recites.offer _) rfl
  invalidLength _ := .aborts _ (Aborts.throw _)
  bind := by
    intro α β P Q x y f k hxy hfk
    cases hxy with
    | aborts e left => exact .aborts e left.bind
    | answers a found word word' post left right alike =>
        cases hfk a post with
        | aborts e left' => exact .aborts e (left.answers.bind_aborts left')
        | answers b found' more more' post' left' right' alike' =>
            exact .answers b _ _ _ post' (left.bind left') (right.bind right')
              (alike.append alike')

section Plain

variable {g : Grammar} {input : Array UInt8} {config config' : Config}

theorem alike_around {word word' : List Event} (h : Alike word word') (id : NodeId)
    (pos depth depth' : Nat) (step : Step) :
    Alike (.enter id pos depth :: (word ++ [leaving id pos depth step]))
      (.enter id pos depth' :: (word' ++ [leaving id pos depth' step])) := by
  have hleaving : Alike [leaving id pos depth step] [leaving id pos depth' step] := by
    cases step <;> rfl
  have hinner := h.append hleaving
  unfold Alike at hinner ⊢
  rw [List.map_cons, List.map_cons, hinner]
  rfl

theorem invoke_echoes (hg : g.WellFormed) (hplain : config.memoize = false)
    (hplain' : config'.memoize = false) :
    ∀ {allowance allowance' : Nat} (depth depth' : Nat) {id : NodeId} {pos : Nat},
      allowance ≤ allowance' → g.contains id = true → pos ≤ input.size →
      Echoes (Step.Within pos input.size) (invoke ⟨g, input, config⟩ allowance depth id pos)
        (invoke ⟨g, input, config'⟩ allowance' depth' id pos) := by
  intro allowance
  induction allowance with
  | zero => intro allowance' depth depth' id pos _ _ _; exact .aborts _ (Aborts.throw _)
  | succ allowance ih =>
      intro allowance' depth depth' id pos hle hid hpos
      obtain ⟨m, rfl⟩ : ∃ m, allowance' = m + 1 := ⟨allowance' - 1, by omega⟩
      obtain ⟨node, hnode⟩ := Grammar.exists_node_of_contains hid
      have hmem := Grammar.mem_of_node?_eq_some hnode
      have htry : Congruence.Tries Echoes input.size
          (invoke ⟨g, input, config⟩ allowance (depth + 1))
          (invoke ⟨g, input, config'⟩ m (depth' + 1)) node.children pos :=
        fun child hchild p _ hp => ih _ _ (by omega) (hg.children_mem node hmem child hchild) hp
      have hanswer : Echoes (Step.Within pos input.size)
          (answer ⟨g, input, config⟩ (invoke ⟨g, input, config⟩ allowance (depth + 1)) id pos)
          (answer ⟨g, input, config'⟩ (invoke ⟨g, input, config'⟩ m (depth' + 1)) id pos) :=
        (echoes_congruence input.size).answer hnode (fun heq => hg.bound (heq ▸ hmem)) hpos htry
      cases hanswer with
      | answers step found word word' post left right alike =>
          exact .answers step found _ _ post (recites_invoke hplain left)
            (recites_invoke hplain' right) (alike_around alike id pos depth depth' step)
      | aborts e left =>
          refine .aborts e ?_
          simp only [invoke, hplain, Bool.false_eq_true, if_false]
          exact left.around _ _

/-- A node answers the same wherever it is tried, and is told of in the same words. -/
theorem Recites.alike (hg : g.WellFormed) (hplain : config.memoize = false)
    (hplain' : config'.memoize = false) {allowance allowance' depth depth' : Nat} {id : NodeId}
    {pos : Nat} {step step' : Step} {found found' : Option Failure} {word word' : List Event}
    (hid : g.contains id = true) (hpos : pos ≤ input.size)
    (h : Recites (invoke ⟨g, input, config⟩ allowance depth id pos) step found word)
    (h' : Recites (invoke ⟨g, input, config'⟩ allowance' depth' id pos) step' found' word') :
    step = step' ∧ found = found' ∧ Alike word word' := by
  rcases Nat.le_total allowance allowance' with hle | hle
  · cases invoke_echoes hg hplain hplain' depth depth' hle hid hpos with
    | aborts e left => exact absurd left h.answers.not_aborts
    | answers a f w w' _ left right alike =>
        obtain ⟨rfl, rfl, rfl⟩ := h.unique left
        obtain ⟨rfl, rfl, rfl⟩ := h'.unique right
        exact ⟨rfl, rfl, alike⟩
  · cases invoke_echoes hg hplain' hplain depth' depth hle hid hpos with
    | aborts e left => exact absurd left h'.answers.not_aborts
    | answers a f w w' _ left right alike =>
        obtain ⟨rfl, rfl, rfl⟩ := h'.unique left
        obtain ⟨rfl, rfl, rfl⟩ := h.unique right
        exact ⟨rfl, rfl, alike.symm⟩

end Plain

end Walk

end Packrat
