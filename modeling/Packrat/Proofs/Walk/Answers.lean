import Packrat.Proofs.Walk.Congruence

/-!
# What a walk answers does not depend on what went before

A plain walk reads nothing of the progress it is given. It answers the same from
any progress, and all it does to the failure to tell about is to add its own: the
furthest failure met on the way, joined with the one from before by the rule that
the later of two at one position counts. `Answers` says that of a walk, `Aborts`
that it gives up with one and the same fatal error.

Both are relative to an invariant of the memory, so that they can be said of
walks that remember as well: these answer the same only as long as what they
remember is right.

`Outlasts` compares a walk with one that may go deeper. Unless the first gives up
at the depth limit, the second does what the first did. That is a congruence, so
the argument for whole walks is an induction on the levels allowed and nothing
else.
-/

namespace Packrat

/-- Answers by node and position. -/
abbrev Memory := Std.HashMap (Nat × Nat) (Step × Option Failure)

namespace Walk

/-! ## Joining failures -/

/-- The failure to tell about after a stretch of a walk that met `found` itself. -/
def join (before found : Option Failure) : Option Failure :=
  match found with
  | none => before
  | some failure => further before failure

@[simp] theorem join_none (before : Option Failure) : join before none = before := rfl

@[simp] theorem none_join (found : Option Failure) : join none found = found := by
  cases found <;> rfl

theorem join_some (before : Option Failure) (failure : Failure) :
    join before (some failure) = further before failure := rfl

theorem join_assoc (a b c : Option Failure) : join (join a b) c = join a (join b c) := by
  cases c with
  | none => rfl
  | some z =>
      cases b with
      | none => rfl
      | some y =>
          cases a with
          | none => simp
          | some x =>
              simp only [join_some, further]
              by_cases hxy : x.position ≤ y.position <;>
                by_cases hyz : y.position ≤ z.position <;>
                by_cases hxz : x.position ≤ z.position <;>
                simp only [hxy, hyz, hxz, if_true, if_false, join_some, further] <;>
                omega

/-! ## Answers and aborts -/

theorem bind_of_ok {α β : Type} {x : Walk α} {f : α → Walk β} {a : α} {s s' : Progress}
    (h : x s = .ok a s') : (x >>= f) s = f a s' := by
  change EStateM.bind x f s = f a s'
  rw [EStateM.bind, h]

theorem bind_of_error {α β : Type} {x : Walk α} {f : α → Walk β} {e : Error}
    {s s' : Progress} (h : x s = .error e s') : (x >>= f) s = .error e s' := by
  change EStateM.bind x f s = .error e s'
  rw [EStateM.bind, h]

theorem get_bind {α : Type} (f : Progress → Walk α) (s : Progress) :
    (get >>= f) s = f s s := rfl

theorem modify_bind {α : Type} (change : Progress → Progress) (f : PUnit → Walk α)
    (s : Progress) : (modify change >>= f) s = f ⟨⟩ (change s) := rfl

theorem emit_bind {α : Type} (event : Event) (f : Unit → Walk α) (s : Progress) :
    (emit event >>= f) s = f () { s with events := s.events.push event } := rfl

section Answers

variable {α β : Type} {I : Memory → Prop}

/-- The walk answers `a` from any progress whose memory is sound, keeps the memory
sound, and meets `found` as its own furthest failure. -/
def Answers (I : Memory → Prop) (x : Walk α) (a : α) (found : Option Failure) : Prop :=
  ∀ s : Progress, I s.memo →
    ∃ s', x s = .ok a s' ∧ s'.furthest = join s.furthest found ∧ I s'.memo

/-- The walk gives up with `e` from any progress whose memory is sound. -/
def Aborts (I : Memory → Prop) (x : Walk α) (e : Error) : Prop :=
  ∀ s : Progress, I s.memo → ∃ s', x s = .error e s'

theorem Answers.pure (a : α) : Answers I (Pure.pure a) a none :=
  fun s hs => ⟨s, rfl, rfl, hs⟩

theorem Answers.offer (failure : Failure) : Answers I (offer failure) () (some failure) :=
  fun _ hs => ⟨_, rfl, rfl, hs⟩

theorem Answers.emit (event : Event) : Answers I (emit event) () none :=
  fun _ hs => ⟨_, rfl, rfl, hs⟩

theorem Aborts.throw (e : Error) : Aborts I (throw e : Walk α) e :=
  fun s _ => ⟨s, rfl⟩

theorem Answers.bind {x : Walk α} {f : α → Walk β} {a : α} {b : β}
    {found found' : Option Failure} (hx : Answers I x a found) (hf : Answers I (f a) b found') :
    Answers I (x >>= f) b (join found found') := by
  intro s hs
  obtain ⟨s₁, hrun, hfurthest, hs₁⟩ := hx s hs
  obtain ⟨s₂, hrun', hfurthest', hs₂⟩ := hf s₁ hs₁
  refine ⟨s₂, by rw [bind_of_ok hrun, hrun'], ?_, hs₂⟩
  rw [hfurthest', hfurthest, join_assoc]

theorem Aborts.bind {x : Walk α} {f : α → Walk β} {e : Error} (hx : Aborts I x e) :
    Aborts I (x >>= f) e := by
  intro s hs
  obtain ⟨s₁, hrun⟩ := hx s hs
  exact ⟨s₁, bind_of_error hrun⟩

theorem Answers.bind_aborts {x : Walk α} {f : α → Walk β} {a : α} {found : Option Failure}
    {e : Error} (hx : Answers I x a found) (hf : Aborts I (f a) e) : Aborts I (x >>= f) e := by
  intro s hs
  obtain ⟨s₁, hrun, _, hs₁⟩ := hx s hs
  obtain ⟨s₂, hrun'⟩ := hf s₁ hs₁
  exact ⟨s₂, by rw [bind_of_ok hrun, hrun']⟩

end Answers

/-! ## Plain walks -/

/-- No invariant, for walks that do not remember. -/
def Unread : Memory → Prop := fun _ => True

section Unique

variable {α : Type} {x : Walk α}

theorem Answers.unique {a b : α} {found found' : Option Failure}
    (ha : Answers Unread x a found) (hb : Answers Unread x b found') :
    a = b ∧ found = found' := by
  obtain ⟨s, hrun, hfurthest, _⟩ := ha ⟨none, ∅, #[]⟩ trivial
  obtain ⟨s', hrun', hfurthest', _⟩ := hb ⟨none, ∅, #[]⟩ trivial
  rw [hrun] at hrun'
  injection hrun' with hab hs
  subst hs
  rw [none_join] at hfurthest hfurthest'
  exact ⟨hab, hfurthest.symm.trans hfurthest'⟩

theorem Answers.not_aborts {a : α} {found : Option Failure} {e : Error}
    (ha : Answers Unread x a found) : ¬ Aborts Unread x e := by
  intro he
  obtain ⟨s, hrun, _, _⟩ := ha ⟨none, ∅, #[]⟩ trivial
  obtain ⟨s', hrun'⟩ := he ⟨none, ∅, #[]⟩ trivial
  rw [hrun] at hrun'
  cases hrun'

theorem Aborts.unique {e e' : Error} (h : Aborts Unread x e) (h' : Aborts Unread x e') :
    e = e' := by
  obtain ⟨s, hrun⟩ := h ⟨none, ∅, #[]⟩ trivial
  obtain ⟨s', hrun'⟩ := h' ⟨none, ∅, #[]⟩ trivial
  rw [hrun] at hrun'
  injection hrun'

end Unique

/-! ## Going deeper -/

/-- The plain walk `x` answers, or gives up over a length or at the limit. Unless
it is the limit, `y` does the same. -/
inductive Outlasts (I : Memory → Prop) (limit size : Nat) {α : Type} (Q : α → Prop)
    (x y : Walk α) : Prop where
  | answers (a : α) (found : Option Failure) (post : Q a) (left : Answers Unread x a found)
      (right : Answers I y a found)
  | misuse (shape : Token.Shape) (pos : Nat) (inside : pos ≤ size)
      (left : Aborts Unread x (.located (.invalidLength shape) pos))
      (right : Aborts I y (.located (.invalidLength shape) pos))
  | limit (pos : Nat) (inside : pos ≤ size)
      (left : Aborts Unread x (.located (.recursionLimit limit) pos))

theorem outlasts_congruence (I : Memory → Prop) (limit size : Nat) :
    Congruence size (Outlasts I limit size) where
  pure hQ := .answers _ none hQ (Answers.pure _) (Answers.pure _)
  offer _ _ := .answers () _ trivial (Answers.offer _) (Answers.offer _)
  invalidLength hpos := .misuse _ _ hpos (Aborts.throw _) (Aborts.throw _)
  bind := by
    intro α β P Q x y f g hxy hfg
    cases hxy with
    | answers a found post left right =>
        cases hfg a post with
        | answers b found' post' left' right' =>
            exact .answers b _ post' (left.bind left') (right.bind right')
        | misuse shape pos inside left' right' =>
            exact .misuse shape pos inside (left.bind_aborts left') (right.bind_aborts right')
        | limit pos inside left' => exact .limit pos inside (left.bind_aborts left')
    | misuse shape pos inside left right => exact .misuse shape pos inside left.bind right.bind
    | limit pos inside left => exact .limit pos inside left.bind

/-! Entering and leaving a node shows in the events alone. -/

theorem Answers.around {I : Memory → Prop} {x : Walk Step} {step : Step}
    {found : Option Failure} (h : Answers I x step found) (before : Event)
    (after : Step → Event) :
    Answers I (do Walk.emit before; let step ← x; Walk.emit (after step); return step)
      step found := by
  intro s hs
  obtain ⟨s', hrun, hfurthest, hs'⟩ := h { s with events := s.events.push before } hs
  refine ⟨{ s' with events := s'.events.push (after step) }, ?_, hfurthest, hs'⟩
  rw [emit_bind, bind_of_ok hrun]
  rfl

theorem Aborts.around {I : Memory → Prop} {x : Walk Step} {e : Error} (h : Aborts I x e)
    (before : Event) (after : Step → Event) :
    Aborts I (do Walk.emit before; let step ← x; Walk.emit (after step); return step) e :=
  (Answers.emit before).bind_aborts h.bind

theorem Outlasts.around {I : Memory → Prop} {limit size : Nat} {Q : Step → Prop}
    {x y : Walk Step} (h : Outlasts I limit size Q x y) (before before' : Event)
    (after after' : Step → Event) :
    Outlasts I limit size Q
      (do Walk.emit before; let step ← x; Walk.emit (after step); return step)
      (do Walk.emit before'; let step ← y; Walk.emit (after' step); return step) := by
  cases h with
  | answers step found post left right =>
      exact .answers step found post (left.around before after) (right.around before' after')
  | misuse shape pos inside left right =>
      exact .misuse shape pos inside (left.around before after) (right.around before' after')
  | limit pos inside left => exact .limit pos inside (left.around before after)

section Plain

variable {g : Grammar} {input : Array UInt8} {config config' : Config}

/-- A plain walk does the same with more levels allowed, unless it needs them. -/
theorem invoke_outlasts (hg : g.WellFormed) (hplain : config.memoize = false)
    (hplain' : config'.memoize = false) :
    ∀ {allowance allowance' : Nat} (depth depth' : Nat) {id : NodeId} {pos : Nat},
      allowance ≤ allowance' → g.contains id = true → pos ≤ input.size →
      Outlasts Unread config.maxDepth input.size (Step.Within pos input.size)
        (invoke ⟨g, input, config⟩ allowance depth id pos)
        (invoke ⟨g, input, config'⟩ allowance' depth' id pos) := by
  intro allowance
  induction allowance with
  | zero =>
      intro allowance' depth depth' id pos _ _ hpos
      exact .limit pos hpos (Aborts.throw _)
  | succ allowance ih =>
      intro allowance' depth depth' id pos hle hid hpos
      obtain ⟨m, rfl⟩ : ∃ m, allowance' = m + 1 := ⟨allowance' - 1, by omega⟩
      obtain ⟨node, hnode⟩ := Grammar.exists_node_of_contains hid
      have hmem := Grammar.mem_of_node?_eq_some hnode
      have htry : Congruence.Tries (Outlasts Unread config.maxDepth input.size) input.size
          (invoke ⟨g, input, config⟩ allowance (depth + 1))
          (invoke ⟨g, input, config'⟩ m (depth' + 1)) node.children pos :=
        fun child hchild p _ hp => ih _ _ (by omega) (hg.children_mem node hmem child hchild) hp
      have hbound : node ≠ .indirect none := fun heq => hg.bound (heq ▸ hmem)
      simp only [invoke, hplain, hplain', Bool.false_eq_true, if_false]
      exact Outlasts.around
        ((outlasts_congruence Unread config.maxDepth input.size).answer hnode hbound hpos htry)
        _ _ _ _

theorem Answers.mono (hg : g.WellFormed) (hplain : config.memoize = false)
    (hplain' : config'.memoize = false) {allowance allowance' depth : Nat} (depth' : Nat)
    {id : NodeId} {pos : Nat} {step : Step} {found : Option Failure}
    (hle : allowance ≤ allowance') (hid : g.contains id = true) (hpos : pos ≤ input.size)
    (h : Answers Unread (invoke ⟨g, input, config⟩ allowance depth id pos) step found) :
    Answers Unread (invoke ⟨g, input, config'⟩ allowance' depth' id pos) step found := by
  cases invoke_outlasts hg hplain hplain' depth depth' hle hid hpos with
  | answers step' found' _ left right =>
      obtain ⟨rfl, rfl⟩ := h.unique left
      exact right
  | misuse shape p _ left _ => exact absurd left h.not_aborts
  | limit p _ left => exact absurd left h.not_aborts

theorem Aborts.mono (hg : g.WellFormed) (hplain : config.memoize = false)
    (hplain' : config'.memoize = false) {allowance allowance' depth : Nat} (depth' : Nat)
    {id : NodeId} {pos : Nat} {shape : Token.Shape} {p : Nat}
    (hle : allowance ≤ allowance') (hid : g.contains id = true) (hpos : pos ≤ input.size)
    (h : Aborts Unread (invoke ⟨g, input, config⟩ allowance depth id pos)
      (.located (.invalidLength shape) p)) :
    Aborts Unread (invoke ⟨g, input, config'⟩ allowance' depth' id pos)
      (.located (.invalidLength shape) p) := by
  cases invoke_outlasts hg hplain hplain' depth depth' hle hid hpos with
  | answers step' found' _ left _ => exact absurd h left.not_aborts
  | misuse shape' p' _ left right =>
      rw [h.unique left]
      exact right
  | limit p' _ left => cases h.unique left

end Plain

end Walk

end Packrat
