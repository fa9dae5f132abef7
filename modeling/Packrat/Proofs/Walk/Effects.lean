import Packrat.Proofs.Grammar.Reach
import Packrat.Proofs.Walk.Memory

/-!
# What a walk does to its progress

A walk that answers has taken the progress somewhere, and so has one that gives up.
An `Effect` says where to, for both. If an effect composes, the programs of the
nodes need not be looked at again: they have it as soon as the ways of trying other
nodes have it (`Has.answer`). As elsewhere this is relative to an invariant of the
memory.

What is left is the walk around a node: entering, remembering, leaving. `Visited`
lists the ends that this may come to, and whoever asks for its effect goes through
them.
-/

namespace Packrat.Walk

/-- How a walk may change the progress if it answers, and if it gives up. -/
structure Effect where
  answers : Progress → Progress → Prop
  aborts : Error → Progress → Progress → Prop

namespace Effect

/-- Going on keeps the effect, and so do the two things that nodes do by themselves:
taking note of a failure, and giving up over a length. -/
structure Composes (E : Effect) (size : Nat) : Prop where
  refl : ∀ s, E.answers s s
  trans : ∀ {s s' s''}, E.answers s s' → E.answers s' s'' → E.answers s s''
  absorb : ∀ {e s s' s''}, E.answers s s' → E.aborts e s' s'' → E.aborts e s s''
  offer : ∀ {failure : Failure} {s}, failure.kind.isFatal = false → failure.position ≤ size →
    E.answers s { s with furthest := further s.furthest failure }
  invalidLength : ∀ {shape pos s}, pos ≤ size →
    E.aborts (.located (.invalidLength shape) pos) s s

/-- A walk from `s` that ends so has the effect. -/
def Covers (E : Effect) {α : Type} (s : Progress) : EStateM.Result Error Progress α → Prop
  | .ok _ s' => E.answers s s'
  | .error e s' => E.aborts e s s'

end Effect

/-- The walk has the effect wherever the memory is sound, keeps it sound, and answers
as `Q` says. -/
def Has (I : Memory → Prop) (E : Effect) {α : Type} (Q : α → Prop) (x : Walk α) : Prop :=
  ∀ s, I s.memo → E.Covers s (x s) ∧ ∀ a s', x s = .ok a s' → Q a ∧ I s'.memo

namespace Has

variable {I : Memory → Prop} {E : Effect} {size : Nat} {α β : Type}

theorem answers {Q : α → Prop} {x : Walk α} (h : Has I E Q x) {s s' : Progress} {a : α}
    (hrun : x s = .ok a s') (hs : I s.memo) : E.answers s s' := by
  have hcovers := (h s hs).1
  rw [hrun] at hcovers
  exact hcovers

theorem aborts {Q : α → Prop} {x : Walk α} (h : Has I E Q x) {s s' : Progress} {e : Error}
    (hrun : x s = .error e s') (hs : I s.memo) : E.aborts e s s' := by
  have hcovers := (h s hs).1
  rw [hrun] at hcovers
  exact hcovers

theorem pure (hE : E.Composes size) {Q : α → Prop} {a : α} (ha : Q a) :
    Has I E Q (Pure.pure a) := by
  intro s hs
  refine ⟨hE.refl s, fun b s' hrun => ?_⟩
  cases hrun
  exact ⟨ha, hs⟩

theorem throw {Q : α → Prop} {e : Error} (he : ∀ s, E.aborts e s s) :
    Has I E Q (throw e : Walk α) :=
  fun s _ => ⟨he s, nofun⟩

theorem bind (hE : E.Composes size) {P : α → Prop} {Q : β → Prop} {x : Walk α}
    {f : α → Walk β} (hx : Has I E P x) (hf : ∀ a, P a → Has I E Q (f a)) :
    Has I E Q (x >>= f) := by
  intro s hs
  cases hrun : x s with
  | error e s₁ =>
      rw [bind_of_error hrun]
      exact ⟨hx.aborts hrun hs, nofun⟩
  | ok a s₁ =>
      have hfirst := hx.answers hrun hs
      obtain ⟨ha, hs₁⟩ := (hx s hs).2 a s₁ hrun
      rw [bind_of_ok hrun]
      refine ⟨?_, (hf a ha s₁ hs₁).2⟩
      cases hrun' : f a s₁ with
      | error e s₂ => exact hE.absorb hfirst ((hf a ha).aborts hrun' hs₁)
      | ok b s₂ => exact hE.trans hfirst ((hf a ha).answers hrun' hs₁)

theorem offer (hE : E.Composes size) {failure : Failure}
    (hkind : failure.kind.isFatal = false) (hpos : failure.position ≤ size) :
    Has I E (fun _ => True) (Walk.offer failure) := by
  intro s hs
  refine ⟨hE.offer hkind hpos, fun a s' hrun => ?_⟩
  cases hrun
  exact ⟨trivial, hs⟩

theorem congruence (hE : E.Composes size) :
    Congruence size fun {_} Q x _ => Has I E Q x where
  pure ha := pure hE ha
  bind hx hf := bind hE hx hf
  offer hkind hpos := offer hE hkind hpos
  invalidLength hpos := throw fun _ => hE.invalidLength hpos

/-- The answer of a node has the effect if trying its children has. -/
theorem answer_of_children {g : Grammar} {input : Array UInt8} {config : Config}
    (hg : g.WellFormed) (hE : E.Composes input.size) {call : NodeId → Nat → Walk Step}
    {id : NodeId} {pos : Nat} (hid : g.contains id = true) (hpos : pos ≤ input.size)
    (hcall : ∀ child p, g.Child id child → p ≤ input.size →
      Has I E (Step.Within p input.size) (call child p)) :
    Has I E (Step.Within pos input.size) (Walk.answer ⟨g, input, config⟩ call id pos) := by
  obtain ⟨node, hnode⟩ := Grammar.exists_node_of_contains hid
  have hmem := Grammar.mem_of_node?_eq_some hnode
  have hbound : node ≠ .indirect none := fun heq => hg.bound (heq ▸ hmem)
  -- the second way of trying is not looked at
  have htry : Congruence.Tries (fun {_} Q x _ => Has I E Q x) input.size call call
      node.children pos :=
    fun child hchild p _ hp => hcall child p (Grammar.child_of_node? hnode hchild) hp
  apply (congruence hE).answer hnode hbound hpos htry
  exact config

/-- So it has if trying any node of the grammar has. -/
theorem answer {g : Grammar} {input : Array UInt8} {config : Config} (hg : g.WellFormed)
    (hE : E.Composes input.size) {call : NodeId → Nat → Walk Step}
    (hcall : ∀ child p, g.contains child = true → p ≤ input.size →
      Has I E (Step.Within p input.size) (call child p))
    {id : NodeId} {pos : Nat} (hid : g.contains id = true) (hpos : pos ≤ input.size) :
    Has I E (Step.Within pos input.size) (Walk.answer ⟨g, input, config⟩ call id pos) :=
  answer_of_children hg hE hid hpos fun child p hchild hp => hcall child p (hchild.contains hg) hp

end Has

/-! ## Visits -/

/-- A try of a node, given the work of finding its answer. -/
def visit (config : Config) (id : NodeId) (pos depth : Nat) (work : Walk Step) : Walk Step := do
  emit (.enter id pos depth)
  let step ← if config.memoize then remembered id pos depth work else work
  emit (leaving id pos depth step)
  return step

theorem invoke_eq_visit (task : Task) (allowance depth : Nat) (id : NodeId) (pos : Nat) :
    invoke task (allowance + 1) depth id pos =
      visit task.config id pos depth
        (answer task (invoke task allowance (depth + 1)) id pos) := rfl

/-- The ends that a visit from `s` may come to. -/
inductive Visited (config : Config) (id : NodeId) (pos depth : Nat) (work : Walk Step)
    (s : Progress) : EStateM.Result Error Progress Step → Prop where
  | plain {step : Step} {s₁ : Progress} (off : config.memoize = false)
      (run : work { s with events := s.events.push (.enter id pos depth) } = .ok step s₁) :
      Visited config id pos depth work s
        (.ok step { s₁ with events := s₁.events.push (leaving id pos depth step) })
  | plainAborts {e : Error} {s₁ : Progress} (off : config.memoize = false)
      (run : work { s with events := s.events.push (.enter id pos depth) } = .error e s₁) :
      Visited config id pos depth work s (.error e s₁)
  | told {step : Step} {found : Option Failure} (on : config.memoize = true)
      (known : s.memo[(id.index, pos)]? = some (step, found)) :
      Visited config id pos depth work s
        (.ok step { s with
          furthest := join s.furthest found
          events := ((s.events.push (.enter id pos depth)).push (.memoHit id pos depth)).push
            (leaving id pos depth step) })
  | found {step : Step} {s₁ : Progress} (on : config.memoize = true)
      (unknown : s.memo[(id.index, pos)]? = none)
      (run : work { s with
        furthest := none, events := s.events.push (.enter id pos depth) } = .ok step s₁) :
      Visited config id pos depth work s
        (.ok step {
          furthest := join s.furthest s₁.furthest
          memo := s₁.memo.insert (id.index, pos) (step, s₁.furthest)
          events := s₁.events.push (leaving id pos depth step) })
  | foundAborts {e : Error} {s₁ : Progress} (on : config.memoize = true)
      (unknown : s.memo[(id.index, pos)]? = none)
      (run : work { s with
        furthest := none, events := s.events.push (.enter id pos depth) } = .error e s₁) :
      Visited config id pos depth work s (.error e s₁)

theorem visited {config : Config} {id : NodeId} {pos depth : Nat} {work : Walk Step}
    {s : Progress} {r : EStateM.Result Error Progress Step}
    (h : visit config id pos depth work s = r) : Visited config id pos depth work s r := by
  subst h
  rw [visit, emit_bind]
  cases hmemo : config.memoize with
  | false =>
      rw [if_neg Bool.false_ne_true]
      cases hrun : work { s with events := s.events.push (.enter id pos depth) } with
      | ok step s₁ =>
          rw [bind_of_ok hrun]
          exact .plain hmemo hrun
      | error e s₁ =>
          rw [bind_of_error hrun]
          exact .plainAborts hmemo hrun
  | true =>
      rw [if_pos rfl]
      cases hentry : s.memo[(id.index, pos)]? with
      | some entry =>
          have hhit : remembered id pos depth work
              { s with events := s.events.push (.enter id pos depth) } = .ok entry.1 _ :=
            remembered_hit hentry
          rw [bind_of_ok hhit]
          exact .told hmemo hentry
      | none =>
          cases hrun : work { s with
              furthest := none, events := s.events.push (.enter id pos depth) } with
          | ok step s₁ =>
              have hmiss : remembered id pos depth work
                  { s with events := s.events.push (.enter id pos depth) } = .ok step _ :=
                remembered_miss hentry hrun
              rw [bind_of_ok hmiss]
              exact .found hmemo hentry hrun
          | error e s₁ =>
              have hmiss : remembered id pos depth work
                  { s with events := s.events.push (.enter id pos depth) } = .error e s₁ :=
                remembered_miss_error hentry hrun
              rw [bind_of_error hmiss]
              exact .foundAborts hmemo hentry hrun

end Packrat.Walk
