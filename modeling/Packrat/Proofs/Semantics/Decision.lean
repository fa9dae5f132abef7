import Packrat.Proofs.Semantics.Rules
import Packrat.Proofs.Walk.Answers

/-!
# Walks that decide a relation

`Decides x P` says all there is to say about a plain walk `x` and the relation `P`
that it is meant to compute: either `x` answers, and `P` holds of that answer and
of no other, or `x` gives up, and `P` holds of nothing. So soundness and
completeness are one statement, for matches as for failures, and it composes: a
walk that goes on with what it was answered decides the composed relation.

The modules that follow go through the program from the leaves up and write down,
piece by piece, the relation that it decides.
-/

namespace Packrat.Semantics

open Walk

section Composition

variable {α β : Type} {x : Walk α} {P P' : α → Prop}

/-- The plain walk answers what `P` holds of, or gives up if that is nothing. -/
inductive Decides (x : Walk α) (P : α → Prop) : Prop where
  | answers (a : α) (found : Option Failure) (run : Answers Unread x a found)
      (holds : ∀ b, P b ↔ b = a)
  | aborts (e : Error) (run : Aborts Unread x e) (fails : ∀ b, ¬ P b)

theorem Decides.congr (h : Decides x P) (hP : ∀ b, P b ↔ P' b) : Decides x P' := by
  cases h with
  | answers a found run holds =>
      exact .answers a found run fun b => (hP b).symm.trans (holds b)
  | aborts e run fails => exact .aborts e run fun b hb => fails b ((hP b).mpr hb)

theorem Decides.pure (a : α) : Decides (Pure.pure a) (fun b => b = a) :=
  .answers a none (Answers.pure a) fun _ => Iff.rfl

theorem Decides.throw (e : Error) : Decides (throw e : Walk α) (fun _ => False) :=
  .aborts e (Aborts.throw e) fun _ => id

theorem Decides.bind {f : α → Walk β} {F : α → β → Prop} {Q : β → Prop} (hx : Decides x P)
    (hf : ∀ a, P a → Decides (f a) (F a)) (hQ : ∀ b, (∃ a, P a ∧ F a b) ↔ Q b) :
    Decides (x >>= f) Q := by
  cases hx with
  | answers a found run holds =>
      have ha : P a := (holds a).mpr rfl
      have hiff : ∀ b, Q b ↔ F a b := by
        intro b
        rw [← hQ b]
        constructor
        · rintro ⟨a', ha', hb⟩
          rw [(holds a').mp ha'] at hb
          exact hb
        · exact fun hb => ⟨a, ha, hb⟩
      cases hf a ha with
      | answers b found' run' holds' =>
          exact .answers b _ (run.bind run') fun c => (hiff c).trans (holds' c)
      | aborts e run' fails' =>
          exact .aborts e (run.bind_aborts run') fun c hc => fails' c ((hiff c).mp hc)
  | aborts e run fails =>
      refine .aborts e run.bind fun b hb => ?_
      obtain ⟨a, ha, _⟩ := (hQ b).mpr hb
      exact fails a ha

/-- Going on after a match as `M` says, and after a failure as `F` says. -/
def Onward (M : Token → Nat → β → Prop) (F : Failure → β → Prop) : Step → β → Prop
  | .matched token stop => M token stop
  | .failed failure => F failure

/-- Going on after a node was tried. -/
theorem Decides.tried {x : Walk Step} {P : Step → Prop} {f : Step → Walk β} {Q : β → Prop}
    {M : Token → Nat → β → Prop} {F : Failure → β → Prop} (hx : Decides x P)
    (hmatched : ∀ token stop, P (.matched token stop) →
      Decides (f (.matched token stop)) (M token stop))
    (hfailed : ∀ failure, P (.failed failure) → Decides (f (.failed failure)) (F failure))
    (hQ : ∀ b, ((∃ token stop, P (.matched token stop) ∧ M token stop b) ∨
      ∃ failure, P (.failed failure) ∧ F failure b) ↔ Q b) :
    Decides (x >>= f) Q := by
  have hcases : ∀ step, P step → Decides (f step) (Onward M F step) := by
    intro step hstep
    cases step with
    | matched token stop => exact hmatched token stop hstep
    | failed failure => exact hfailed failure hstep
  refine hx.bind hcases fun b => Iff.trans ?_ (hQ b)
  constructor
  · rintro ⟨step, hstep, hb⟩
    cases step with
    | matched token stop => exact .inl ⟨token, stop, hstep, hb⟩
    | failed failure => exact .inr ⟨failure, hstep, hb⟩
  · rintro (⟨token, stop, hstep, hb⟩ | ⟨failure, hstep, hb⟩)
    · exact ⟨_, hstep, hb⟩
    · exact ⟨_, hstep, hb⟩

theorem Decides.ite {c : Prop} [Decidable c] {y : Walk α} {Q : α → Prop}
    (hx : c → Decides x P) (hy : ¬ c → Decides y Q) :
    Decides (if c then x else y) (fun b => (c ∧ P b) ∨ (¬ c ∧ Q b)) := by
  by_cases hc : c
  · rw [if_pos hc]
    exact (hx hc).congr fun b => by simp [hc]
  · rw [if_neg hc]
    exact (hy hc).congr fun b => by simp [hc]

theorem Decides.fail (kind : Error.Kind) (pos : Nat) :
    Decides (fail kind pos) (fun step => step = .failed ⟨kind, pos⟩) :=
  .answers _ _ ((Answers.offer _).bind (Answers.pure _)) fun _ => Iff.rfl

theorem Decides.around {x : Walk Step} {P : Step → Prop} (h : Decides x P) (before : Event)
    (after : Step → Event) :
    Decides (do emit before; let step ← x; emit (after step); return step) P := by
  cases h with
  | answers a found run holds => exact .answers a found (run.around before after) holds
  | aborts e run fails => exact .aborts e (run.around before after) fails

/-- A decided relation says what the walk does. -/
theorem Decides.answers_iff (h : Decides x P) {a : α} :
    (∃ found, Answers Unread x a found) ↔ P a := by
  cases h with
  | answers a' found run holds =>
      rw [holds a]
      constructor
      · rintro ⟨found', h'⟩
        exact (h'.unique run).1
      · rintro rfl
        exact ⟨found, run⟩
  | aborts e run fails =>
      constructor
      · rintro ⟨found, h'⟩
        exact absurd run h'.not_aborts
      · exact fun ha => absurd ha (fails a)

theorem Decides.unique (h : Decides x P) {a b : α} (ha : P a) (hb : P b) : a = b := by
  cases h with
  | answers c found run holds => rw [(holds a).mp ha, (holds b).mp hb]
  | aborts e run fails => exact absurd ha (fails a)

end Composition

end Packrat.Semantics
