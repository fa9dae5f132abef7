import Packrat.Proofs.Grammar.WellFormed
import Packrat.Walk.Invoke

/-!
# One argument for every kind of node

The answer of a node is a function of how to try others, so whatever can be said
of two ways of trying nodes carries over to the answers built from them, as long
as it respects the few things a walk is made of: giving a value, going on with
it, taking note of a failure, and giving up. This file makes that observation
once, for all kinds of nodes and all loops.

A comparison `R Q x y` relates two walks `x` and `y` that give the same value,
and says that the value satisfies `Q`. The postcondition is what lets the loops
pass positions on: a node tried inside the input stays inside it, and that fact
comes out of the same induction. With `x` and `y` alike it is a statement about
one walk.
-/

namespace Packrat

/-- A step from `pos` that neither moves back nor leaves an input of `size` bytes. -/
def Step.Within (pos size : Nat) : Step → Prop
  | .matched _ stop => pos ≤ stop ∧ stop ≤ size
  | .failed failure => pos ≤ failure.position ∧ failure.position ≤ size

theorem Step.Within.mono {pos pos' size : Nat} {step : Step} (hle : pos' ≤ pos)
    (h : step.Within pos size) : step.Within pos' size := by
  cases step with
  | matched token stop => exact ⟨Nat.le_trans hle h.1, h.2⟩
  | failed failure => exact ⟨Nat.le_trans hle h.1, h.2⟩

/-- The same for the loops, whose matches come with their tokens. -/
def Step.RunWithin (pos size : Nat) : Except Failure (Array Token × Nat) → Prop
  | .ok (_, stop) => pos ≤ stop ∧ stop ≤ size
  | .error failure => pos ≤ failure.position ∧ failure.position ≤ size

namespace Walk

/-- A comparison of walks over `size` bytes of input that what walks are made of
respects. -/
structure Congruence (size : Nat)
    (R : {α : Type} → (α → Prop) → Walk α → Walk α → Prop) : Prop where
  pure : ∀ {α : Type} {Q : α → Prop} {a : α}, Q a → R Q (pure a) (pure a)
  bind : ∀ {α β : Type} {P : α → Prop} {Q : β → Prop} {x y : Walk α} {f g : α → Walk β},
    R P x y → (∀ a, P a → R Q (f a) (g a)) → R Q (x >>= f) (y >>= g)
  offer : ∀ {failure : Failure}, failure.kind.isFatal = false → failure.position ≤ size →
    R (fun _ => True) (offer failure) (offer failure)
  invalidLength : ∀ {α : Type} {Q : α → Prop} {shape : Token.Shape} {pos : Nat}, pos ≤ size →
    R Q (throw (.located (.invalidLength shape) pos)) (throw (.located (.invalidLength shape) pos))

namespace Congruence

variable {R : {α : Type} → (α → Prop) → Walk α → Walk α → Prop} {input : Array UInt8}

theorem weaken {size : Nat} (h : Congruence size R) {α : Type} {P Q : α → Prop} {x y : Walk α}
    (hxy : R P x y) (hPQ : ∀ a, P a → Q a) : R Q x y := by
  rw [← bind_pure x, ← bind_pure y]
  exact h.bind hxy fun a ha => h.pure (hPQ a ha)

/-- A choice that both walks make alike. -/
theorem ite {α : Type} {Q : α → Prop} {c : Prop} [Decidable c] {x₁ x₂ y₁ y₂ : Walk α}
    (hx : R Q x₁ x₂) (hy : R Q y₁ y₂) : R Q (if c then x₁ else y₁) (if c then x₂ else y₂) := by
  by_cases hc : c
  · rw [if_pos hc, if_pos hc]; exact hx
  · rw [if_neg hc, if_neg hc]; exact hy

/-! ## The leaves -/

theorem fail {size : Nat} (h : Congruence size R) {kind : Error.Kind} {pos position : Nat}
    (hkind : kind.isFatal = false) (hlo : pos ≤ position) (hhi : position ≤ size) :
    R (Step.Within pos size) (Walk.fail kind position) (Walk.fail kind position) :=
  h.bind (h.offer hkind hhi) fun _ _ => h.pure ⟨hlo, hhi⟩

theorem oneByte (h : Congruence input.size R) {check : UInt8 → Option Error.Kind} {pos : Nat}
    (hcheck : ∀ found kind, check found = some kind → kind.isFatal = false)
    (hpos : pos ≤ input.size) :
    R (Step.Within pos input.size) (Walk.oneByte input check pos)
      (Walk.oneByte input check pos) := by
  unfold Walk.oneByte
  split
  · exact h.fail rfl (Nat.le_refl pos) hpos
  · next found hfound =>
      have hlt : pos < input.size := (Array.getElem?_eq_some_iff.mp hfound).1
      split
      · exact h.pure ⟨Nat.le_succ pos, hlt⟩
      · next kind hkind => exact h.fail (hcheck found kind hkind) (Nat.le_refl pos) hpos

/-- A check that refuses a byte with one kind of failure. -/
theorem refuses {c : Prop} [Decidable c] {refusal kind : Error.Kind}
    (hrefusal : refusal.isFatal = false)
    (h : (if c then none else some refusal) = some kind) : kind.isFatal = false := by
  split at h
  · cases h
  · cases h
    exact hrefusal

/-- Where a byte string was left, or that all of it is there. -/
theorem mismatch?_within {pos : Nat} :
    ∀ (expected : List UInt8) (offset : Nat), pos + offset ≤ input.size →
      match mismatch? input pos offset expected with
      | none => pos + offset + expected.length ≤ input.size
      | some failure => failure.kind.isFatal = false ∧
          pos ≤ failure.position ∧ failure.position ≤ input.size := by
  intro expected
  induction expected with
  | nil => intro offset hoff; exact hoff
  | cons first rest ih =>
      intro offset hoff
      rw [mismatch?]
      cases hfound : input[pos + offset]? with
      | none => exact ⟨rfl, Nat.le_add_right pos offset, hoff⟩
      | some found =>
          have hlt : pos + offset < input.size := (Array.getElem?_eq_some_iff.mp hfound).1
          simp only []
          by_cases heq : found = first
          · rw [if_pos heq]
            have hrest := ih (offset + 1) (by omega)
            cases hm : mismatch? input pos (offset + 1) rest with
            | none =>
                rw [hm] at hrest
                simp only [List.length_cons] at hrest ⊢
                omega
            | some failure => rw [hm] at hrest; exact hrest
          · rw [if_neg heq]
            exact ⟨rfl, Nat.le_add_right pos offset, hoff⟩

theorem byteString (h : Congruence input.size R) {expected : List UInt8} {pos : Nat}
    (hpos : pos ≤ input.size) :
    R (Step.Within pos input.size) (Walk.byteString input expected pos)
      (Walk.byteString input expected pos) := by
  have hwithin := mismatch?_within expected 0 hpos
  unfold Walk.byteString
  cases hm : mismatch? input pos 0 expected with
  | none =>
      rw [hm] at hwithin
      exact h.pure ⟨Nat.le_add_right pos _, hwithin⟩
  | some failure =>
      rw [hm] at hwithin
      obtain ⟨hkind, hlo, hhi⟩ := hwithin
      exact h.fail hkind hlo hhi

theorem integer (h : Congruence input.size R) {width pos : Nat} {isSigned : Bool}
    (hpos : pos ≤ input.size) :
    R (Step.Within pos input.size) (Walk.integer input width isSigned pos)
      (Walk.integer input width isSigned pos) := by
  unfold Walk.integer
  split
  · next hfits => exact h.pure ⟨Nat.le_add_right pos width, hfits⟩
  · exact h.fail rfl hpos (Nat.le_refl _)

theorem add_blanks_le {pos : Nat} (hpos : pos ≤ input.size) :
    pos + blanks input pos ≤ input.size := by
  have hle : blanks input pos ≤ (slice input pos (input.size - pos)).length :=
    (List.takeWhile_sublist _).length_le
  have hslice : (slice input pos (input.size - pos)).length ≤ input.size - pos := by
    simp only [slice, Array.length_toList, Array.size_extract]
    omega
  omega

/-! ## Members, alternatives and loops

Each of them tries nodes that the compound node refers to, from positions that
only grow. `Tries` says what the two ways of trying have in common there. -/

/-- Two ways of trying one of `nodes` at `pos` or later compare. -/
def Tries (R : {α : Type} → (α → Prop) → Walk α → Walk α → Prop) (size : Nat)
    (call₁ call₂ : NodeId → Nat → Walk Step) (nodes : List NodeId) (pos : Nat) : Prop :=
  ∀ id ∈ nodes, ∀ p, pos ≤ p → p ≤ size → R (Step.Within p size) (call₁ id p) (call₂ id p)

variable {call₁ call₂ : NodeId → Nat → Walk Step} {size : Nat}

theorem Tries.mono {nodes nodes' : List NodeId} {pos pos' : Nat}
    (h : Tries R size call₁ call₂ nodes pos) (hsub : nodes' ⊆ nodes) (hle : pos ≤ pos') :
    Tries R size call₁ call₂ nodes' pos' :=
  fun id hid p hp hsize => h id (hsub hid) p (Nat.le_trans hle hp) hsize

theorem members (h : Congruence size R) {pos : Nat} :
    ∀ {nodes : List NodeId} {tokens : Array Token} {cursor : Nat},
      Tries R size call₁ call₂ nodes pos → pos ≤ cursor → cursor ≤ size →
      R (Step.RunWithin pos size) (Walk.members call₁ nodes tokens cursor)
        (Walk.members call₂ nodes tokens cursor) := by
  intro nodes
  induction nodes with
  | nil => intro tokens cursor _ hlo hhi; exact h.pure ⟨hlo, hhi⟩
  | cons first rest ih =>
      intro tokens cursor htry hlo hhi
      rw [Walk.members, Walk.members]
      refine h.bind (htry first List.mem_cons_self cursor hlo hhi) ?_
      intro step hstep
      cases step with
      | matched token stop =>
          exact ih (htry.mono (List.subset_cons_self ..) (Nat.le_refl pos))
            (Nat.le_trans hlo hstep.1) hstep.2
      | failed failure => exact h.pure ⟨Nat.le_trans hlo hstep.1, hstep.2⟩

theorem firstOf (h : Congruence size R) {pos : Nat} (hpos : pos ≤ size) :
    ∀ {alternatives : List NodeId}, Tries R size call₁ call₂ alternatives pos →
      R (Step.Within pos size) (Walk.firstOf call₁ pos alternatives)
        (Walk.firstOf call₂ pos alternatives) := by
  intro alternatives
  induction alternatives with
  | nil => intro _; exact h.fail rfl (Nat.le_refl pos) hpos
  | cons first rest ih =>
      intro htry
      rw [Walk.firstOf, Walk.firstOf]
      refine h.bind (htry first List.mem_cons_self pos (Nat.le_refl pos) hpos) ?_
      intro step hstep
      cases step with
      | matched token stop => exact h.pure hstep
      | failed failure => exact ih (htry.mono (List.subset_cons_self ..) (Nat.le_refl pos))

theorem repetition (h : Congruence size R) {node : NodeId} {min : Nat} {max : Option Nat}
    {pos : Nat} (htry : Tries R size call₁ call₂ [node] pos) :
    ∀ {budget : Nat} {tokens : Array Token} {cursor : Nat}, pos ≤ cursor → cursor ≤ size →
      R (fun run => pos ≤ run.2 ∧ run.2 ≤ size)
        (Walk.repetition call₁ node min max budget tokens cursor)
        (Walk.repetition call₂ node min max budget tokens cursor) := by
  intro budget
  induction budget with
  | zero => intro tokens cursor hlo hhi; exact h.pure ⟨hlo, hhi⟩
  | succ budget ih =>
      intro tokens cursor hlo hhi
      rw [Walk.repetition, Walk.repetition]
      split
      · exact h.pure ⟨hlo, hhi⟩
      · refine h.bind (htry node List.mem_cons_self cursor hlo hhi) ?_
        intro step hstep
        cases step with
        | matched token stop =>
            have hlo' : pos ≤ stop := Nat.le_trans hlo hstep.1
            simp only []
            split
            · exact h.pure ⟨hlo', hstep.2⟩
            · exact ih hlo' hstep.2
        | failed failure => exact h.pure ⟨hlo, hhi⟩

theorem separated (h : Congruence size R) {node separator : NodeId} {pos : Nat}
    (htry : Tries R size call₁ call₂ [node, separator] pos) :
    ∀ {budget : Nat} {tokens : Array Token} {cursor : Nat}, pos ≤ cursor → cursor ≤ size →
      R (fun run => pos ≤ run.2 ∧ run.2 ≤ size)
        (Walk.separated call₁ node separator budget tokens cursor)
        (Walk.separated call₂ node separator budget tokens cursor) := by
  intro budget
  induction budget with
  | zero => intro tokens cursor hlo hhi; exact h.pure ⟨hlo, hhi⟩
  | succ budget ih =>
      intro tokens cursor hlo hhi
      rw [Walk.separated, Walk.separated]
      refine h.bind (htry separator (by simp) cursor hlo hhi) ?_
      intro step hstep
      cases step with
      | failed failure => exact h.pure ⟨hlo, hhi⟩
      | matched skipped behind =>
          have hbehind : pos ≤ behind := Nat.le_trans hlo hstep.1
          refine h.bind (htry node (by simp) behind hbehind hstep.2) ?_
          intro step hstep'
          cases step with
          | failed failure => exact h.pure ⟨hlo, hhi⟩
          | matched token stop =>
              simp only []
              split
              · exact h.pure ⟨hlo, hhi⟩
              · exact ih (Nat.le_trans hbehind hstep'.1) hstep'.2

theorem counted (h : Congruence size R) {node : NodeId} {pos : Nat}
    (htry : Tries R size call₁ call₂ [node] pos) :
    ∀ {count : Nat} {tokens : Array Token} {cursor : Nat}, pos ≤ cursor → cursor ≤ size →
      R (Step.RunWithin pos size) (Walk.counted call₁ node count tokens cursor)
        (Walk.counted call₂ node count tokens cursor) := by
  intro count
  induction count with
  | zero => intro tokens cursor hlo hhi; exact h.pure ⟨hlo, hhi⟩
  | succ count ih =>
      intro tokens cursor hlo hhi
      rw [Walk.counted, Walk.counted]
      refine h.bind (htry node List.mem_cons_self cursor hlo hhi) ?_
      intro step hstep
      cases step with
      | matched token stop => exact ih (Nat.le_trans hlo hstep.1) hstep.2
      | failed failure => exact h.pure ⟨Nat.le_trans hlo hstep.1, hstep.2⟩

/-! ## Repetitions and counts -/

theorem repeated (h : Congruence input.size R) {node : NodeId} {min : Nat} {max : Option Nat}
    {pos : Nat} (hpos : pos ≤ input.size) (htry : Tries R input.size call₁ call₂ [node] pos) :
    R (Step.Within pos input.size) (Walk.repeated call₁ input node min max pos)
      (Walk.repeated call₂ input node min max pos) := by
  unfold Walk.repeated
  refine h.bind (h.repetition htry (Nat.le_refl pos) hpos) ?_
  intro run hrun
  simp only []
  split
  · exact h.fail rfl hrun.1 hrun.2
  · exact h.pure hrun

theorem sepBy (h : Congruence input.size R) {node separator : NodeId} {min pos : Nat}
    (hpos : pos ≤ input.size) (htry : Tries R input.size call₁ call₂ [node, separator] pos) :
    R (Step.Within pos input.size) (Walk.sepBy call₁ input node separator min pos)
      (Walk.sepBy call₂ input node separator min pos) := by
  unfold Walk.sepBy
  refine h.bind (htry node (by simp) pos (Nat.le_refl pos) hpos) ?_
  intro step hstep
  cases step with
  | failed failure =>
      simp only []
      split
      · exact h.pure ⟨Nat.le_refl pos, hpos⟩
      · exact h.fail rfl (Nat.le_refl pos) hpos
  | matched token stop =>
      exact h.bind (h.separated htry hstep.1 hstep.2) fun run hrun => h.pure hrun

theorem lengthValue (h : Congruence input.size R) {length : NodeId} {element : Element}
    {pos : Nat} (hpos : pos ≤ input.size)
    (htry : Tries R input.size call₁ call₂ (Node.lengthValue length element).children pos) :
    R (Step.Within pos input.size) (Walk.lengthValue call₁ input length element pos)
      (Walk.lengthValue call₂ input length element pos) := by
  have hlength : length ∈ (Node.lengthValue length element).children := by
    cases element <;> simp [Node.children]
  unfold Walk.lengthValue
  refine h.bind (htry length hlength pos (Nat.le_refl pos) hpos) ?_
  intro step hstep
  cases step with
  | failed failure => exact h.pure hstep
  | matched countToken start =>
      simp only []
      split
      · exact h.invalidLength hstep.2
      · next declared _ =>
          cases element with
          | byte =>
              simp only []
              split
              · next hfits =>
                  have hstart := hstep.1
                  have hsize := hstep.2
                  exact h.pure ⟨by omega, by omega⟩
              · exact h.fail rfl hstep.1 hstep.2
          | node node =>
              have htry' : Tries R input.size call₁ call₂ [node] pos :=
                htry.mono (by simp [Node.children]) (Nat.le_refl pos)
              refine h.bind (h.counted htry' hstep.1 hstep.2) ?_
              intro run hrun
              cases run with
              | ok found => exact h.pure hrun
              | error failure => exact h.pure hrun

/-! ## Any node -/

/-- Two ways of trying a node's children that compare give answers of the node
that compare, and neither leaves the input. -/
theorem answer {g : Grammar} {config₁ config₂ : Config} (h : Congruence input.size R)
    {id : NodeId} {node : Node} {pos : Nat} (hnode : g.node? id = some node)
    (hbound : node ≠ .indirect none) (hpos : pos ≤ input.size)
    (htry : Tries R input.size call₁ call₂ node.children pos) :
    R (Step.Within pos input.size) (Walk.answer ⟨g, input, config₁⟩ call₁ id pos)
      (Walk.answer ⟨g, input, config₂⟩ call₂ id pos) := by
  have hstay : Step.Within pos input.size (.matched .none pos) := ⟨Nat.le_refl pos, hpos⟩
  unfold Walk.answer
  simp only [hnode]
  cases node with
  | literal expected => exact h.oneByte (fun _ _ => refuses rfl) hpos
  | range low high => exact h.oneByte (fun _ _ => refuses rfl) hpos
  | set allowed => exact h.oneByte (fun _ _ => refuses rfl) hpos
  | anyByte => exact h.oneByte nofun hpos
  | bytes expected => exact h.byteString hpos
  | unsigned width => exact h.integer hpos
  | signed width => exact h.integer hpos
  | sequence nodes | pick nodes keep =>
      refine h.bind (h.members htry (Nat.le_refl pos) hpos) ?_
      intro run hrun
      cases run with
      | ok found => exact h.pure hrun
      | error failure => exact h.pure hrun
  | choice alternatives => exact h.firstOf hpos htry
  | optional inner =>
      refine h.bind (htry inner List.mem_cons_self pos (Nat.le_refl pos) hpos) ?_
      intro step hstep
      cases step with
      | matched token stop => exact h.pure hstep
      | failed failure => exact h.pure hstay
  | repeated inner min max => exact h.repeated hpos htry
  | sepBy inner separator min => exact h.sepBy hpos htry
  | action inner action =>
      refine h.bind (htry inner List.mem_cons_self pos (Nat.le_refl pos) hpos) ?_
      intro step hstep
      cases step with
      | matched token stop =>
          simp only []
          split
          · exact h.pure hstep
          · exact h.fail rfl hstep.1 hstep.2
      | failed failure => exact h.pure hstep
  | lengthValue length element => exact h.lengthValue hpos htry
  | lookahead inner positive =>
      refine h.bind (htry inner List.mem_cons_self pos (Nat.le_refl pos) hpos) ?_
      intro step _
      exact ite (h.pure hstay) (h.fail rfl (Nat.le_refl pos) hpos)
  | whitespace inner =>
      have hle := Nat.le_add_right pos (blanks input pos)
      exact h.weaken (htry inner List.mem_cons_self _ hle (add_blanks_le hpos))
        fun _ hstep => hstep.mono hle
  | endOfInput => exact ite (h.pure hstay) (h.fail rfl (Nat.le_refl pos) hpos)
  | epsilon => exact h.pure hstay
  | nothing => exact h.fail rfl (Nat.le_refl pos) hpos
  | indirect target =>
      cases target with
      | none => exact absurd rfl hbound
      | some target => exact htry target List.mem_cons_self pos (Nat.le_refl pos) hpos

end Congruence

end Walk

end Packrat
