import Packrat.Proofs.Semantics.Rules

/-!
# How high derivations are

A rule uses finitely many premises. So if each premise holds from some level on,
there is one level from which on all of them do, and the conclusion with them.
That is said once, of each of the relations on lists and of the rules, and two
things follow from it. With premises that do not depend on a level it says that
more premises never take a conclusion back (`Rule.mono`); with the premises of a
derivation it says that every derivation has a height (`yields_iff_yieldsWithin`).
-/

namespace Packrat.Semantics

/-! ## From some level on -/

/-- The property holds from some level on. -/
def Ultimately (p : Nat → Prop) : Prop := ∃ n, ∀ m, n ≤ m → p m

namespace Ultimately

variable {p q r : Nat → Prop}

theorem always (h : ∀ m, p m) : Ultimately p :=
  ⟨0, fun m _ => h m⟩

theorem map (hp : Ultimately p) (f : ∀ m, p m → q m) : Ultimately q := by
  obtain ⟨n, hn⟩ := hp
  exact ⟨n, fun m hm => f m (hn m hm)⟩

theorem map₂ (hp : Ultimately p) (hq : Ultimately q) (f : ∀ m, p m → q m → r m) :
    Ultimately r := by
  obtain ⟨n, hn⟩ := hp
  obtain ⟨k, hk⟩ := hq
  refine ⟨max n k, fun m hm => f m (hn m ?_) (hk m ?_)⟩
  · exact Nat.le_trans (Nat.le_max_left n k) hm
  · exact Nat.le_trans (Nat.le_max_right n k) hm

theorem holds (hp : Ultimately p) : ∃ n, p n := by
  obtain ⟨n, hn⟩ := hp
  exact ⟨n, hn n (Nat.le_refl n)⟩

end Ultimately

/-! ## Premises that hold from some level on -/

section Climbs

variable {R : Judgement} {W : Nat → Judgement}

/-- Whatever `R` says holds in `W` from some level on. -/
def Climbs (R : Judgement) (W : Nat → Judgement) : Prop :=
  ∀ {id pos step}, R id pos step → Ultimately fun n => W n id pos step

theorem Members.climb (hc : Climbs R W) {ids : List NodeId} {pos : Nat} {tokens : List Token}
    {stop : Nat} (h : Members R ids pos tokens stop) :
    Ultimately fun n => Members (W n) ids pos tokens stop := by
  induction h with
  | nil => exact .always fun _ => .nil
  | cons hstep _ ih => exact (hc hstep).map₂ ih fun _ => .cons

theorem MemberFails.climb (hc : Climbs R W) {ids : List NodeId} {pos : Nat} {failure : Failure}
    (h : MemberFails R ids pos failure) :
    Ultimately fun n => MemberFails (W n) ids pos failure := by
  induction h with
  | here hstep => exact (hc hstep).map fun _ => .here
  | later hstep _ ih => exact (hc hstep).map₂ ih fun _ => .later

theorem FirstMatches.climb (hc : Climbs R W) {ids : List NodeId} {pos : Nat} {token : Token}
    {stop : Nat} (h : FirstMatches R ids pos token stop) :
    Ultimately fun n => FirstMatches (W n) ids pos token stop := by
  induction h with
  | here hstep => exact (hc hstep).map fun _ => .here
  | later hstep _ ih => exact (hc hstep).map₂ ih fun _ => .later

theorem AllFail.climb (hc : Climbs R W) {ids : List NodeId} {pos : Nat}
    (h : AllFail R ids pos) : Ultimately fun n => AllFail (W n) ids pos := by
  induction h with
  | nil => exact .always fun _ => .nil
  | cons hstep _ ih => exact (hc hstep).map₂ ih fun _ => .cons

theorem Rounds.climb (hc : Climbs R W) {id : NodeId} {min : Nat} {max : Option Nat}
    {count pos : Nat} {tokens : List Token} {stop : Nat}
    (h : Rounds R id min max count pos tokens stop) :
    Ultimately fun n => Rounds (W n) id min max count pos tokens stop := by
  induction h with
  | full hmax hm => exact .always fun _ => .full hmax hm
  | fails hroom hstep => exact (hc hstep).map fun _ => .fails hroom
  | stalls hroom hstep hmin => exact (hc hstep).map fun _ h => .stalls hroom h hmin
  | round hroom hstep hgo _ ih => exact (hc hstep).map₂ ih fun _ h => .round hroom h hgo

theorem Pairs.climb (hc : Climbs R W) {id separator : NodeId} {pos : Nat}
    {tokens : List Token} {stop : Nat} (h : Pairs R id separator pos tokens stop) :
    Ultimately fun n => Pairs (W n) id separator pos tokens stop := by
  induction h with
  | noSeparator hsep => exact (hc hsep).map fun _ => .noSeparator
  | noElement hsep hstep => exact (hc hsep).map₂ (hc hstep) fun _ => .noElement
  | stalls hsep hstep => exact (hc hsep).map₂ (hc hstep) fun _ => .stalls
  | pair hsep hstep hgo _ ih =>
      exact ((hc hsep).map₂ (hc hstep) fun _ => And.intro).map₂ ih fun _ h =>
        .pair h.1 h.2 hgo

theorem Rule.climb {input : Array UInt8} (hc : Climbs R W) {node : Node} {pos : Nat}
    {step : Step} (h : Rule input R node pos step) :
    Ultimately fun n => Rule input (W n) node pos step := by
  cases h with
  | leaf hleaf => exact .always fun _ => .leaf hleaf
  | sequence hmembers => exact (hmembers.climb hc).map fun _ => .sequence
  | sequence_fails hfails => exact (hfails.climb hc).map fun _ => .sequence_fails
  | pick hmembers htoken => exact (hmembers.climb hc).map fun _ h => .pick h htoken
  | pick_fails hfails => exact (hfails.climb hc).map fun _ => .pick_fails
  | choice hfirst => exact (hfirst.climb hc).map fun _ => .choice
  | choice_fails hall => exact (hall.climb hc).map fun _ => .choice_fails
  | optional hstep => exact (hc hstep).map fun _ => .optional
  | optional_none hstep => exact (hc hstep).map fun _ => .optional_none
  | repeated hrounds hmin => exact (hrounds.climb hc).map fun _ h => .repeated h hmin
  | repeated_fails hrounds hmin => exact (hrounds.climb hc).map fun _ h => .repeated_fails h hmin
  | sepBy hstep hpairs => exact (hc hstep).map₂ (hpairs.climb hc) fun _ => .sepBy
  | sepBy_none hstep => exact (hc hstep).map fun _ => .sepBy_none
  | sepBy_fails hstep hmin => exact (hc hstep).map fun _ h => .sepBy_fails h hmin
  | action hstep hresult => exact (hc hstep).map fun _ h => .action h hresult
  | action_rejects hstep hnone => exact (hc hstep).map fun _ h => .action_rejects h hnone
  | action_fails hstep => exact (hc hstep).map fun _ => .action_fails
  | length_fails hstep => exact (hc hstep).map fun _ => .length_fails
  | length_bytes hstep hcount hfits =>
      exact (hc hstep).map fun _ h => .length_bytes h hcount hfits
  | length_exceeds hstep hcount hover =>
      exact (hc hstep).map fun _ h => .length_exceeds h hcount hover
  | length_nodes hstep hcount hmembers =>
      exact (hc hstep).map₂ (hmembers.climb hc) fun _ h => .length_nodes h hcount
  | length_node_fails hstep hcount hfails =>
      exact (hc hstep).map₂ (hfails.climb hc) fun _ h => .length_node_fails h hcount
  | followed hstep => exact (hc hstep).map fun _ => .followed
  | followed_fails hstep => exact (hc hstep).map fun _ => .followed_fails
  | notFollowed hstep => exact (hc hstep).map fun _ => .notFollowed
  | notFollowed_fails hstep => exact (hc hstep).map fun _ => .notFollowed_fails
  | whitespace hrun hstep => exact (hc hstep).map fun _ => .whitespace hrun
  | indirect hstep => exact (hc hstep).map fun _ => .indirect

end Climbs

/-! ## Derivations -/

theorem Rule.mono {input : Array UInt8} {R R' : Judgement} {node : Node} {pos : Nat}
    {step : Step} (hR : ∀ {id p s}, R id p s → R' id p s) (h : Rule input R node pos step) :
    Rule input R' node pos step := by
  have hc : Climbs R fun _ => R' := fun hstep => .always fun _ => hR hstep
  obtain ⟨_, h'⟩ := (h.climb hc).holds
  exact h'

section Derivations

variable {g : Grammar} {input : Array UInt8} {id : NodeId} {pos : Nat} {step : Step}

theorem YieldsWithin.mono : ∀ {levels levels' : Nat} {id : NodeId} {pos : Nat} {step : Step},
    levels ≤ levels' → YieldsWithin g input levels id pos step →
    YieldsWithin g input levels' id pos step := by
  intro levels
  induction levels with
  | zero => intro _ _ _ _ _ h; exact h.elim
  | succ levels ih =>
      intro levels' id pos step hle h
      obtain ⟨m, rfl⟩ : ∃ m, levels' = m + 1 := ⟨levels' - 1, by omega⟩
      obtain ⟨node, hnode, hrule⟩ := h
      exact ⟨node, hnode, hrule.mono fun hstep => ih (by omega) hstep⟩

/-- A node yields what its rules make of what nodes yield. -/
theorem yields_iff_rule {node : Node} (hnode : g.node? id = some node) :
    Yields g input id pos step ↔ Rule input (Yields g input) node pos step := by
  refine ⟨fun h => ?_, .node (fun _ _ _ hstep => hstep) hnode⟩
  cases h with
  | node hpremises hnode' hrule =>
      rw [hnode] at hnode'
      cases hnode'
      exact hrule.mono (hpremises _ _ _)

theorem yieldsWithin_ultimately (h : ∃ n, YieldsWithin g input n id pos step) :
    Ultimately fun n => YieldsWithin g input n id pos step := by
  obtain ⟨n, hn⟩ := h
  exact ⟨n, fun _ hm => hn.mono hm⟩

theorem yields_of_yieldsWithin : ∀ {levels : Nat} {id : NodeId} {pos : Nat} {step : Step},
    YieldsWithin g input levels id pos step → Yields g input id pos step := by
  intro levels
  induction levels with
  | zero => intro _ _ _ h; exact h.elim
  | succ levels ih =>
      intro id pos step h
      obtain ⟨node, hnode, hrule⟩ := h
      exact .node (fun _ _ _ hstep => ih hstep) hnode hrule

theorem yields_iff_yieldsWithin :
    Yields g input id pos step ↔ ∃ n, YieldsWithin g input n id pos step := by
  constructor
  · intro h
    induction h with
    | @node premises id node pos step _ hnode hrule ih =>
        have hc : Climbs premises (YieldsWithin g input) :=
          fun hstep => yieldsWithin_ultimately (ih _ _ _ hstep)
        obtain ⟨n, hn⟩ := (hrule.climb hc).holds
        exact ⟨n + 1, node, hnode, hn⟩
  · rintro ⟨_, h⟩
    exact yields_of_yieldsWithin h

end Derivations

end Packrat.Semantics
