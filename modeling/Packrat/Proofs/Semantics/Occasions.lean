import Packrat.Proofs.Semantics.Progress

/-!
# Trying a node on any occasion

A node is tried under all sorts of circumstances: from a start node or deep inside
another one, with few or many levels left, by a walk that remembers and one that does
not, early on or with much of the input behind. Its answer is the same on all of these
occasions, as long as the levels suffice: it is what the node yields.

So two nodes are compared by comparing what they yield, and what comes out holds of any
two tries, however different their circumstances.
-/

namespace Packrat.Semantics

open Walk

variable {g : Grammar} {input : Array UInt8}

/-- What a node finds when it is tried: how the parser runs, the levels that are left and
the depth, and what happened before. What is remembered from before are answers. -/
structure Occasion (g : Grammar) (input : Array UInt8) where
  config : Config
  levels : Nat
  depth : Nat
  before : Progress
  yielded : Yielded g input before.memo

namespace Occasion

/-- The beginning of a parse. -/
def ofParse (g : Grammar) (input : Array UInt8) (config : Config) : Occasion g input :=
  ⟨config, config.maxDepth, 1, ⟨none, ∅, #[]⟩, yielded_empty⟩

variable (o : Occasion g input) (id : NodeId) (pos : Nat)

def run : EStateM.Result Error Progress Step :=
  invoke ⟨g, input, o.config⟩ o.levels o.depth id pos o.before

def Matches (token : Token) (stop : Nat) : Prop :=
  ∃ after, o.run id pos = .ok (.matched token stop) after

def Fails : Prop := ∃ failure after, o.run id pos = .ok (.failed failure) after

/-- The levels do not suffice. -/
def Overruns : Prop :=
  ∃ e after, o.run id pos = .error e after ∧ e.kind = .recursionLimit o.config.maxDepth

instance (token : Token) (stop : Nat) : Decidable (o.Matches id pos token stop) :=
  match h : o.run id pos with
  | .ok answer after =>
    decidable_of_iff (answer = .matched token stop)
      ⟨fun heq => ⟨after, heq ▸ h⟩, fun ⟨_, hrun⟩ => by cases h.symm.trans hrun; rfl⟩
  | .error .. => isFalse fun ⟨_, hrun⟩ => nomatch h.symm.trans hrun

instance : Decidable (o.Fails id pos) :=
  match h : o.run id pos with
  | .ok (.failed failure) after => isTrue ⟨failure, after, h⟩
  | .ok (.matched ..) _ => isFalse fun ⟨_, _, hrun⟩ => nomatch h.symm.trans hrun
  | .error .. => isFalse fun ⟨_, _, hrun⟩ => nomatch h.symm.trans hrun

instance : Decidable (o.Overruns id pos) :=
  match h : o.run id pos with
  | .ok .. => isFalse fun ⟨_, _, hrun, _⟩ => nomatch h.symm.trans hrun
  | .error e after =>
    decidable_of_iff (e.kind = .recursionLimit o.config.maxDepth)
      ⟨fun hkind => ⟨e, after, h, hkind⟩, fun ⟨_, _, hrun, hkind⟩ => by
        cases h.symm.trans hrun
        exact hkind⟩

variable {o} {id} {pos}

theorem run_iff (hg : g.WellFormed) (hid : g.contains id = true) (hpos : pos ≤ input.size)
    (h : ¬ o.Overruns id pos) (step : Step) :
    (∃ after, o.run id pos = .ok step after) ↔ Yields g input id pos step := by
  refine ⟨fun ⟨after, hrun⟩ => (invoke_yields hg hid hpos o.yielded hrun).1, fun hstep => ?_⟩
  cases hrun : o.run id pos with
  | ok answer after =>
      have hanswer := (invoke_yields hg hid hpos o.yielded hrun).1
      exact ⟨after, by rw [hanswer.unique hg hid hpos hstep]⟩
  | error e after =>
      have hkind : e.kind ≠ .recursionLimit o.config.maxDepth :=
        fun hkind => h ⟨e, after, hrun, hkind⟩
      exact absurd hstep (nothing_yielded hg hid hpos o.yielded hrun hkind step)

theorem matches_iff (hg : g.WellFormed) (hid : g.contains id = true) (hpos : pos ≤ input.size)
    (h : ¬ o.Overruns id pos) {token : Token} {stop : Nat} :
    o.Matches id pos token stop ↔ Yields g input id pos (.matched token stop) :=
  run_iff hg hid hpos h _

theorem fails_iff (hg : g.WellFormed) (hid : g.contains id = true) (hpos : pos ≤ input.size)
    (h : ¬ o.Overruns id pos) :
    o.Fails id pos ↔ ∃ failure, Yields g input id pos (.failed failure) := by
  simp only [Fails, run_iff hg hid hpos h]

/-- What a node matches on some occasion, it yields. -/
theorem Matches.yields {token : Token} {stop : Nat} (h : o.Matches id pos token stop)
    (hg : g.WellFormed) (hid : g.contains id = true) (hpos : pos ≤ input.size) :
    Yields g input id pos (.matched token stop) := by
  obtain ⟨after, hrun⟩ := h
  exact (invoke_yields hg hid hpos o.yielded hrun).1

theorem Fails.yields (h : o.Fails id pos) (hg : g.WellFormed) (hid : g.contains id = true)
    (hpos : pos ≤ input.size) : ∃ failure, Yields g input id pos (.failed failure) := by
  obtain ⟨failure, after, hrun⟩ := h
  exact ⟨failure, (invoke_yields hg hid hpos o.yielded hrun).1⟩

end Occasion

end Packrat.Semantics
