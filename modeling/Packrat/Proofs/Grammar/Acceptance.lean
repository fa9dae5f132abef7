import Packrat.Proofs.Grammar.Chains
import Packrat.Proofs.Walk.Ends

/-!
# What the check of an arena accepts

`Sound` says what an arena has to be like: nothing about how it is checked, in which
order, or for how many steps. Of the arenas that can be constructed the check accepts
just these. The two faults that it looks for beside them cannot occur.

What is built on is then safe to follow. A chain of placeholders ends at a node that
is none, and no walk comes upon a placeholder without a definition or a stranger.
-/

namespace Packrat

/-- An arena that is fit to be a grammar with this root. -/
structure Builder.Sound (b : Builder) (root : NodeId) : Prop where
  root_owned : b.owns root = true
  /-- Reachable or not, every node refers to nodes of the arena. -/
  children_owned : ∀ node ∈ b.nodes, ∀ child ∈ node.children, b.owns child = true
  bound : Node.indirect none ∉ b.nodes
  /-- From every placeholder, following bindings leads to a node that is none. -/
  leads : ∀ (i : Nat) target, b.nodes[i]? = some (.indirect (some target)) →
    ∃ count j, Leads b.nodes count i j
  range_le : ∀ low high, Node.range low high ∈ b.nodes → low ≤ high
  width : ∀ width, Node.unsigned width ∈ b.nodes ∨ Node.signed width ∈ b.nodes →
    width = 1 ∨ width = 2 ∨ width = 4 ∨ width = 8

namespace Builder

variable {b : Builder} {root : NodeId}

/-! ## The check, piece by piece -/

theorem then_ok_iff {α : Type} {x : Except Error Unit} {y : Except Error α} {a : α} :
    (do x; y) = .ok a ↔ x = .ok () ∧ y = .ok a := by
  cases x with
  | error e => exact iff_of_false nofun fun h => nomatch h.1
  | ok u => exact (and_iff_right rfl).symm

theorem checkOwned_ok_iff {id : NodeId} : b.checkOwned id = .ok () ↔ b.owns id = true := by
  unfold checkOwned
  split
  · next howns => exact iff_of_true rfl howns
  · next howns => exact iff_of_false nofun howns

theorem checkAllOwned_ok_iff {ids : List NodeId} :
    b.checkAllOwned ids = .ok () ↔ ∀ id ∈ ids, b.owns id = true := by
  induction ids with
  | nil => exact iff_of_true rfl nofun
  | cons first rest ih =>
      rw [checkAllOwned, then_ok_iff, checkOwned_ok_iff, ih, List.forall_mem_cons]

theorem checkNodes_ok_iff {nodes : List Node} : ∀ {index : Nat},
    b.checkNodes index nodes = .ok () ↔ ∀ k node, nodes[k]? = some node →
      (∀ child ∈ node.children, b.owns child = true) ∧
        b.checkNode (index + k) node = .ok () := by
  induction nodes with
  | nil => intro index; exact iff_of_true rfl nofun
  | cons first rest ih =>
      intro index
      rw [checkNodes, then_ok_iff, then_ok_iff, checkAllOwned_ok_iff, ih]
      constructor
      · rintro ⟨howned, hfirst, hrest⟩ k node hnode
        cases k with
        | zero =>
            cases hnode
            exact ⟨howned, hfirst⟩
        | succ k =>
            rw [← Nat.succ_add_eq_add_succ]
            exact hrest k node hnode
      · intro h
        obtain ⟨howned, hfirst⟩ := h 0 first rfl
        refine ⟨howned, hfirst, fun k node hnode => ?_⟩
        rw [Nat.succ_add_eq_add_succ]
        exact h (k + 1) node hnode

/-- What the check of a node looks for, at this index of the arena, as far as calls can
get it wrong. -/
def SoundAt (b : Builder) (i : Nat) : Node → Prop
  | .indirect none => False
  | .indirect (some _) => ∃ count j, Leads b.nodes count i j
  | .range low high => low ≤ high
  | .unsigned width | .signed width => width = 1 ∨ width = 2 ∨ width = 4 ∨ width = 8
  | _ => True

theorem checkNode_ok_iff (hb : b.Constructed) {i : Nat} {node : Node}
    (hnode : b.nodes[i]? = some node) : b.checkNode i node = .ok () ↔ b.SoundAt i node := by
  have hmade : b.Made node := hb node (Array.mem_of_getElem? hnode)
  have hlt : i < b.nodes.size := (Array.getElem?_eq_some_iff.mp hnode).1
  have hif : ∀ {c : Prop} [Decidable c] {reason : String},
      (if c then .ok () else .error (.plain (.invalidGrammar reason)) : Except Error Unit)
        = .ok () ↔ c := by
    intro c _ reason
    split
    · next hc => exact iff_of_true rfl hc
    · next hc => exact iff_of_false nofun hc
  cases node with
  | indirect target =>
      cases target with
      | none => exact iff_of_false nofun id
      | some target =>
          refine (checkChain_ok_iff hb hlt).trans ?_
          constructor
          · rintro ⟨count, _, j, hleads⟩
            exact ⟨count, j, hleads⟩
          · rintro ⟨count, j, hleads⟩
            exact ⟨count, Nat.lt_succ_of_lt hleads.count_lt_size, j, hleads⟩
  | range low high => exact hif
  | unsigned width | signed width => exact hif
  -- bounds and kept members are checked too, but no call gets them wrong
  | repeated inner min max =>
      cases max with
      | none => exact iff_of_true rfl trivial
      | some max => exact hif.trans (iff_of_true hmade trivial)
  | pick members keep => exact hif.trans (iff_of_true hmade trivial)
  | _ => exact iff_of_true rfl trivial

theorem exists_build_iff_checks : (∃ g, b.build root = .ok g) ↔
    b.checkOwned root = .ok () ∧ b.checkNodes 0 b.nodes.toList = .ok () := by
  constructor
  · rintro ⟨g, hbuild⟩
    obtain ⟨hroot, hnodes, _⟩ := build_ok hbuild
    exact ⟨hroot, hnodes⟩
  · rintro ⟨hroot, hnodes⟩
    refine ⟨⟨b.arena, b.nodes, b.names, root⟩, ?_⟩
    rw [build, hroot, hnodes]
    rfl

theorem sound_iff : b.Sound root ↔ b.owns root = true ∧
    ∀ i node, b.nodes[i]? = some node →
      (∀ child ∈ node.children, b.owns child = true) ∧ b.SoundAt i node := by
  constructor
  · intro h
    refine ⟨h.root_owned, fun i node hi => ?_⟩
    have hnode := Array.mem_of_getElem? hi
    refine ⟨h.children_owned node hnode, ?_⟩
    cases node with
    | indirect target =>
        cases target with
        | none => exact h.bound hnode
        | some target => exact h.leads i target hi
    | range low high => exact h.range_le low high hnode
    | unsigned width => exact h.width width (.inl hnode)
    | signed width => exact h.width width (.inr hnode)
    | _ => trivial
  · rintro ⟨hroot, hnodes⟩
    have hmem : ∀ node ∈ b.nodes,
        (∀ child ∈ node.children, b.owns child = true) ∧ ∃ i, b.SoundAt i node := by
      intro node hnode
      obtain ⟨i, hi⟩ := Array.getElem?_of_mem hnode
      exact ⟨(hnodes i node hi).1, i, (hnodes i node hi).2⟩
    refine ⟨hroot, fun node hnode => (hmem node hnode).1, ?_, ?_, ?_, ?_⟩
    · intro hnode
      obtain ⟨_, i, hsound⟩ := hmem _ hnode
      exact hsound
    · exact fun i target hi => (hnodes i _ hi).2
    · intro low high hnode
      obtain ⟨_, i, hsound⟩ := hmem _ hnode
      exact hsound
    · rintro width (hnode | hnode)
      · obtain ⟨_, i, hsound⟩ := hmem _ hnode
        exact hsound
      · obtain ⟨_, i, hsound⟩ := hmem _ hnode
        exact hsound

theorem exists_build_iff (hb : b.Constructed) :
    (∃ g, b.build root = .ok g) ↔ b.Sound root := by
  rw [exists_build_iff_checks, sound_iff, checkOwned_ok_iff, checkNodes_ok_iff]
  refine and_congr_right' (forall_congr' fun i => forall_congr' fun node => ?_)
  rw [Array.getElem?_toList, Nat.zero_add]
  exact forall_congr' fun hnode => and_congr_right' (checkNode_ok_iff hb hnode)

end Builder

/-! ## What is built is safe to follow -/

section Built

variable {b : Builder} {root : NodeId} {g : Grammar}

/-- Where following placeholders ends: at a node of the grammar that is none, to which
the bindings lead, and however many steps more are allowed. -/
structure Grammar.Resolved (g : Grammar) (id target : NodeId) : Prop where
  mem : g.contains target = true
  definition : ∃ node, g.node? target = some node ∧ node.isIndirect = false
  leads : ∃ count < g.size, Leads g.nodes count id.index target.index
  settled : ∀ steps, g.size ≤ steps → g.follow steps id = target

theorem Builder.Sound.exists_leads (h : b.Sound root) {i : Nat} (hi : i < b.nodes.size) :
    ∃ count j, Leads b.nodes count i j := by
  have hnode : b.nodes[i]? = some b.nodes[i] := Array.getElem?_eq_getElem hi
  cases hshape : b.nodes[i] with
  | indirect target =>
      rw [hshape] at hnode
      cases target with
      | none => exact absurd (Array.mem_of_getElem? hnode) h.bound
      | some target => exact h.leads i target hnode
  | _ =>
      rw [hshape] at hnode
      exact ⟨0, i, .here hnode rfl⟩

theorem resolved_of_build (hb : b.Constructed) (hbuild : b.build root = .ok g) {id : NodeId}
    (hid : g.contains id = true) : g.Resolved id (g.resolve id) := by
  have hsound : b.Sound root := (Builder.exists_build_iff hb).mp ⟨g, hbuild⟩
  obtain ⟨_, _, rfl⟩ := Builder.build_ok hbuild
  obtain ⟨count, j, hleads⟩ := hsound.exists_leads (Builder.owns_iff.mp hid).2
  have htargets : ∀ target, Node.indirect (some target) ∈ b.nodes → b.owns target = true :=
    fun target hnode => hsound.children_owned _ hnode target List.mem_cons_self
  have hsettled : ∀ steps, b.nodes.size ≤ steps →
      Grammar.follow ⟨b.arena, b.nodes, b.names, root⟩ steps id = ⟨b.arena, j⟩ :=
    fun steps hle => Grammar.follow_of_leads htargets hid hleads
      (Nat.le_trans (Nat.le_of_lt hleads.count_lt_size) hle)
  obtain ⟨node, hnode, hend⟩ := hleads.exists_end
  have hmem : Grammar.contains ⟨b.arena, b.nodes, b.names, root⟩ ⟨b.arena, j⟩ = true :=
    Builder.owns_iff.mpr ⟨rfl, (Array.getElem?_eq_some_iff.mp hnode).1⟩
  rw [Grammar.resolve, hsettled _ (Nat.le_refl _)]
  refine ⟨hmem, ⟨node, ?_, hend⟩, ⟨count, hleads.count_lt_size, hleads⟩, hsettled⟩
  rw [Grammar.node?, if_pos hmem]
  exact hnode

end Built

/-- The causes that a grammar gone wrong would have. -/
def Error.Kind.Dangling : Error.Kind → Prop
  | .unboundIndirection _ | .foreignNode _ | .internal _ => True
  | _ => False

theorem Error.Kind.Dangling.isFatal {kind : Error.Kind} (h : kind.Dangling) :
    kind.isFatal = true := by
  cases kind with
  | unboundIndirection node | foreignNode node | internal reason => rfl
  | _ => exact h.elim

theorem Error.CutsOff.not_dangling {maxDepth size : Nat} {e : Error}
    (h : e.CutsOff maxDepth size) : ¬ e.kind.Dangling := by
  rcases h with ⟨p, _, rfl⟩ | ⟨shape, p, _, rfl⟩
  · exact id
  · exact id

/-- Whatever calls made an arena, and whether they failed or not, the check accepts it
just if it is sound. In the grammar that is built, following placeholders comes to an
end at a node that is none, and of all parses, from any node and however they are run,
the only fatal errors are those that cut them off. -/
theorem build_accepts_sound (arena : Nat) (calls : List Builder.Call) (root : NodeId) :
    ((∃ g, (Builder.construct arena calls).build root = .ok g) ↔
      (Builder.construct arena calls).Sound root) ∧
    ∀ g, (Builder.construct arena calls).build root = .ok g →
      (∀ id, g.contains id = true → g.Resolved id (g.resolve id)) ∧
      ∀ (config : Config) (start : NodeId) (input : List UInt8) (e : Error),
        g.contains start = true → Parser.runFrom ⟨g, config⟩ start input = .error e →
        ¬ e.kind.Dangling ∧ (e.isFatal = true → e.CutsOff config.maxDepth input.length) := by
  have hb := Builder.constructed_construct arena calls
  refine ⟨Builder.exists_build_iff hb, fun g hbuild => ⟨fun id => resolved_of_build hb hbuild, ?_⟩⟩
  intro config start input e hstart hrun
  have hcut : e.isFatal = true → e.CutsOff config.maxDepth input.length :=
    Parser.cutsOff_of_fatal (Builder.wellFormed_of_build hbuild) hstart hrun
  exact ⟨fun hdangling => (hcut hdangling.isFatal).not_dangling hdangling, hcut⟩

/-- Nested parentheses again. Of the three definitions the first is none of a
placeholder and the last comes too late. -/
def nestedCalls : List Builder.Call :=
  [.indirect, .literal 0x28, .literal 0x29, .middle ⟨0, 1⟩ ⟨0, 0⟩ ⟨0, 2⟩, .optional ⟨0, 3⟩,
    .define ⟨0, 1⟩ ⟨0, 4⟩, .define ⟨0, 0⟩ ⟨0, 4⟩, .define ⟨0, 0⟩ ⟨0, 3⟩]

def nestedCallsGrammar : Grammar :=
  ⟨0, (Builder.construct 0 nestedCalls).nodes, [], ⟨0, 4⟩⟩

/-- The placeholder stands for the optional pair, and three levels are too few for two
parentheses. -/
theorem build_accepts_sound_nested :
    (Builder.construct 0 nestedCalls).build ⟨0, 4⟩ = .ok nestedCallsGrammar ∧
    (Builder.construct 0 nestedCalls).Sound ⟨0, 4⟩ ∧
    nestedCallsGrammar.Resolved ⟨0, 0⟩ ⟨0, 4⟩ ∧
    Parser.runFrom ⟨nestedCallsGrammar, false, 3, false⟩ ⟨0, 4⟩ [0x28, 0x28] =
      .error (.located (.recursionLimit 3) 1) ∧
    (Error.located (.recursionLimit 3) 1).CutsOff 3 2 := by
  have hbuild : (Builder.construct 0 nestedCalls).build ⟨0, 4⟩ = .ok nestedCallsGrammar := rfl
  have hrun : Parser.runFrom ⟨nestedCallsGrammar, false, 3, false⟩ ⟨0, 4⟩ [0x28, 0x28] =
      .error (.located (.recursionLimit 3) 1) := rfl
  obtain ⟨hiff, hsafe⟩ := build_accepts_sound 0 nestedCalls ⟨0, 4⟩
  obtain ⟨hresolved, hparse⟩ := hsafe nestedCallsGrammar hbuild
  refine ⟨hbuild, hiff.mp ⟨_, hbuild⟩, hresolved ⟨0, 0⟩ rfl, hrun, ?_⟩
  exact (hparse ⟨false, 3, false⟩ ⟨0, 4⟩ [0x28, 0x28] _ rfl hrun).2 rfl

end Packrat
