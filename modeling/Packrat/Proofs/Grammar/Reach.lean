import Mathlib.Logic.Relation
import Packrat.Proofs.Grammar.WellFormed

/-!
# What can be reached from a node

A walk from a node tries the nodes that it refers to, and those that they refer to, and
no others. What is known of all these is known of the walk, whatever else the arena
holds.
-/

namespace Packrat.Grammar

variable {g : Grammar} {id child : NodeId} {node : Node}

/-- The node `id` refers to `child`. -/
def Child (g : Grammar) (id child : NodeId) : Prop := child ∈ g.childrenOf id

instance (g : Grammar) (id child : NodeId) : Decidable (g.Child id child) :=
  inferInstanceAs (Decidable (child ∈ g.childrenOf id))

/-- From `id` the references lead to another node, or it is `id` itself. -/
def Reaches (g : Grammar) : NodeId → NodeId → Prop := Relation.ReflTransGen g.Child

theorem child_of_node? (hnode : g.node? id = some node) (h : child ∈ node.children) :
    g.Child id child := by
  rw [Child, childrenOf, hnode]
  exact h

theorem Child.exists_node (h : g.Child id child) :
    ∃ node, g.node? id = some node ∧ child ∈ node.children := by
  rw [Child, childrenOf] at h
  cases hnode : g.node? id with
  | none => rw [hnode] at h; cases h
  | some node => rw [hnode] at h; exact ⟨node, rfl, h⟩

theorem Child.contains (h : g.Child id child) (hg : g.WellFormed) : g.contains child = true := by
  obtain ⟨node, hnode, hmem⟩ := h.exists_node
  exact hg.children_mem node (mem_of_node?_eq_some hnode) child hmem

/-- What holds of all that a node reaches holds of all that its child reaches. -/
theorem forall_reaches_child {P : NodeId → Prop} (h : ∀ other, g.Reaches id other → P other)
    (hchild : g.Child id child) : ∀ other, g.Reaches child other → P other :=
  fun other hother => h other (.head hchild hother)

end Packrat.Grammar
