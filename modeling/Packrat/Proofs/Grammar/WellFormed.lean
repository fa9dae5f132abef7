import Packrat.Grammar.Check

/-!
# What the check of an arena buys

`Builder.build` walks the arena once and hands out a grammar only if every node
passed. The proofs about walks never look at that check again: they take from it
the four facts below, that references stay in the arena, that no placeholder is
left without a definition, and that a kept member exists.

The check stops at the first fault, so a passed check says something about each
node in turn; `checkNodes_ok` is the induction that turns it into a statement
about all of them.
-/

namespace Packrat

/-- A finished arena in which every reference leads to a node that can be tried. -/
structure Grammar.WellFormed (g : Grammar) : Prop where
  root_mem : g.contains g.root = true
  children_mem : ∀ node ∈ g.nodes, ∀ child ∈ node.children, g.contains child = true
  bound : Node.indirect none ∉ g.nodes
  keep_lt : ∀ members keep, Node.pick members keep ∈ g.nodes → keep < members.length

namespace Builder

variable {b : Builder}

theorem owns_of_checkOwned {id : NodeId} (h : b.checkOwned id = .ok ()) :
    b.owns id = true := by
  unfold checkOwned at h
  split at h
  · next howns => exact howns
  · cases h

theorem owns_of_checkAllOwned {ids : List NodeId} (h : b.checkAllOwned ids = .ok ()) :
    ∀ id ∈ ids, b.owns id = true := by
  induction ids with
  | nil => intro id hid; cases hid
  | cons first rest ih =>
      rw [checkAllOwned] at h
      cases hfirst : b.checkOwned first with
      | error e => rw [hfirst] at h; cases h
      | ok u =>
          rw [hfirst] at h
          intro id hid
          rcases List.mem_cons.mp hid with rfl | hmem
          · exact owns_of_checkOwned hfirst
          · exact ih h id hmem

/-- A passed check of a list of nodes is a passed check of each of them. -/
theorem checkNodes_ok {nodes : List Node} : ∀ {index : Nat},
    b.checkNodes index nodes = .ok () → ∀ node ∈ nodes,
      b.checkAllOwned node.children = .ok () ∧ ∃ i, b.checkNode i node = .ok () := by
  induction nodes with
  | nil => intro index _ node hnode; cases hnode
  | cons first rest ih =>
      intro index h node hnode
      rw [checkNodes] at h
      cases howned : b.checkAllOwned first.children with
      | error e => rw [howned] at h; cases h
      | ok u =>
          cases hfirst : b.checkNode index first with
          | error e => rw [howned, hfirst] at h; cases h
          | ok u =>
              rw [howned, hfirst] at h
              rcases List.mem_cons.mp hnode with rfl | hmem
              · exact ⟨howned, index, hfirst⟩
              · exact ih h node hmem

theorem build_ok {root : NodeId} {g : Grammar} (h : b.build root = .ok g) :
    b.checkOwned root = .ok () ∧ b.checkNodes 0 b.nodes.toList = .ok () ∧
      g = ⟨b.arena, b.nodes, b.names, root⟩ := by
  unfold build at h
  cases hroot : b.checkOwned root with
  | error e => rw [hroot] at h; cases h
  | ok u =>
      cases hnodes : b.checkNodes 0 b.nodes.toList with
      | error e => rw [hroot, hnodes] at h; cases h
      | ok u =>
          rw [hroot, hnodes] at h
          exact ⟨rfl, rfl, (Except.ok.inj h).symm⟩

/-- A grammar that was built is well formed. -/
theorem wellFormed_of_build {root : NodeId} {g : Grammar} (h : b.build root = .ok g) :
    g.WellFormed := by
  obtain ⟨hroot, hnodes, rfl⟩ := build_ok h
  have hcheck : ∀ node ∈ b.nodes,
      b.checkAllOwned node.children = .ok () ∧ ∃ i, b.checkNode i node = .ok () :=
    fun node hnode => checkNodes_ok hnodes node (Array.mem_toList_iff.mpr hnode)
  exact {
    root_mem := owns_of_checkOwned hroot
    children_mem := fun node hnode => owns_of_checkAllOwned (hcheck node hnode).1
    bound := by
      intro hmem
      obtain ⟨_, i, hi⟩ := hcheck _ hmem
      cases hi
    keep_lt := by
      intro members keep hmem
      obtain ⟨_, i, hi⟩ := hcheck _ hmem
      simp only [checkNode] at hi
      split at hi
      · next hlt => exact hlt
      · cases hi }

/-- The integers of a built grammar have widths that fit a word. -/
theorem signed_width_of_build {root : NodeId} {g : Grammar} (h : b.build root = .ok g)
    {width : Nat} (hmem : Node.signed width ∈ g.nodes) :
    width = 1 ∨ width = 2 ∨ width = 4 ∨ width = 8 := by
  obtain ⟨_, hnodes, rfl⟩ := build_ok h
  obtain ⟨_, i, hi⟩ := checkNodes_ok hnodes _ (Array.mem_toList_iff.mpr hmem)
  simp only [checkNode] at hi
  split at hi
  · next hwidth => exact hwidth
  · cases hi

end Builder

namespace Grammar

variable {g : Grammar}

theorem mem_of_node?_eq_some {id : NodeId} {node : Node} (h : g.node? id = some node) :
    node ∈ g.nodes := by
  unfold node? at h
  split at h
  · exact Array.mem_of_getElem? h
  · cases h

/-- An id of the arena leads to a node. -/
theorem exists_node_of_contains {id : NodeId} (h : g.contains id = true) :
    ∃ node, g.node? id = some node := by
  have hlt : id.index < g.nodes.size := by
    simp only [contains, Bool.and_eq_true, decide_eq_true_eq] at h
    exact h.2
  exact ⟨g.nodes[id.index], by rw [node?, if_pos h, Array.getElem?_eq_getElem hlt]⟩

/-- An id of the arena is determined by its index. -/
theorem eq_of_contains {id : NodeId} (h : g.contains id = true) :
    id = ⟨g.arena, id.index⟩ := by
  simp only [contains, Bool.and_eq_true, beq_iff_eq] at h
  rw [← h.1]

theorem contains_of_node?_eq_some {id : NodeId} {node : Node} (h : g.node? id = some node) :
    g.contains id = true := by
  unfold node? at h
  split at h
  · next hid => exact hid
  · cases h

theorem mem_ids_of_contains {id : NodeId} (h : g.contains id = true) : id ∈ g.ids := by
  have hlt : id.index < g.nodes.size := by
    simp only [contains, Bool.and_eq_true, decide_eq_true_eq] at h
    exact h.2
  exact List.mem_map.mpr ⟨id.index, List.mem_range.mpr hlt, (eq_of_contains h).symm⟩

end Grammar

end Packrat
