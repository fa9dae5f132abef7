import Mathlib.Data.Fintype.Card
import Packrat.Proofs.Grammar.Construction

/-!
# Chains of bindings

A placeholder stands for what it is bound to, and that may be a placeholder again. The
check follows such a chain for one step more than there are nodes, and takes it for a
cycle if it has not ended by then. That is enough: from each node at most one chain
leads to an end, of one length, so on a chain that ends no two nodes are the same
distance from the end, and no node is there twice. A chain that ends passes fewer
bindings than there are nodes.
-/

namespace Packrat

def Node.isIndirect : Node → Bool
  | .indirect _ => true
  | _ => false

/-- From node `i`, following `count` bindings leads to node `j`, which is no
placeholder. -/
inductive Leads (nodes : Array Node) : (count i j : Nat) → Prop where
  | here {i node} : nodes[i]? = some node → node.isIndirect = false → Leads nodes 0 i i
  | bound {count i target j} : nodes[i]? = some (.indirect (some target)) →
      Leads nodes count target.index j → Leads nodes (count + 1) i j

namespace Leads

variable {nodes : Array Node} {count count' i j j' : Nat}

theorem lt_size (h : Leads nodes count i j) : i < nodes.size := by
  cases h with
  | here hnode _ => exact (Array.getElem?_eq_some_iff.mp hnode).1
  | bound hnode _ => exact (Array.getElem?_eq_some_iff.mp hnode).1

theorem not_unbound (hnode : nodes[i]? = some (.indirect none)) : ¬ Leads nodes count i j := by
  intro h
  cases h with
  | here hnode' hend => rw [hnode] at hnode'; cases hnode'; cases hend
  | bound hnode' _ => rw [hnode] at hnode'; cases hnode'

theorem rest {target : NodeId} (h : Leads nodes count i j)
    (hnode : nodes[i]? = some (.indirect (some target))) :
    ∃ fewer, count = fewer + 1 ∧ Leads nodes fewer target.index j := by
  cases h with
  | here hnode' hend => rw [hnode] at hnode'; cases hnode'; cases hend
  | bound hnode' hrest =>
      rw [hnode] at hnode'
      cases hnode'
      exact ⟨_, rfl, hrest⟩

theorem exists_end (h : Leads nodes count i j) :
    ∃ node, nodes[j]? = some node ∧ node.isIndirect = false := by
  induction h with
  | here hnode hend => exact ⟨_, hnode, hend⟩
  | bound _ _ ih => exact ih

theorem unique (h : Leads nodes count i j) (h' : Leads nodes count' i j') :
    count = count' ∧ j = j' := by
  induction h generalizing count' with
  | here hnode hend =>
      cases h' with
      | here _ _ => exact ⟨rfl, rfl⟩
      | bound hnode' _ =>
          rw [hnode] at hnode'
          cases hnode'
          cases hend
  | bound hnode _ ih =>
      obtain ⟨fewer, rfl, hrest⟩ := h'.rest hnode
      obtain ⟨rfl, rfl⟩ := ih hrest
      exact ⟨rfl, rfl⟩

/-- A chain passes a node at each smaller distance from its end. -/
theorem exists_at (h : Leads nodes count i j) {k : Nat} (hk : k ≤ count) :
    ∃ x, Leads nodes k x j := by
  induction h with
  | here hnode hend =>
      obtain rfl : k = 0 := by omega
      exact ⟨_, .here hnode hend⟩
  | @bound count i target j hnode hrest ih =>
      rcases Nat.lt_or_ge count k with hlt | hle
      · obtain rfl : k = count + 1 := by omega
        exact ⟨i, .bound hnode hrest⟩
      · exact ih hle

/-- A chain that ends has no room for a node twice. -/
theorem count_lt_size (h : Leads nodes count i j) : count < nodes.size := by
  -- a node at each distance from the end, and by `unique` none at two distances
  choose node hnode using fun k : Fin (count + 1) => h.exists_at (Nat.le_of_lt_succ k.isLt)
  let place (k : Fin (count + 1)) : Fin nodes.size := ⟨node k, (hnode k).lt_size⟩
  have hinjective : Function.Injective place := by
    intro k k' hsame
    have hnodes : node k = node k' := congrArg Fin.val hsame
    have hleads := hnode k
    rw [hnodes] at hleads
    exact Fin.ext (hleads.unique (hnode k')).1
  have hcard := Fintype.card_le_of_injective place hinjective
  rw [Fintype.card_fin, Fintype.card_fin] at hcard
  exact hcard

end Leads

/-! ## The check of a chain -/

namespace Builder

variable {b : Builder}

/-- A chain passes the check if it ends within the steps allowed. Starting in a
constructed arena it never leaves it. -/
theorem checkChain_ok_iff (hb : b.Constructed) {start : Nat} :
    ∀ {steps i : Nat}, i < b.nodes.size →
      (b.checkChain start steps i = .ok () ↔ ∃ count < steps, ∃ j, Leads b.nodes count i j) := by
  intro steps
  induction steps with
  | zero =>
      intro i _
      refine iff_of_false nofun ?_
      rintro ⟨count, hlt, _⟩
      exact Nat.not_lt_zero count hlt
  | succ steps ih =>
      intro i hi
      have hnode : b.nodes[i]? = some b.nodes[i] := Array.getElem?_eq_getElem hi
      have hmade : b.Made b.nodes[i] := hb _ (Array.getElem_mem hi)
      rw [checkChain]
      cases hshape : b.nodes[i] with
      | indirect target =>
          rw [hshape] at hnode hmade
          rw [hnode]
          cases target with
          | none =>
              refine iff_of_false nofun ?_
              rintro ⟨count, _, j, hleads⟩
              exact hleads.not_unbound hnode
          | some target =>
              refine (ih (owns_iff.mp hmade).2).trans ?_
              constructor
              · rintro ⟨count, hlt, j, hleads⟩
                exact ⟨count + 1, Nat.succ_lt_succ hlt, j, .bound hnode hleads⟩
              · rintro ⟨count, hlt, j, hleads⟩
                obtain ⟨fewer, rfl, hrest⟩ := hleads.rest hnode
                exact ⟨fewer, Nat.lt_of_succ_lt_succ hlt, j, hrest⟩
      | _ =>
          rw [hshape] at hnode
          rw [hnode]
          exact iff_of_true rfl ⟨0, Nat.zero_lt_succ steps, i, .here hnode rfl⟩

end Builder

/-! ## Following placeholders -/

namespace Grammar

variable {g : Grammar}

/-- Following placeholders ends where the chain does, however many steps more are
allowed. -/
theorem follow_of_leads
    (htargets : ∀ target, Node.indirect (some target) ∈ g.nodes → g.contains target = true) :
    ∀ {count j steps : Nat} {id : NodeId}, g.contains id = true →
      Leads g.nodes count id.index j → count ≤ steps → g.follow steps id = ⟨g.arena, j⟩ := by
  intro count
  induction count with
  | zero =>
      intro j steps id hid hleads _
      cases hleads with
      | @here _ node hnode hend =>
          have hfound : g.node? id = some node := by rw [node?, if_pos hid, hnode]
          cases steps with
          | zero => rw [follow]; exact eq_of_contains hid
          | succ steps =>
              rw [follow, hfound]
              cases node with
              | indirect target => cases hend
              | _ => exact eq_of_contains hid
  | succ count ih =>
      intro j steps id hid hleads hle
      cases hleads with
      | @bound _ _ target _ hnode hrest =>
          obtain ⟨m, rfl⟩ : ∃ m, steps = m + 1 := ⟨steps - 1, by omega⟩
          have hfound : g.node? id = some (.indirect (some target)) := by
            rw [node?, if_pos hid, hnode]
          have htarget := htargets target (Array.mem_of_getElem? hnode)
          rw [follow, hfound]
          exact ih htarget hrest (by omega)

end Grammar

end Packrat
