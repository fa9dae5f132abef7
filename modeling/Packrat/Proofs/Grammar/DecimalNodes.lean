import Packrat.Proofs.Grammar.Growth
import Packrat.Proofs.Semantics.Decimal

/-!
# Decimal nodes in an arena

A number is built into an arena that may have nodes already and may get more. Calls
add nodes or put a definition into an empty placeholder, so a node that is no
placeholder stays as it was made, and in the grammar that is built in the end the
nodes of the number are what they were.
-/

namespace Packrat

/-! ## Nodes that stay as they were made -/

namespace Builder

/-- The arena has this node under this id. -/
def Has (b : Builder) (id : NodeId) (node : Node) : Prop :=
  id.arena = b.arena ∧ b.nodes[id.index]? = some node

section Has

variable {b b' : Builder} {id : NodeId} {node : Node}

theorem Has.kept (h : b.Has id node) (hfull : node ≠ .indirect none)
    (harena : b'.arena = b.arena) (hkeeps : b.Keeps b') : b'.Has id node :=
  ⟨h.1.trans harena.symm, hkeeps id.index node h.2 hfull⟩

theorem Has.node? (h : b.Has id node) {root : NodeId} {g : Grammar}
    (hbuild : b.build root = .ok g) : g.node? id = some node := by
  obtain ⟨_, _, rfl⟩ := build_ok hbuild
  have hlt : id.index < b.nodes.size := (Array.getElem?_eq_some_iff.mp h.2).1
  rw [Grammar.node?, if_pos (by simp [Grammar.contains, h.1, hlt])]
  exact h.2

theorem keeps_add (node : Node) : b.Keeps (add node b).2 :=
  keeps_append (show b.nodes.push node = b.nodes ++ #[node] from Array.push_eq_append)

theorem after_keeps (b : Builder) (c : Call) :
    (b.after c).arena = b.arena ∧ b.Keeps (b.after c) := by
  cases c with
  | name node label =>
      obtain ⟨_, harena, hnodes⟩ := name_keeps node label b
      refine ⟨harena, fun i other hother _ => ?_⟩
      show (Builder.name node label b).2.nodes[i]? = some other
      rw [hnodes]
      exact hother
  | define placeholder definition =>
      show (Builder.define placeholder definition b).2.arena = b.arena ∧
        b.Keeps (Builder.define placeholder definition b).2
      rcases define_cases placeholder definition b with ⟨_, _, hempty, hset⟩ | ⟨_, hsame⟩
      · rw [hset]
        exact ⟨rfl, keeps_set hempty rfl⟩
      · rw [hsame]
        exact ⟨rfl, fun _ _ hother _ => hother⟩
  | _ => exact ⟨rfl, keeps_add _⟩

theorem Has.later (hfull : node ≠ .indirect none) (calls : List Call) :
    ∀ {b : Builder}, b.Has id node → (calls.foldl after b).Has id node := by
  induction calls with
  | nil => exact fun h => h
  | cons c rest ih =>
      intro b h
      obtain ⟨harena, hkeeps⟩ := after_keeps b c
      exact ih (h.kept hfull harena hkeeps)

end Has

end Builder

/-! ## The nodes of a number -/

namespace Decimal

variable (b : Builder)

/-! The nodes of a number lie side by side behind those that were there. -/

theorem uint_nodes :
    (uint b).1 = ⟨b.arena, b.nodes.size + 2⟩ ∧ (uint b).2.arena = b.arena ∧
      (uint b).2.nodes = b.nodes ++ #[.range 0x30 0x39,
        .repeated ⟨b.arena, b.nodes.size⟩ 1 none,
        .action ⟨b.arena, b.nodes.size + 1⟩ ⟨"decimal-uint", uintOfDigits⟩] := by
  simp [uint, digits, Builder.range, Builder.many1, Builder.action, Builder.name, Builder.add,
    bind, StateT.bind]
  rfl

theorem sint_nodes :
    (sint b).1 = ⟨b.arena, b.nodes.size + 5⟩ ∧ (sint b).2.arena = b.arena ∧
      (sint b).2.nodes = b.nodes ++ #[.literal 0x2d, .optional ⟨b.arena, b.nodes.size⟩,
        .range 0x30 0x39, .repeated ⟨b.arena, b.nodes.size + 2⟩ 1 none,
        .sequence [⟨b.arena, b.nodes.size + 1⟩, ⟨b.arena, b.nodes.size + 3⟩],
        .action ⟨b.arena, b.nodes.size + 4⟩ ⟨"decimal-sint", sintOfParts⟩] := by
  simp [sint, digits, Builder.literal, Builder.optional, Builder.sequence, Builder.range,
    Builder.many1, Builder.action, Builder.name, Builder.add, bind, StateT.bind]
  rfl

end Decimal

/-- Nodes that were added in a row. -/
theorem Builder.has_of_append {b b' : Builder} {added : List Node} (harena : b'.arena = b.arena)
    (hnodes : b'.nodes = b.nodes ++ added.toArray) {i : Nat} {node : Node}
    (hnode : added[i]? = some node) : b'.Has ⟨b.arena, b.nodes.size + i⟩ node := by
  refine ⟨harena.symm, ?_⟩
  show b'.nodes[b.nodes.size + i]? = some node
  rw [hnodes, Array.getElem?_append_right (Nat.le_add_right _ _), Nat.add_sub_cancel_left]
  simpa using hnode

section Built

open Decimal

variable {b : Builder} {calls : List Builder.Call} {root : NodeId} {g : Grammar}

/-- Nodes of a number that are there when it is added are there in the grammar. -/
theorem node?_built {b' : Builder} {added : List Node} (harena : b'.arena = b.arena)
    (hnodes : b'.nodes = b.nodes ++ added.toArray)
    (h : (calls.foldl Builder.after b').build root = .ok g) (i : Nat) (node : Node)
    (hnode : added[i]? = some node) (hfull : node ≠ .indirect none) :
    g.node? ⟨b.arena, b.nodes.size + i⟩ = some node :=
  ((Builder.has_of_append harena hnodes hnode).later hfull calls).node? h

theorem uint_built (h : (calls.foldl Builder.after (uint b).2).build root = .ok g) :
    ∃ digit run, Semantics.DigitNodes g digit run ∧
      g.node? (uint b).1 = some (.action run ⟨"decimal-uint", uintOfDigits⟩) := by
  obtain ⟨hid, harena, hnodes⟩ := uint_nodes b
  have hnode := node?_built harena hnodes h
  rw [hid]
  exact ⟨_, _, ⟨hnode 0 _ rfl nofun, hnode 1 _ rfl nofun⟩, hnode 2 _ rfl nofun⟩

theorem sint_built (h : (calls.foldl Builder.after (sint b).2).build root = .ok g) :
    ∃ digit run minus sign parts,
      Semantics.SignedNodes g digit run minus sign parts (sint b).1 := by
  obtain ⟨hid, harena, hnodes⟩ := sint_nodes b
  have hnode := node?_built harena hnodes h
  rw [hid]
  exact ⟨_, _, _, _, _, {
    minus_eq := hnode 0 _ rfl nofun
    sign_eq := hnode 1 _ rfl nofun
    digit_eq := hnode 2 _ rfl nofun
    run_eq := hnode 3 _ rfl nofun
    parts_eq := hnode 4 _ rfl nofun
    sint_eq := hnode 5 _ rfl nofun }⟩

end Built

end Packrat
