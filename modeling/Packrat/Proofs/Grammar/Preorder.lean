import Mathlib.Data.List.Basic
import Packrat.Proofs.Grammar.Reach

/-!
# The order of reachable nodes

The walk over everything reachable keeps a stack. A node may stand on it several times,
once for each reference that was come upon, and it is the first time it is taken off that
counts. Nothing of this can be seen in the result: it is the list that the plain recursive
traversal makes, which visits a node, and then its children from left to right, and leaves
out what it has visited before.

The two are compared through what they have in common, the nodes visited so far. The stack
is what the calls under way have still before them, innermost first, so a stack in two
parts is worked off like two lists of nodes in turn (`exploreAll_append`).

That every reachable node is listed, and once, is read off the walk with the stack, where
it is an induction along the run.
-/

namespace Packrat.Grammar

variable {g : Grammar} {id : NodeId} {ids visited : List NodeId} {unseen : List Nat}
  {stack : List NodeId}

/-! ## The recursive traversal -/

def unvisited (g : Grammar) (visited : List NodeId) : List NodeId :=
  g.ids.filter (· ∉ visited)

theorem length_unvisited_le {later : List NodeId} (h : visited ⊆ later) :
    (g.unvisited later).length ≤ (g.unvisited visited).length := by
  refine (List.monotone_filter_right _ fun id hid => ?_).length_le
  simp only [decide_eq_true_eq] at hid ⊢
  exact fun hmem => hid (h hmem)

theorem length_unvisited_lt (hid : g.contains id = true) (hnew : id ∉ visited) :
    (g.unvisited (visited ++ [id])).length < (g.unvisited visited).length := by
  have hother : g.unvisited (visited ++ [id]) = (g.unvisited visited).filter (· ≠ id) := by
    simp [unvisited, List.filter_filter, and_comm]
  have hmem : id ∈ g.unvisited visited :=
    List.mem_filter.mpr ⟨mem_ids_of_contains hid, by simpa using hnew⟩
  rw [hother]
  exact List.length_filter_lt_length_iff_exists.mpr ⟨id, hmem, by simp⟩

mutual

/-- The nodes visited, in order, once `id` is visited as well. It comes before its children, and
is left out with them if it was visited before. -/
def explore (g : Grammar) (visited : List NodeId) (id : NodeId) :
    { later : List NodeId // visited ⊆ later } :=
  if _h : g.contains id = true ∧ id ∉ visited then
    let below := g.exploreAll (visited ++ [id]) (g.childrenOf id)
    ⟨below.1, fun _ hmem => below.2 (List.mem_append_left _ hmem)⟩
  else ⟨visited, List.Subset.refl _⟩
termination_by ((g.unvisited visited).length, 0)
decreasing_by exact Prod.Lex.left _ _ (length_unvisited_lt _h.1 _h.2)

/-- The same for nodes from left to right. -/
def exploreAll (g : Grammar) (visited : List NodeId) :
    List NodeId → { later : List NodeId // visited ⊆ later }
  | [] => ⟨visited, List.Subset.refl _⟩
  | id :: rest =>
    let first := g.explore visited id
    let all := g.exploreAll first.1 rest
    ⟨all.1, fun _ hmem => all.2 (first.2 hmem)⟩
termination_by ids => ((g.unvisited visited).length, ids.length + 1)
decreasing_by
  · exact Prod.Lex.right _ (Nat.succ_pos _)
  · rcases Nat.lt_or_eq_of_le (length_unvisited_le first.2) with hlt | heq
    · exact Prod.Lex.left _ _ hlt
    · rw [heq]
      exact Prod.Lex.right _ (by simp)

end

theorem explore_of_new (h : g.contains id = true) (hnew : id ∉ visited) :
    (g.explore visited id).1 = (g.exploreAll (visited ++ [id]) (g.childrenOf id)).1 := by
  rw [explore, dif_pos ⟨h, hnew⟩]

theorem explore_of_old (h : ¬ (g.contains id = true ∧ id ∉ visited)) :
    (g.explore visited id).1 = visited := by
  rw [explore, dif_neg h]

theorem exploreAll_nil : (g.exploreAll visited []).1 = visited := by
  rw [exploreAll]

theorem exploreAll_cons : (g.exploreAll visited (id :: ids)).1 =
    (g.exploreAll (g.explore visited id).1 ids).1 := by
  rw [exploreAll]

theorem exploreAll_append (g : Grammar) (more : List NodeId) :
    ∀ (ids visited : List NodeId), (g.exploreAll visited (ids ++ more)).1 =
      (g.exploreAll (g.exploreAll visited ids).1 more).1 := by
  intro ids
  induction ids with
  | nil => intro visited; rw [List.nil_append, exploreAll_nil]
  | cons id ids ih => intro visited; rw [List.cons_append, exploreAll_cons, ih, exploreAll_cons]

/-! ## The walk with a stack -/

/-- The walk has still to see what is not visited. -/
structure Complements (g : Grammar) (unseen : List Nat) (visited : List NodeId) : Prop where
  nodup : unseen.Nodup
  mem_iff : ∀ id, g.contains id = true → (id.index ∈ unseen ↔ id ∉ visited)

theorem complements_start (g : Grammar) : g.Complements (List.range g.nodes.size) [] where
  nodup := List.nodup_range
  mem_iff id hid := by
    simp only [contains, Bool.and_eq_true, decide_eq_true_eq] at hid
    simpa using hid.2

theorem eq_of_index_eq {other : NodeId} (h : g.contains id = true)
    (hother : g.contains other = true) (hindex : id.index = other.index) : id = other := by
  rw [eq_of_contains h, eq_of_contains hother, hindex]

theorem Complements.erase (h : g.Complements unseen visited) (hid : g.contains id = true) :
    g.Complements (unseen.erase id.index) (visited ++ [id]) where
  nodup := h.nodup.erase _
  mem_iff other hother := by
    have hsame : other.index = id.index ↔ other = id :=
      ⟨eq_of_index_eq hother hid, fun heq => heq ▸ rfl⟩
    rw [h.nodup.mem_erase_iff, h.mem_iff other hother, Ne, hsame]
    simp [and_comm]

/-- The walk makes the list of the recursive traversal. -/
theorem append_visit_eq (h : g.Complements unseen visited) :
    visited ++ g.visit unseen stack = (g.exploreAll visited stack).1 := by
  fun_induction g.visit unseen stack generalizing visited with
  | case1 unseen => rw [List.append_nil, exploreAll_nil]
  | case2 unseen id rest hnew ih =>
      have hold : id ∉ visited := (h.mem_iff id hnew.1).mp hnew.2
      rw [exploreAll_cons, explore_of_new hnew.1 hold, ← exploreAll_append, ← ih (h.erase hnew.1),
        List.append_assoc, List.singleton_append]
  | case3 unseen id rest hseen ih =>
      have hold : ¬ (g.contains id = true ∧ id ∉ visited) :=
        fun hnew => hseen ⟨hnew.1, (h.mem_iff id hnew.1).mpr hnew.2⟩
      rw [exploreAll_cons, explore_of_old hold, ih h]

/-! ## What is listed -/

theorem mem_unseen_of_mem_visit (h : id ∈ g.visit unseen stack) :
    g.contains id = true ∧ id.index ∈ unseen := by
  fun_induction g.visit unseen stack with
  | case1 unseen => cases h
  | case2 unseen first rest hnew ih =>
      rcases List.mem_cons.mp h with rfl | hlater
      · exact hnew
      · exact ⟨(ih hlater).1, List.mem_of_mem_erase (ih hlater).2⟩
  | case3 unseen first rest hseen ih => exact ih h

theorem nodup_visit (hunseen : unseen.Nodup) : (g.visit unseen stack).Nodup := by
  fun_induction g.visit unseen stack with
  | case1 unseen => exact List.nodup_nil
  | case2 unseen first rest hnew ih =>
      refine List.nodup_cons.mpr ⟨fun hagain => ?_, ih (hunseen.erase _)⟩
      exact hunseen.not_mem_erase (mem_unseen_of_mem_visit hagain).2
  | case3 unseen first rest hseen ih => exact ih hunseen

/-- Nothing is listed that the stack does not lead to. -/
theorem reached_of_mem_visit (h : id ∈ g.visit unseen stack) : ∃ top ∈ stack, g.Reaches top id := by
  fun_induction g.visit unseen stack with
  | case1 unseen => cases h
  | case2 unseen first rest hnew ih =>
      rcases List.mem_cons.mp h with rfl | hlater
      · exact ⟨id, List.mem_cons_self, .refl⟩
      · obtain ⟨top, htop, hreach⟩ := ih hlater
        rcases List.mem_append.mp htop with hchild | hrest
        · exact ⟨first, List.mem_cons_self, .head hchild hreach⟩
        · exact ⟨top, List.mem_cons_of_mem _ hrest, hreach⟩
  | case3 unseen first rest hseen ih =>
      obtain ⟨top, htop, hreach⟩ := ih h
      exact ⟨top, List.mem_cons_of_mem _ htop, hreach⟩

/-- What is on the stack, or a child of what is listed, is listed unless it was seen. -/
theorem mem_visit (hid : g.contains id = true) (hunseen : id.index ∈ unseen)
    (h : id ∈ stack ∨ ∃ parent ∈ g.visit unseen stack, g.Child parent id) :
    id ∈ g.visit unseen stack := by
  fun_induction g.visit unseen stack with
  | case1 unseen => simp at h
  | case2 unseen first rest hnew ih =>
      by_cases hindex : id.index = first.index
      · rw [eq_of_index_eq hid hnew.1 hindex]
        exact List.mem_cons_self
      · refine List.mem_cons_of_mem _ (ih ((List.mem_erase_of_ne hindex).mpr hunseen) ?_)
        rcases h with htop | ⟨parent, hparent, hchild⟩
        · rcases List.mem_cons.mp htop with rfl | hrest
          · exact absurd rfl hindex
          · exact .inl (List.mem_append_right _ hrest)
        · rcases List.mem_cons.mp hparent with rfl | hlater
          · exact .inl (List.mem_append_left _ hchild)
          · exact .inr ⟨parent, hlater, hchild⟩
  | case3 unseen first rest hseen ih =>
      refine ih hunseen ?_
      rcases h with htop | hparent
      · rcases List.mem_cons.mp htop with rfl | hrest
        · exact absurd ⟨hid, hunseen⟩ hseen
        · exact .inl hrest
      · exact .inr hparent

theorem mem_range_of_contains (h : g.contains id = true) :
    id.index ∈ List.range g.nodes.size :=
  ((complements_start g).mem_iff id h).mpr (by simp)

theorem mem_reachable_iff (hg : g.WellFormed) : id ∈ g.reachable ↔ g.Reaches g.root id := by
  refine ⟨fun h => ?_, fun h => ?_⟩
  · obtain ⟨top, htop, hreach⟩ := reached_of_mem_visit h
    rwa [List.mem_singleton.mp htop] at hreach
  · induction h with
    | refl =>
        exact mem_visit hg.root_mem (mem_range_of_contains hg.root_mem) (.inl List.mem_cons_self)
    | tail _ hchild ih =>
        have hid := hchild.contains hg
        exact mem_visit hid (mem_range_of_contains hid) (.inr ⟨_, ih, hchild⟩)

theorem head?_reachable (hg : g.WellFormed) : g.reachable.head? = some g.root := by
  rw [reachable, visit, if_pos ⟨hg.root_mem, mem_range_of_contains hg.root_mem⟩]
  rfl

theorem WellFormed.withRoot {start : NodeId} {rooted : Grammar} (hg : g.WellFormed)
    (h : g.withRoot start = .ok rooted) : rooted.WellFormed ∧ rooted.root = start := by
  unfold Grammar.withRoot at h
  split at h
  · next hstart =>
      cases h
      exact ⟨⟨hstart, hg.children_mem, hg.bound, hg.keep_lt⟩, rfl⟩
  · cases h

/-- From any root, the nodes that the references of a built grammar lead to are listed, each
of them once and no others. The root comes first, and the order is that of the recursive
traversal. -/
theorem reachable_eq_explore {b : Builder} {root : NodeId} (hbuild : b.build root = .ok g)
    {start : NodeId} {rooted : Grammar} (hstart : g.withRoot start = .ok rooted) :
    rooted.reachable = (rooted.explore [] start).1 ∧
      rooted.reachable.Nodup ∧
      (∀ id, id ∈ rooted.reachable ↔ rooted.Reaches start id) ∧
      rooted.reachable.head? = some start := by
  obtain ⟨hg, rfl⟩ := (Builder.wellFormed_of_build hbuild).withRoot hstart
  have hlist : rooted.reachable = (rooted.exploreAll [] [rooted.root]).1 :=
    append_visit_eq (complements_start rooted)
  refine ⟨?_, nodup_visit List.nodup_range, fun id => mem_reachable_iff hg, head?_reachable hg⟩
  rw [hlist, exploreAll_cons, exploreAll_nil]

/-- A rule that comes back to itself, with a member that stands twice in it, and one node that
nothing refers to. -/
def looped : NodeId × Builder :=
  Id.run <| StateT.run (do
    let rule ← Builder.indirect
    let x ← Builder.literal 0x78
    let _ ← Builder.literal 0x7a
    let again ← Builder.optional rule
    let body ← Builder.sequence [x, again, x]
    let _ ← Builder.define rule body
    return again) (Builder.new 0)

def loopedGrammar : Grammar := ⟨looped.2.arena, looped.2.nodes, looped.2.names, looped.1⟩

theorem loopedGrammar_eq :
    loopedGrammar = ⟨0, #[.indirect (some ⟨0, 4⟩), .literal 0x78, .literal 0x7a,
      .optional ⟨0, 0⟩, .sequence [⟨0, 1⟩, ⟨0, 3⟩, ⟨0, 1⟩]], [], ⟨0, 3⟩⟩ :=
  rfl

/-- From the rule, the body comes before its members, and the way back is not taken. -/
theorem reachable_eq_explore_looped :
    looped.2.build looped.1 = .ok loopedGrammar ∧
    loopedGrammar.withRoot ⟨0, 0⟩ = .ok { loopedGrammar with root := ⟨0, 0⟩ } ∧
    (Grammar.explore { loopedGrammar with root := ⟨0, 0⟩ } [] ⟨0, 0⟩).1 =
      [⟨0, 0⟩, ⟨0, 4⟩, ⟨0, 1⟩, ⟨0, 3⟩] := by
  have hbuild : looped.2.build looped.1 = .ok loopedGrammar := rfl
  have hstart : loopedGrammar.withRoot ⟨0, 0⟩ = .ok { loopedGrammar with root := ⟨0, 0⟩ } := rfl
  have hlist : Grammar.reachable { loopedGrammar with root := ⟨0, 0⟩ } =
      [⟨0, 0⟩, ⟨0, 4⟩, ⟨0, 1⟩, ⟨0, 3⟩] := by
    rw [loopedGrammar_eq]
    cbv
  exact ⟨hbuild, hstart, (reachable_eq_explore hbuild hstart).1.symm.trans hlist⟩

end Packrat.Grammar
