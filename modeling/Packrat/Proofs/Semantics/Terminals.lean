import Packrat.Proofs.ByteSet
import Packrat.Proofs.Grammar.DecimalNodes
import Packrat.Proofs.Semantics.Occasions

/-!
# Leaves on any occasion

A leaf looks at the input and tries no other node. So one level is enough for it, and on
every occasion it answers by its rule, with no condition on where it is tried: from an
answer that is remembered nothing else can come, since that was yielded by the same rule.

A leaf that tests a byte for being in a set is made from a list of bytes. What the set
makes of the list is told in full here, and then what the leaf makes of the set.
-/

namespace Packrat

namespace Semantics

open Walk

variable {g : Grammar} {input : Array UInt8} {id : NodeId} {pos : Nat}

/-! ## Leaves -/

/-- What the node answers on this occasion. -/
def Occasion.Answers (o : Occasion g input) (id : NodeId) (pos : Nat) (step : Step) : Prop :=
  ∃ after, o.run id pos = .ok step after

/-- The last level of a walk that remembers answers, with none to remember yet. -/
def Occasion.lastLevel (g : Grammar) (input : Array UInt8) (maxDepth : Nat) : Occasion g input :=
  ⟨⟨true, maxDepth, true⟩, 1, maxDepth, ⟨none, ∅, #[]⟩, yielded_empty⟩

theorem leaf_unique {node : Node} (hnode : g.node? id = some node)
    (hterminal : node.isTerminal = true) {step step' : Step} (h : Leaf input node pos step)
    (h' : Leaf input node pos step') : step = step' := by
  have hdecides : Decides (answer ⟨g, input, .standard⟩ (oracle g input) id pos)
      (Leaf input node pos) := decides_leaf hnode hterminal
  exact hdecides.unique h h'

/-- A leaf answers by its rule, given a level for itself. -/
theorem Occasion.answers_leaf (o : Occasion g input) (hlevels : 0 < o.levels) {node : Node}
    (hnode : g.node? id = some node) (hterminal : node.isTerminal = true) {step : Step}
    (hleaf : Leaf input node pos step) : o.Answers id pos step := by
  obtain ⟨n, hn⟩ : ∃ n, o.levels = n + 1 := ⟨o.levels - 1, by omega⟩
  have hdecides : Decides
      (answer ⟨g, input, o.config⟩ (invoke ⟨g, input, o.config⟩ n (o.depth + 1)) id pos)
      (Leaf input node pos) := decides_leaf hnode hterminal
  obtain ⟨found, hanswers⟩ := hdecides.answers_iff.mpr hleaf
  have hwork : ∀ s, ∃ s', answer ⟨g, input, o.config⟩
      (invoke ⟨g, input, o.config⟩ n (o.depth + 1)) id pos s = .ok step s' := fun s => by
    obtain ⟨s', hrun, _⟩ := hanswers s trivial
    exact ⟨s', hrun⟩
  have hrun : o.run id pos = visit o.config id pos o.depth
      (answer ⟨g, input, o.config⟩ (invoke ⟨g, input, o.config⟩ n (o.depth + 1)) id pos)
      o.before := by
    rw [Occasion.run, hn, invoke_eq_visit]
  rw [Occasion.Answers, hrun]
  generalize hends : visit _ _ _ _ _ _ = r
  cases visited hends with
  | plain _ hplain | found _ _ hplain =>
      obtain ⟨s', hsame⟩ := hwork _
      cases hplain.symm.trans hsame
      exact ⟨_, rfl⟩
  | plainAborts _ hplain | foundAborts _ _ hplain =>
      obtain ⟨s', hsame⟩ := hwork _
      cases hplain.symm.trans hsame
  | told _ hknown =>
      have hyields := o.yielded.entry (Grammar.contains_of_node?_eq_some hnode) hknown
      have hrule := (leaf_iff_rule hterminal).mpr ((yields_iff_rule hnode).mp hyields)
      exact ⟨_, by rw [leaf_unique hnode hterminal hrule hleaf]⟩

/-! ## Bytes in a set -/

theorem Occasion.answers_set (o : Occasion g input) (hlevels : 0 < o.levels) {set : ByteSet}
    (hnode : g.node? id = some (.set set)) {c : UInt8} (hc : input[pos]? = some c) :
    o.Answers id pos
      (if set.contains c then .matched (.byte c) (pos + 1) else .failed ⟨.setMismatch c, pos⟩) := by
  refine o.answers_leaf hlevels hnode rfl ?_
  split
  · next hin => exact .set hc hin
  · next hout => exact .set_mismatch hc (Bool.eq_false_iff.mpr hout)

end Semantics

/-- A node that was added is there in the grammar that is built in the end. -/
theorem Builder.node?_add {b : Builder} (node : Node) (hfull : node ≠ .indirect none)
    {later : List Builder.Call} {root : NodeId} {g : Grammar}
    (hbuild : (later.foldl Builder.after (Builder.add node b).2).build root = .ok g) :
    g.node? (Builder.add node b).1 = some node := by
  have hhas : (Builder.add node b).2.Has (Builder.add node b).1 node :=
    ⟨rfl, Array.getElem?_push_size⟩
  exact (hhas.later hfull later).node? hbuild

namespace ByteSet

/-- A set that is faithful to a list: it tells the same bytes, however often and in whatever
order they were given. -/
structure Represents (s : ByteSet) (members : List UInt8) : Prop where
  contains : ∀ b, s.contains b = true ↔ b ∈ members
  contains_complement : ∀ b, s.complement.contains b = !s.contains b
  complement_complement : s.complement.complement = s
  mem_toList : ∀ b, b ∈ s.toList ↔ b ∈ members
  ascending : s.toList.Pairwise (· < ·)
  size : s.size = members.dedup.length
  size_complement : s.complement.size + s.size = 256
  /-- No other bitmap has the same members. -/
  unique : ∀ t : ByteSet, (∀ b, t.contains b = true ↔ b ∈ members) → t = s

theorem represents {s : ByteSet} {members : List UInt8}
    (h : ∀ b, s.contains b = true ↔ b ∈ members) : s.Represents members where
  contains := h
  contains_complement := s.contains_complement
  complement_complement := s.complement_complement
  mem_toList b := ByteSet.mem_toList.trans (h b)
  ascending := s.pairwise_toList
  size := size_eq_dedup h
  size_complement := s.size_complement
  unique t ht := by
    ext b
    rw [Bool.eq_iff_iff, ht, h]

theorem represents_inserted (bytes inserted : List UInt8) :
    (inserted.foldl insert (ofList bytes)).Represents (bytes ++ inserted) :=
  represents fun b => by rw [contains_foldl_insert, contains_ofList, List.mem_append]

end ByteSet

open Semantics in
/-- A set that was put together byte by byte has the bytes that were put into it, its
complement has the others, and two ways of putting together the same bytes give the same
set. So a node made from a list of bytes takes a byte exactly if it is in the list, or is
not, wherever and however the node is tried. -/
theorem byte_sets_faithful (bytes inserted : List UInt8) :
    (inserted.foldl ByteSet.insert (ByteSet.ofList bytes)).Represents (bytes ++ inserted) ∧
    (∀ bytes' inserted' : List UInt8, (∀ b, b ∈ bytes ++ inserted ↔ b ∈ bytes' ++ inserted') →
      inserted.foldl ByteSet.insert (ByteSet.ofList bytes) =
        inserted'.foldl ByteSet.insert (ByteSet.ofList bytes')) ∧
    ∀ (b : Builder) (later : List Builder.Call) (root : NodeId) (g : Grammar)
      (input : Array UInt8) (o : Occasion g input) (pos : Nat) (c : UInt8), 0 < o.levels →
      input[pos]? = some c →
      ((later.foldl Builder.after (Builder.inSet bytes b).2).build root = .ok g →
        o.Answers (Builder.inSet bytes b).1 pos
          (if c ∈ bytes then .matched (.byte c) (pos + 1) else .failed ⟨.setMismatch c, pos⟩)) ∧
      ((later.foldl Builder.after (Builder.notInSet bytes b).2).build root = .ok g →
        o.Answers (Builder.notInSet bytes b).1 pos
          (if c ∉ bytes then .matched (.byte c) (pos + 1)
            else .failed ⟨.setMismatch c, pos⟩)) := by
  refine ⟨ByteSet.represents_inserted bytes inserted, fun bytes' inserted' hsame => ?_,
    fun b later root g input o pos c hlevels hc => ⟨fun hbuild => ?_, fun hbuild => ?_⟩⟩
  · refine (ByteSet.represents_inserted bytes' inserted').unique _ fun b => ?_
    rw [(ByteSet.represents_inserted bytes inserted).contains, hsame]
  · have hnode : g.node? (Builder.inSet bytes b).1 = some (.set (ByteSet.ofList bytes)) :=
      Builder.node?_add (.set _) nofun hbuild
    have hanswers := o.answers_set hlevels hnode hc
    rwa [if_congr (ByteSet.contains_ofList bytes c) rfl rfl] at hanswers
  · have hnode : g.node? (Builder.notInSet bytes b).1 =
        some (.set (ByteSet.ofList bytes).complement) :=
      Builder.node?_add (.set _) nofun hbuild
    have hanswers := o.answers_set hlevels hnode hc
    have hcontains : (ByteSet.ofList bytes).complement.contains c = true ↔ c ∉ bytes := by
      rw [ByteSet.contains_complement, Bool.not_eq_true', ← Bool.not_eq_true,
        ByteSet.contains_ofList]
    rwa [if_congr hcontains rfl rfl] at hanswers

/-- Two vowels, one of them given twice, and then anything else, in one grammar. -/
def vowels : NodeId × Builder :=
  Id.run <| StateT.run (do
    let vowel ← Builder.inSet [0x61, 0x65, 0x61]
    let other ← Builder.notInSet [0x61, 0x65, 0x61]
    Builder.sequence [vowel, other]) (Builder.new 0)

def vowelsGrammar : Grammar := ⟨vowels.2.arena, vowels.2.nodes, vowels.2.names, vowels.1⟩

open Semantics in
/-- The list and a reordering of it give the same set. A vowel passes the one node and not
the other. -/
theorem byte_sets_faithful_vowels :
    let o := Occasion.lastLevel vowelsGrammar #[0x78, 0x61] 9
    [0x65].foldl ByteSet.insert (ByteSet.ofList [0x61, 0x65, 0x61]) =
      [0x61].foldl ByteSet.insert (ByteSet.ofList [0x65]) ∧
    vowels.2.build vowels.1 = .ok vowelsGrammar ∧
    o.Answers ⟨0, 0⟩ 1 (.matched (.byte 0x61) 2) ∧
    o.Answers ⟨0, 1⟩ 1 (.failed ⟨.setMismatch 0x61, 1⟩) := by
  intro o
  have hbuild : vowels.2.build vowels.1 = .ok vowelsGrammar := rfl
  obtain ⟨_, hsame, hnodes⟩ := byte_sets_faithful [0x61, 0x65, 0x61] [0x65]
  have hvowel := hnodes (Builder.new 0) [.notInSet [0x61, 0x65, 0x61],
    .sequence [⟨0, 0⟩, ⟨0, 1⟩]] ⟨0, 2⟩ vowelsGrammar _ o 1 0x61 Nat.one_pos rfl
  have hother := hnodes (Builder.inSet [0x61, 0x65, 0x61] (Builder.new 0)).2
    [.sequence [⟨0, 0⟩, ⟨0, 1⟩]] ⟨0, 2⟩ vowelsGrammar _ o 1 0x61 Nat.one_pos rfl
  refine ⟨hsame [0x65] [0x61] (fun b => ?_), hbuild, hvowel.1 hbuild, hother.2 hbuild⟩
  simp only [List.cons_append, List.nil_append, List.mem_cons, List.not_mem_nil, or_false]
  tauto

end Packrat
