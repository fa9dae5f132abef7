import Packrat.Proofs.Grammar.WellFormed

/-!
# Arenas that can be constructed

An arena comes about by calls, in any order and with any ids, and also by calls that
fail. The nodes that the calls can make are fewer than there are nodes: no call makes
a repetition with its bounds the wrong way round, none keeps a member that is not
there, and a placeholder is bound to a node that the arena has. The check of an arena
looks for the first two all the same. On the third it relies, since it follows
bindings without looking where they lead.
-/

namespace Packrat.Builder

/-! ## Calls -/

/-- What can be done to an arena under construction. -/
inductive Call where
  | literal (byte : UInt8)
  | range (low high : UInt8)
  | inSet (bytes : List UInt8)
  | notInSet (bytes : List UInt8)
  | bytes (expected : List UInt8)
  | anyByte
  | unsigned (width : Nat)
  | signed (width : Nat)
  | endOfInput
  | epsilon
  | nothing
  | sequence (nodes : List NodeId)
  | choice (nodes : List NodeId)
  | optional (node : NodeId)
  | many (node : NodeId)
  | many1 (node : NodeId)
  | times (node : NodeId) (count : Nat)
  | sepBy (node separator : NodeId)
  | sepBy1 (node separator : NodeId)
  | left (keep skip : NodeId)
  | right (skip keep : NodeId)
  | middle (opening keep closing : NodeId)
  | action (node : NodeId) (name : String) (apply : Token → Option Token)
  | lengthValue (length : NodeId) (element : Element)
  | followedBy (node : NodeId)
  | notFollowedBy (node : NodeId)
  | whitespace (node : NodeId)
  | indirect
  | name (node : NodeId) (label : String)
  | define (placeholder definition : NodeId)

/-- The arena after a call, whatever the call answered. -/
def after (b : Builder) : Call → Builder
  | .literal byte => (literal byte b).2
  | .range low high => (range low high b).2
  | .inSet bytes => (inSet bytes b).2
  | .notInSet bytes => (notInSet bytes b).2
  | .bytes expected => (bytes expected b).2
  | .anyByte => (anyByte b).2
  | .unsigned width => (unsigned width b).2
  | .signed width => (signed width b).2
  | .endOfInput => (endOfInput b).2
  | .epsilon => (epsilon b).2
  | .nothing => (nothing b).2
  | .sequence nodes => (sequence nodes b).2
  | .choice nodes => (choice nodes b).2
  | .optional node => (optional node b).2
  | .many node => (many node b).2
  | .many1 node => (many1 node b).2
  | .times node count => (times node count b).2
  | .sepBy node separator => (sepBy node separator b).2
  | .sepBy1 node separator => (sepBy1 node separator b).2
  | .left keep skip => (left keep skip b).2
  | .right skip keep => (right skip keep b).2
  | .middle opening keep closing => (middle opening keep closing b).2
  | .action node name apply => (action node name apply b).2
  | .lengthValue length element => (lengthValue length element b).2
  | .followedBy node => (followedBy node b).2
  | .notFollowedBy node => (notFollowedBy node b).2
  | .whitespace node => (whitespace node b).2
  | .indirect => (indirect b).2
  | .name node label => (name node label b).2
  | .define placeholder definition => (define placeholder definition b).2

/-- The arena that calls make from an empty one. -/
def construct (arena : Nat) (calls : List Call) : Builder := calls.foldl after (new arena)

/-! ## What calls make -/

/-- A node as calls make them in this arena. -/
def Made (b : Builder) : Node → Prop
  | .indirect (some target) => b.owns target = true
  | .repeated _ min (some max) => min ≤ max
  | .pick members keep => keep < members.length
  | _ => True

/-- An arena as calls make them. -/
def Constructed (b : Builder) : Prop := ∀ node ∈ b.nodes, b.Made node

section Constructed

variable {b b' : Builder}

theorem owns_iff {id : NodeId} :
    b.owns id = true ↔ id.arena = b.arena ∧ id.index < b.nodes.size := by
  simp only [owns, Bool.and_eq_true, beq_iff_eq, decide_eq_true_eq]

/-- Nodes stay as they were made while the arena grows. -/
theorem Made.mono {node : Node} (h : b.Made node) (harena : b'.arena = b.arena)
    (hsize : b.nodes.size ≤ b'.nodes.size) : b'.Made node := by
  cases node with
  | indirect target =>
      cases target with
      | none => trivial
      | some target =>
          obtain ⟨hsame, hlt⟩ := owns_iff.mp h
          exact owns_iff.mpr ⟨hsame.trans harena.symm, Nat.lt_of_lt_of_le hlt hsize⟩
  | repeated node min max =>
      cases max with
      | none => trivial
      | some max => exact h
  | pick members keep => exact h
  | _ => trivial

theorem constructed_new (arena : Nat) : (new arena).Constructed := by
  intro node h
  simp [new] at h

theorem Constructed.add (h : b.Constructed) {node : Node} (hnode : b.Made node) :
    (Builder.add node b).2.Constructed := by
  have hsize : b.nodes.size ≤ (b.nodes.push node).size := by
    rw [Array.size_push]
    omega
  intro other hother
  rcases Array.mem_push.mp hother with hold | rfl
  · exact (h other hold).mono rfl hsize
  · exact hnode.mono rfl hsize

theorem Constructed.name (h : b.Constructed) (node : NodeId) (label : String) :
    (Builder.name node label b).2.Constructed := by
  unfold Builder.name
  split
  · exact fun other hother => (h other hother).mono rfl (Nat.le_refl _)
  · exact h

theorem defined_ok {placeholder definition : NodeId}
    (h : b.defined placeholder definition = .ok b') :
    b.owns definition = true ∧ b' = { b with
      nodes := b.nodes.setIfInBounds placeholder.index (.indirect (some definition)) } := by
  rw [defined] at h
  cases hplaceholder : b.checkOwned placeholder with
  | error e => rw [hplaceholder] at h; cases h
  | ok u =>
      cases hdefinition : b.checkOwned definition with
      | error e => rw [hplaceholder, hdefinition] at h; cases h
      | ok u =>
          rw [hplaceholder, hdefinition] at h
          cases hnode : b.nodes[placeholder.index]? with
          | none => rw [hnode] at h; cases h
          | some node =>
              rw [hnode] at h
              cases node with
              | indirect target =>
                  cases target with
                  | none =>
                      cases h
                      exact ⟨owns_of_checkOwned hdefinition, rfl⟩
                  | some target => cases h
              | _ => cases h

theorem Constructed.define (h : b.Constructed) (placeholder definition : NodeId) :
    (Builder.define placeholder definition b).2.Constructed := by
  unfold Builder.define
  cases hdefined : b.defined placeholder definition with
  | error e => exact h
  | ok b' =>
      obtain ⟨howned, rfl⟩ := defined_ok hdefined
      have hsize : b.nodes.size ≤
          (b.nodes.setIfInBounds placeholder.index (.indirect (some definition))).size :=
        Nat.le_of_eq Array.size_setIfInBounds.symm
      intro other hother
      rcases Array.mem_or_eq_of_mem_setIfInBounds hother with hold | rfl
      · exact (h other hold).mono rfl hsize
      · have hmade : b.Made (.indirect (some definition)) := howned
        exact hmade.mono rfl hsize

theorem Constructed.after (h : b.Constructed) (c : Call) : (b.after c).Constructed := by
  cases c with
  | name node label => exact h.name node label
  | define placeholder definition => exact h.define placeholder definition
  | times node count => exact h.add (Nat.le_refl count)
  | left keep skip => exact h.add (Nat.zero_lt_succ 1)
  | right skip keep => exact h.add (Nat.lt_succ_self 1)
  | middle opening keep closing => exact h.add (show 1 < 3 by omega)
  | _ => exact h.add trivial

theorem constructed_construct (arena : Nat) (calls : List Call) :
    (construct arena calls).Constructed := by
  suffices h : ∀ b : Builder, b.Constructed → (calls.foldl Builder.after b).Constructed from
    h _ (constructed_new arena)
  induction calls with
  | nil => exact fun _ h => h
  | cons c rest ih => exact fun b h => ih _ (h.after c)

end Constructed

end Packrat.Builder
