import Packrat.Proofs.Semantics.Reads

/-!
# The rules read backwards

What a node of a given kind matches is known once it is known what its children
match. First this is said of the rules of the compound nodes, whatever their
children are known to yield.

Then it is said of nodes in a grammar, for the kinds of nodes that textual formats
are made of, as statements about byte strings where the node looks at the input
itself. The level stays in view: how deep a match must be nested is part of what
a format means under a depth limit.

The last part is about what a node cannot do without. A node that begins with
another one has to try it, which takes a level, and fails if it fails. Following
such beginnings down to a leaf gives a least height for everything the node
yields, and one test of one byte that makes it fail (`Needs`).
-/

namespace Packrat.Semantics

open Walk

variable {input : Array UInt8} {pos stop : Nat}

/-! ## Rules -/

namespace Rule

variable {R : Judgement} {nodes : List NodeId} {inner length : NodeId} {keep min : Nat}
  {max : Option Nat} {token : Token}

theorem sequence_matched_iff :
    Rule input R (.sequence nodes) pos (.matched token stop) ↔
      ∃ tokens, Members R nodes pos tokens stop ∧ token = .seq tokens := by
  constructor
  · intro h
    cases h with
    | leaf hleaf => cases hleaf
    | sequence hmembers => exact ⟨_, hmembers, rfl⟩
  · rintro ⟨tokens, hmembers, rfl⟩
    exact .sequence hmembers

theorem sequence_fails_iff {failure : Failure} :
    Rule input R (.sequence nodes) pos (.failed failure) ↔ MemberFails R nodes pos failure := by
  constructor
  · intro h
    cases h with
    | leaf hleaf => cases hleaf
    | sequence_fails hfails => exact hfails
  · exact .sequence_fails

theorem pick_matched_iff :
    Rule input R (.pick nodes keep) pos (.matched token stop) ↔
      ∃ tokens, Members R nodes pos tokens stop ∧ tokens[keep]? = some token := by
  constructor
  · intro h
    cases h with
    | leaf hleaf => cases hleaf
    | pick hmembers htoken => exact ⟨_, hmembers, htoken⟩
  · rintro ⟨tokens, hmembers, htoken⟩
    exact .pick hmembers htoken

theorem pick_fails_iff {failure : Failure} :
    Rule input R (.pick nodes keep) pos (.failed failure) ↔ MemberFails R nodes pos failure := by
  constructor
  · intro h
    cases h with
    | leaf hleaf => cases hleaf
    | pick_fails hfails => exact hfails
  · exact .pick_fails

theorem repeated_matched_iff :
    Rule input R (.repeated inner min max) pos (.matched token stop) ↔
      ∃ tokens, Rounds R inner min max 0 pos tokens stop ∧ min ≤ tokens.length ∧
        token = .seq tokens := by
  constructor
  · intro h
    cases h with
    | leaf hleaf => cases hleaf
    | repeated hrounds hmin => exact ⟨_, hrounds, hmin, rfl⟩
  · rintro ⟨tokens, hrounds, hmin, rfl⟩
    exact .repeated hrounds hmin

theorem repeated_fails_iff :
    (∃ failure, Rule input R (.repeated inner min max) pos (.failed failure)) ↔
      ∃ tokens stop, Rounds R inner min max 0 pos tokens stop ∧ tokens.length < min := by
  constructor
  · rintro ⟨failure, h⟩
    cases h with
    | leaf hleaf => cases hleaf
    | repeated_fails hrounds hmin => exact ⟨_, _, hrounds, hmin⟩
  · rintro ⟨tokens, stop, hrounds, hmin⟩
    exact ⟨_, .repeated_fails hrounds hmin⟩

/-- A count of raw bytes matches where the count does and as many bytes follow. -/
theorem lengthBytes_matched_iff :
    Rule input R (.lengthValue length .byte) pos (.matched token stop) ↔
      ∃ counter start count, R length pos (.matched counter start) ∧
        counter.count? = some count ∧ token = .bytes (slice input start count.toNat) ∧
        start + count.toNat ≤ input.size ∧ stop = start + count.toNat := by
  constructor
  · intro h
    cases h with
    | leaf hleaf => cases hleaf
    | length_bytes hstep hcount hfits => exact ⟨_, _, _, hstep, hcount, rfl, hfits, rfl⟩
  · rintro ⟨counter, start, count, hstep, hcount, rfl, hfits, rfl⟩
    exact .length_bytes hstep hcount hfits

end Rule

/-! ## Nodes -/

section Nodes

variable {g : Grammar} {id : NodeId} {n : Nat}

theorem yieldsWithin_succ_iff {node : Node} (hnode : g.node? id = some node) {step : Step} :
    YieldsWithin g input (n + 1) id pos step ↔
      Rule input (YieldsWithin g input n) node pos step := by
  constructor
  · rintro ⟨node', hnode', hrule⟩
    rw [hnode] at hnode'
    cases hnode'
    exact hrule
  · exact fun hrule => ⟨node, hnode, hrule⟩

theorem YieldsWithin.exists_pred {step : Step} (h : YieldsWithin g input n id pos step) :
    ∃ m, n = m + 1 := by
  cases n with
  | zero => exact h.elim
  | succ m => exact ⟨m, rfl⟩

theorem literal_matched_iff {b : UInt8} (hnode : g.node? id = some (.literal b))
    {token : Token} :
    YieldsWithin g input (n + 1) id pos (.matched token stop) ↔
      token = .byte b ∧ Reads input pos [b] stop := by
  rw [yieldsWithin_succ_iff hnode, Reads.byte_iff]
  constructor
  · intro h
    cases h with
    | leaf hleaf =>
        cases hleaf with
        | literal hb => exact ⟨rfl, hb, rfl⟩
  · rintro ⟨rfl, hb, rfl⟩
    exact .leaf (.literal hb)

theorem literal_fails {b : UInt8} (hnode : g.node? id = some (.literal b))
    (h : EndsAt input (· == b) pos) :
    ∃ failure, YieldsWithin g input (n + 1) id pos (.failed failure) := by
  simp only [yieldsWithin_succ_iff hnode]
  cases hb : input[pos]? with
  | none =>
      exact ⟨_, .leaf (.literal_exhausted (Array.getElem?_eq_none_iff.mp hb))⟩
  | some found =>
      have hne := h found hb
      exact ⟨_, .leaf (.literal_mismatch hb (by simpa using hne))⟩

theorem range_matched_iff {low high : UInt8} (hnode : g.node? id = some (.range low high))
    {token : Token} :
    YieldsWithin g input (n + 1) id pos (.matched token stop) ↔
      ∃ b, (low ≤ b ∧ b ≤ high) ∧ token = .byte b ∧ Reads input pos [b] stop := by
  simp only [yieldsWithin_succ_iff hnode, Reads.byte_iff]
  constructor
  · intro h
    cases h with
    | leaf hleaf =>
        cases hleaf with
        | range hb hlow hhigh => exact ⟨_, ⟨hlow, hhigh⟩, rfl, hb, rfl⟩
  · rintro ⟨b, ⟨hlow, hhigh⟩, rfl, hb, rfl⟩
    exact .leaf (.range hb hlow hhigh)

theorem range_fails_iff {low high : UInt8} (hnode : g.node? id = some (.range low high)) :
    (∃ failure, YieldsWithin g input (n + 1) id pos (.failed failure)) ↔
      EndsAt input (fun b => low ≤ b && b ≤ high) pos := by
  simp only [yieldsWithin_succ_iff hnode]
  constructor
  · rintro ⟨failure, h⟩ b hb
    cases h with
    | leaf hleaf =>
        cases hleaf with
        | range_mismatch hfound hout =>
            rw [hb] at hfound
            cases hfound
            grind
        | range_exhausted hsize =>
            rw [Array.getElem?_eq_none hsize] at hb
            cases hb
  · intro h
    cases hb : input[pos]? with
    | none =>
        exact ⟨_, .leaf (.range_exhausted (Array.getElem?_eq_none_iff.mp hb))⟩
    | some found =>
        have hout := h found hb
        exact ⟨_, .leaf (.range_mismatch hb (by grind))⟩

theorem sequence_matched_iff {nodes : List NodeId} (hnode : g.node? id = some (.sequence nodes))
    {token : Token} :
    YieldsWithin g input (n + 1) id pos (.matched token stop) ↔
      ∃ tokens, Members (YieldsWithin g input n) nodes pos tokens stop ∧ token = .seq tokens := by
  rw [yieldsWithin_succ_iff hnode, Rule.sequence_matched_iff]

theorem pick_matched_iff {nodes : List NodeId} {keep : Nat}
    (hnode : g.node? id = some (.pick nodes keep)) {token : Token} :
    YieldsWithin g input (n + 1) id pos (.matched token stop) ↔
      ∃ tokens, Members (YieldsWithin g input n) nodes pos tokens stop ∧
        tokens[keep]? = some token := by
  rw [yieldsWithin_succ_iff hnode, Rule.pick_matched_iff]

theorem choice_matched_iff {nodes : List NodeId} (hnode : g.node? id = some (.choice nodes))
    {token : Token} :
    YieldsWithin g input (n + 1) id pos (.matched token stop) ↔
      FirstMatches (YieldsWithin g input n) nodes pos token stop := by
  rw [yieldsWithin_succ_iff hnode]
  constructor
  · intro h
    cases h with
    | leaf hleaf => cases hleaf
    | choice hfirst => exact hfirst
  · exact .choice

theorem choice_fails_iff {nodes : List NodeId} (hnode : g.node? id = some (.choice nodes)) :
    (∃ failure, YieldsWithin g input (n + 1) id pos (.failed failure)) ↔
      ∀ node ∈ nodes, ∃ failure, YieldsWithin g input n node pos (.failed failure) := by
  simp only [yieldsWithin_succ_iff hnode]
  constructor
  · rintro ⟨failure, h⟩
    cases h with
    | leaf hleaf => cases hleaf
    | choice_fails hall =>
        clear hnode
        induction hall with
        | nil => exact nofun
        | cons hstep _ ih =>
            intro node hmem
            rcases List.mem_cons.mp hmem with rfl | hmem
            · exact ⟨_, hstep⟩
            · exact ih node hmem
  · intro h
    refine ⟨_, .choice_fails ?_⟩
    clear hnode
    induction nodes with
    | nil => exact .nil
    | cons node nodes ih =>
        obtain ⟨_, hstep⟩ := h node List.mem_cons_self
        exact .cons hstep (ih fun other hmem => h other (List.mem_cons_of_mem _ hmem))

theorem optional_matched_iff {inner : NodeId} (hnode : g.node? id = some (.optional inner))
    {token : Token} :
    YieldsWithin g input (n + 1) id pos (.matched token stop) ↔
      YieldsWithin g input n inner pos (.matched token stop) ∨
        (∃ failure, YieldsWithin g input n inner pos (.failed failure)) ∧
          token = .none ∧ stop = pos := by
  rw [yieldsWithin_succ_iff hnode]
  constructor
  · intro h
    cases h with
    | leaf hleaf => cases hleaf
    | optional hstep => exact .inl hstep
    | optional_none hstep => exact .inr ⟨⟨_, hstep⟩, rfl, rfl⟩
  · rintro (hstep | ⟨⟨_, hstep⟩, rfl, rfl⟩)
    · exact .optional hstep
    · exact .optional_none hstep

theorem many_matched_iff {inner : NodeId} {min : Nat}
    (hnode : g.node? id = some (.repeated inner min none)) {token : Token} :
    YieldsWithin g input (n + 1) id pos (.matched token stop) ↔
      ∃ tokens, Rounds (YieldsWithin g input n) inner min none 0 pos tokens stop ∧
        min ≤ tokens.length ∧ token = .seq tokens := by
  rw [yieldsWithin_succ_iff hnode, Rule.repeated_matched_iff]

theorem action_matched_iff {inner : NodeId} {action : Action}
    (hnode : g.node? id = some (.action inner action)) {token : Token} :
    YieldsWithin g input (n + 1) id pos (.matched token stop) ↔
      ∃ raw, YieldsWithin g input n inner pos (.matched raw stop) ∧
        action.apply raw = some token := by
  rw [yieldsWithin_succ_iff hnode]
  constructor
  · intro h
    cases h with
    | leaf hleaf => cases hleaf
    | action hstep hresult => exact ⟨_, hstep, hresult⟩
  · rintro ⟨raw, hstep, hresult⟩
    exact .action hstep hresult

theorem indirect_iff {target : NodeId} (hnode : g.node? id = some (.indirect (some target)))
    {step : Step} :
    YieldsWithin g input (n + 1) id pos step ↔ YieldsWithin g input n target pos step := by
  rw [yieldsWithin_succ_iff hnode]
  constructor
  · intro h
    cases h with
    | leaf hleaf => cases hleaf
    | indirect hstep => exact hstep
  · exact .indirect

theorem lengthBytes_matched_iff {length : NodeId}
    (hnode : g.node? id = some (.lengthValue length .byte))
    (hwithin : ∀ token start, YieldsWithin g input n length pos (.matched token start) →
      start ≤ input.size) {token : Token} :
    YieldsWithin g input (n + 1) id pos (.matched token stop) ↔
      ∃ counter start count payload,
        YieldsWithin g input n length pos (.matched counter start) ∧
          counter.count? = some count ∧ payload.length = count.toNat ∧
          token = .bytes payload ∧ Reads input start payload stop := by
  rw [yieldsWithin_succ_iff hnode, Rule.lengthBytes_matched_iff]
  constructor
  · rintro ⟨counter, start, count, hstep, hcount, rfl, hfits, hstop⟩
    obtain ⟨hlength, hreads⟩ :=
      (Reads.slice_iff (hwithin counter start hstep)).mp ⟨hfits, rfl, hstop⟩
    exact ⟨counter, start, count, _, hstep, hcount, hlength, rfl, hreads⟩
  · rintro ⟨counter, start, count, payload, hstep, hcount, hlength, rfl, hreads⟩
    obtain ⟨hfits, rfl, hstop⟩ :=
      (Reads.slice_iff (hwithin counter start hstep)).mpr ⟨hlength, hreads⟩
    exact ⟨counter, start, count, hstep, hcount, rfl, hfits, hstop⟩

end Nodes

/-! ## What a node cannot do without -/

/-- The child that a node tries first and where it stands itself, and without which
it fails. -/
def needs? : Node → Option NodeId
  | .sequence (id :: _) | .pick (id :: _) _ | .action id _ | .lengthValue id _
  | .indirect (some id) | .repeated id (_ + 1) none => some id
  | _ => none

section Needs

variable {g : Grammar} {R : Judgement} {id child leaf : NodeId} {node : Node} {step : Step}
  {n k : Nat}

theorem Rounds.tries {min count : Nat} {tokens : List Token}
    (h : Rounds R id min none count pos tokens stop) : ∃ s, R id pos s := by
  cases h with
  | full hmax => cases hmax
  | fails _ hstep => exact ⟨_, hstep⟩
  | stalls _ hstep => exact ⟨_, hstep⟩
  | round _ hstep => exact ⟨_, hstep⟩

theorem Rule.tries_needed (h : Rule input R node pos step) (hneeds : needs? node = some child) :
    ∃ s, R child pos s := by
  cases h with
  | leaf hleaf => cases hleaf <;> cases hneeds
  | sequence hmembers | pick hmembers =>
      cases hmembers with
      | nil => cases hneeds
      | cons hstep => cases hneeds; exact ⟨_, hstep⟩
  | sequence_fails hfails | pick_fails hfails =>
      cases hfails with
      | here hstep => cases hneeds; exact ⟨_, hstep⟩
      | later hstep => cases hneeds; exact ⟨_, hstep⟩
  | @repeated _ min max _ _ _ hrounds | @repeated_fails _ min max _ _ _ hrounds =>
      cases min with
      | zero => cases hneeds
      | succ min =>
          cases max with
          | some max => cases hneeds
          | none =>
              cases hneeds
              exact hrounds.tries
  | action hstep | action_rejects hstep | action_fails hstep | length_fails hstep
  | length_bytes hstep | length_exceeds hstep | length_nodes hstep | length_node_fails hstep
  | indirect hstep => cases hneeds; exact ⟨_, hstep⟩
  | _ => cases hneeds

theorem Rule.fails_of_needed (hneeds : needs? node = some child)
    (hfails : ∃ failure, R child pos (.failed failure)) :
    ∃ failure, Rule input R node pos (.failed failure) := by
  obtain ⟨failure, hstep⟩ := hfails
  unfold needs? at hneeds
  split at hneeds
  · cases hneeds; exact ⟨_, .sequence_fails (.here hstep)⟩
  · cases hneeds; exact ⟨_, .pick_fails (.here hstep)⟩
  · cases hneeds; exact ⟨_, .action_fails hstep⟩
  · cases hneeds; exact ⟨_, .length_fails hstep⟩
  · cases hneeds; exact ⟨_, .indirect hstep⟩
  · cases hneeds
    exact ⟨_, .repeated_fails (.fails (fun _ => nofun) hstep) (Nat.succ_pos _)⟩
  · cases hneeds

/-- The node needs the leaf, `k` levels below. -/
inductive Needs (g : Grammar) (leaf : NodeId) : Nat → NodeId → Prop where
  | self : Needs g leaf 0 leaf
  | through {k : Nat} {id : NodeId} {node : Node} {child : NodeId} :
      g.node? id = some node → needs? node = some child → Needs g leaf k child →
      Needs g leaf (k + 1) id

/-- Nothing is known of a node without trying what it needs. -/
theorem Needs.tries (h : Needs g leaf k id) :
    ∀ {n : Nat} {step : Step}, YieldsWithin g input n id pos step →
      ∃ m s, n = m + k ∧ YieldsWithin g input m leaf pos s := by
  induction h with
  | self => exact fun hstep => ⟨_, _, rfl, hstep⟩
  | through hnode hneeds _ ih =>
      intro n step hstep
      obtain ⟨m, rfl⟩ := hstep.exists_pred
      obtain ⟨s, hs⟩ := ((yieldsWithin_succ_iff hnode).mp hstep).tries_needed hneeds
      obtain ⟨m', s', rfl, hs'⟩ := ih hs
      exact ⟨m', s', rfl, hs'⟩

theorem Needs.lt (h : Needs g leaf k id) (hstep : YieldsWithin g input n id pos step) :
    k < n := by
  obtain ⟨m, s, rfl, hs⟩ := h.tries hstep
  obtain ⟨m, rfl⟩ := hs.exists_pred
  omega

theorem Needs.fails (h : Needs g leaf k id) {m : Nat}
    (hfails : ∃ failure, YieldsWithin g input m leaf pos (.failed failure)) :
    ∃ failure, YieldsWithin g input (m + k) id pos (.failed failure) := by
  induction h with
  | self => exact hfails
  | through hnode hneeds _ ih =>
      simp only [← Nat.add_assoc, yieldsWithin_succ_iff hnode]
      exact Rule.fails_of_needed hneeds ih

/-- A node that needs a byte fails where another one stands. -/
theorem Needs.fails_of_head (h : Needs g leaf k id) {b c : UInt8}
    (hleaf : g.node? leaf = some (.literal b)) (hlevels : k < n) (hc : input[pos]? = some c)
    (hne : c ≠ b) : ∃ failure, YieldsWithin g input n id pos (.failed failure) := by
  obtain ⟨m, rfl⟩ : ∃ m, n = m + 1 + k := ⟨n - k - 1, by omega⟩
  exact h.fails (literal_fails hleaf (EndsAt.of_head hc (by simpa using hne)))

end Needs

end Packrat.Semantics
