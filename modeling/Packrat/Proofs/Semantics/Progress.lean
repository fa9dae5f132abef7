import Packrat.Proofs.Semantics.Decimal
import Packrat.Proofs.Semantics.Soundness

/-!
# Nodes that come to a step

A node need not yield anything: it may call itself where it stands, or be given a length
that is none. What it takes to yield something is said here kind by kind, from what its
children yield, for the kinds of nodes that textual formats are made of. The level is
counted, so the same lemmas tell how many levels are enough.

The positions matter. The members of a sequence are tried one after another, so the
second one only has to come to a step where the first one stops. That is what lets a
node call itself behind something that consumes.

A walk over an input on which all nodes come to a step has one reason left to give up,
the depth limit. This holds of walks that remember as well.
-/

namespace Packrat.Semantics

open Walk

variable {g : Grammar} {input : Array UInt8} {R : Judgement} {id inner : NodeId}
  {ids : List NodeId} {pos n : Nat}

/-- Within so many levels the node yields something at the position. -/
def Settles (g : Grammar) (input : Array UInt8) (n : Nat) (id : NodeId) (pos : Nat) : Prop :=
  ∃ step, YieldsWithin g input n id pos step

theorem Settles.mono {m : Nat} (h : Settles g input n id pos) (hle : n ≤ m) :
    Settles g input m id pos := by
  obtain ⟨step, hstep⟩ := h
  exact ⟨step, hstep.mono hle⟩

theorem Settles.of_rule {node : Node} (hnode : g.node? id = some node)
    (h : ∃ step, Rule input (YieldsWithin g input n) node pos step) :
    Settles g input (n + 1) id pos := by
  obtain ⟨step, hrule⟩ := h
  exact ⟨step, (yieldsWithin_succ_iff hnode).mpr hrule⟩

/-- What settles and does not match fails. -/
theorem Settles.fails (h : Settles g input n id pos)
    (hnone : ∀ token stop, ¬ YieldsWithin g input n id pos (.matched token stop)) :
    ∃ failure, YieldsWithin g input n id pos (.failed failure) := by
  obtain ⟨step, hstep⟩ := h
  cases step with
  | matched token stop => exact absurd hstep (hnone token stop)
  | failed failure => exact ⟨failure, hstep⟩

/-! ## Bytes -/

theorem literal_settles {b : UInt8} (hnode : g.node? id = some (.literal b)) :
    Settles g input (n + 1) id pos := by
  by_cases hb : input[pos]? = some b
  · have hreads : Reads input pos [b] (pos + 1) := Reads.byte_iff.mpr ⟨hb, rfl⟩
    exact ⟨_, (literal_matched_iff hnode).mpr ⟨rfl, hreads⟩⟩
  · have hends : EndsAt input (· == b) pos := by
      intro c hc
      rw [hc] at hb
      simpa using hb
    obtain ⟨failure, hstep⟩ := literal_fails (n := n) hnode hends
    exact ⟨_, hstep⟩

theorem range_settles {low high : UInt8} (hnode : g.node? id = some (.range low high)) :
    Settles g input (n + 1) id pos := by
  by_cases hends : EndsAt input (fun b => low ≤ b && b ≤ high) pos
  · obtain ⟨failure, hstep⟩ := (range_fails_iff (n := n) hnode).mpr hends
    exact ⟨_, hstep⟩
  · simp only [EndsAt, Classical.not_forall] at hends
    obtain ⟨b, hb, hin⟩ := hends
    have hreads : Reads input pos [b] (pos + 1) := Reads.byte_iff.mpr ⟨hb, rfl⟩
    exact ⟨_, (range_matched_iff hnode).mpr ⟨b, by simpa using hin, rfl, hreads⟩⟩

/-! ## Members and alternatives -/

/-- The nodes come to a step one after another, each where the one before it stops. -/
def InTurn (R : Judgement) : List NodeId → Nat → Prop
  | [], _ => True
  | id :: ids, pos => (∃ step, R id pos step) ∧
    ∀ token next, R id pos (.matched token next) → InTurn R ids next

theorem InTurn.members_or_fails (h : InTurn R ids pos) :
    (∃ tokens stop, Members R ids pos tokens stop) ∨ ∃ failure, MemberFails R ids pos failure := by
  induction ids generalizing pos with
  | nil => exact .inl ⟨[], pos, .nil⟩
  | cons id ids ih =>
      obtain ⟨⟨step, hstep⟩, hrest⟩ := h
      cases step with
      | failed failure => exact .inr ⟨failure, .here hstep⟩
      | matched token next =>
          rcases ih (hrest token next hstep) with ⟨tokens, stop, hmembers⟩ | ⟨failure, hfails⟩
          · exact .inl ⟨_, stop, .cons hstep hmembers⟩
          · exact .inr ⟨failure, .later hstep hfails⟩

/-- So do nodes that come to a step wherever they are tried. -/
theorem inTurn_of_settles (hg : g.WellFormed) (hpos : pos ≤ input.size)
    (h : ∀ other ∈ ids, ∀ p, pos ≤ p → p ≤ input.size → Settles g input n other p) :
    InTurn (YieldsWithin g input n) ids pos := by
  induction ids generalizing pos with
  | nil => trivial
  | cons id ids ih =>
      obtain ⟨hfirst, hrest⟩ := List.forall_mem_cons.mp h
      refine ⟨hfirst pos (Nat.le_refl pos) hpos, fun token next hstep => ?_⟩
      obtain ⟨hle, hsize⟩ := (yields_of_yieldsWithin hstep).within hg
        (contains_of_yieldsWithin hstep) hpos
      exact ih hsize fun other hmem p hp => hrest other hmem p (Nat.le_trans hle hp)

theorem sequence_settles (hnode : g.node? id = some (.sequence ids))
    (h : InTurn (YieldsWithin g input n) ids pos) : Settles g input (n + 1) id pos := by
  refine .of_rule hnode ?_
  rcases h.members_or_fails with ⟨tokens, stop, hmembers⟩ | ⟨failure, hfails⟩
  · exact ⟨_, .sequence hmembers⟩
  · exact ⟨_, .sequence_fails hfails⟩

theorem pick_settles {keep : Nat} (hnode : g.node? id = some (.pick ids keep))
    (hkeep : keep < ids.length) (h : InTurn (YieldsWithin g input n) ids pos) :
    Settles g input (n + 1) id pos := by
  refine .of_rule hnode ?_
  rcases h.members_or_fails with ⟨tokens, stop, hmembers⟩ | ⟨failure, hfails⟩
  · have hlt : keep < tokens.length := hmembers.length_eq ▸ hkeep
    exact ⟨_, .pick hmembers (List.getElem?_eq_getElem hlt)⟩
  · exact ⟨_, .pick_fails hfails⟩

theorem choice_settles (hnode : g.node? id = some (.choice ids))
    (h : ∀ other ∈ ids, Settles g input n other pos) : Settles g input (n + 1) id pos := by
  refine .of_rule hnode ?_
  have hfirst : (∃ token stop, FirstMatches (YieldsWithin g input n) ids pos token stop) ∨
      AllFail (YieldsWithin g input n) ids pos := by
    clear hnode
    induction ids with
    | nil => exact .inr .nil
    | cons other ids ih =>
        obtain ⟨⟨step, hstep⟩, hrest⟩ := List.forall_mem_cons.mp h
        cases step with
        | matched token stop => exact .inl ⟨token, stop, .here hstep⟩
        | failed failure =>
            rcases ih hrest with ⟨token, stop, hlater⟩ | hall
            · exact .inl ⟨token, stop, .later hstep hlater⟩
            · exact .inr (.cons hstep hall)
  rcases hfirst with ⟨token, stop, hmatches⟩ | hall
  · exact ⟨_, .choice hmatches⟩
  · exact ⟨_, .choice_fails hall⟩

/-! ## One child -/

theorem optional_settles (hnode : g.node? id = some (.optional inner))
    (h : Settles g input n inner pos) : Settles g input (n + 1) id pos := by
  obtain ⟨step, hstep⟩ := h
  refine .of_rule hnode ?_
  cases step with
  | matched token stop => exact ⟨_, .optional hstep⟩
  | failed failure => exact ⟨_, .optional_none hstep⟩

theorem action_settles {action : Action} (hnode : g.node? id = some (.action inner action))
    (h : Settles g input n inner pos) : Settles g input (n + 1) id pos := by
  obtain ⟨step, hstep⟩ := h
  refine .of_rule hnode ?_
  cases step with
  | failed failure => exact ⟨_, .action_fails hstep⟩
  | matched token stop =>
      cases hresult : action.apply token with
      | some result => exact ⟨_, .action hstep hresult⟩
      | none => exact ⟨_, .action_rejects hstep hresult⟩

theorem indirect_settles (hnode : g.node? id = some (.indirect (some inner)))
    (h : Settles g input n inner pos) : Settles g input (n + 1) id pos := by
  obtain ⟨step, hstep⟩ := h
  exact ⟨step, (indirect_iff hnode).mpr hstep⟩

/-- A count of raw bytes comes to a step if the count does and is one. -/
theorem lengthBytes_settles (hnode : g.node? id = some (.lengthValue inner .byte))
    (hcount : ∀ token start, YieldsWithin g input n inner pos (.matched token start) →
      ∃ count, token.count? = some count)
    (h : Settles g input n inner pos) : Settles g input (n + 1) id pos := by
  obtain ⟨step, hstep⟩ := h
  refine .of_rule hnode ?_
  cases step with
  | failed failure => exact ⟨_, .length_fails hstep⟩
  | matched token start =>
      obtain ⟨count, hcounted⟩ := hcount token start hstep
      by_cases hfits : start + count.toNat ≤ input.size
      · exact ⟨_, .length_bytes hstep hcounted hfits⟩
      · exact ⟨_, .length_exceeds hstep hcounted (by omega)⟩

/-! ## Repetitions -/

/-- A repetition ends, since a round that does not move on counts towards the least
number or is the last. -/
theorem rounds_exist {min size : Nat} (hsettles : ∀ p, pos ≤ p → p ≤ size → ∃ step, R id p step)
    (hwithin : ∀ p step, p ≤ size → R id p step → step.Within p size)
    {cursor : Nat} (hlo : pos ≤ cursor) (hhi : cursor ≤ size) (count : Nat) :
    ∃ tokens stop, Rounds R id min none count cursor tokens stop := by
  induction hmeasure : (min - count) + (size - cursor) using Nat.strongRecOn
    generalizing cursor count with
  | _ measure ih =>
      subst hmeasure
      obtain ⟨step, hstep⟩ := hsettles cursor hlo hhi
      cases step with
      | failed failure => exact ⟨[], cursor, .fails (fun _ => nofun) hstep⟩
      | matched token next =>
          obtain ⟨hle, hsize⟩ := hwithin cursor _ hhi hstep
          by_cases hstalls : next = cursor ∧ min ≤ count + 1
          · obtain ⟨rfl, henough⟩ := hstalls
            exact ⟨[token], next, .stalls (fun _ => nofun) hstep henough⟩
          · obtain ⟨tokens, stop, hrounds⟩ :=
              ih ((min - (count + 1)) + (size - next)) (by omega) (by omega) hsize (count + 1) rfl
            exact ⟨token :: tokens, stop, .round (fun _ => nofun) hstep (by omega) hrounds⟩

theorem many_settles {min : Nat} (hg : g.WellFormed)
    (hnode : g.node? id = some (.repeated inner min none)) (hpos : pos ≤ input.size)
    (h : ∀ p, pos ≤ p → p ≤ input.size → Settles g input n inner p) :
    Settles g input (n + 1) id pos := by
  have hinner : g.contains inner = true := by
    obtain ⟨step, hstep⟩ := h pos (Nat.le_refl pos) hpos
    exact contains_of_yieldsWithin hstep
  have hwithin : ∀ p step, p ≤ input.size → YieldsWithin g input n inner p step →
      step.Within p input.size :=
    fun p step hp hstep => (yields_of_yieldsWithin hstep).within hg hinner hp
  obtain ⟨tokens, stop, hrounds⟩ : ∃ tokens stop,
      Rounds (YieldsWithin g input n) inner min none 0 pos tokens stop :=
    rounds_exist h hwithin (Nat.le_refl pos) hpos 0
  refine .of_rule hnode ?_
  by_cases henough : min ≤ tokens.length
  · exact ⟨_, .repeated hrounds henough⟩
  · exact ⟨_, .repeated_fails hrounds (by omega)⟩

/-! ## Decimal numbers -/

section Decimals

variable {digit run minus sign parts sint uint : NodeId}

theorem digits_settles (h : DigitNodes g digit run) (hg : g.WellFormed)
    (hpos : pos ≤ input.size) : Settles g input (n + 2) run pos :=
  many_settles hg h.run_eq hpos fun _ _ _ => range_settles h.digit_eq

theorem uint_settles (h : DigitNodes g digit run) (hg : g.WellFormed) {action : Action}
    (huint : g.node? uint = some (.action run action)) (hpos : pos ≤ input.size) :
    Settles g input (n + 3) uint pos :=
  action_settles huint (digits_settles h hg hpos)

theorem sign_settles (h : SignedNodes g digit run minus sign parts sint) :
    Settles g input (n + 2) sign pos :=
  optional_settles h.sign_eq (literal_settles h.minus_eq)

theorem parts_settles (h : SignedNodes g digit run minus sign parts sint) (hg : g.WellFormed)
    (hpos : pos ≤ input.size) : Settles g input (n + 3) parts pos := by
  refine sequence_settles h.parts_eq (inTurn_of_settles hg hpos ?_)
  simp only [List.forall_mem_cons, List.not_mem_nil, false_implies, implies_true, and_true]
  exact ⟨fun _ _ _ => sign_settles h, fun _ _ hp => digits_settles h.toDigitNodes hg hp⟩

theorem sint_settles (h : SignedNodes g digit run minus sign parts sint) (hg : g.WellFormed)
    (hpos : pos ≤ input.size) : Settles g input (n + 4) sint pos :=
  action_settles h.sint_eq (parts_settles h hg hpos)

end Decimals

/-! ## Walks -/

/-- The walk `x` answers what `y` answers, and it gives up as well where `y` does for
another reason than the limit. -/
def FallsWith (I : Memory → Prop) (limit : Nat) {α : Type} (Q : α → Prop) (x y : Walk α) : Prop :=
  Confirms I Q x y ∧ ∀ s, I s.memo → ∀ e s', y s = .error e s' →
    e.kind ≠ .recursionLimit limit → ∃ e', Aborts Unread x e'

theorem fallsWith_congruence (I : Memory → Prop) (limit size : Nat) :
    Congruence size (FallsWith I limit) where
  pure hQ := by
    refine ⟨(confirms_congruence I size).pure hQ, ?_⟩
    intro s _ e s' hrun
    cases hrun
  offer hkind hpos := by
    refine ⟨(confirms_congruence I size).offer hkind hpos, ?_⟩
    intro s _ e s' hrun
    cases hrun
  invalidLength hpos :=
    ⟨(confirms_congruence I size).invalidLength hpos, fun _ _ _ _ _ _ => ⟨_, Aborts.throw _⟩⟩
  bind := by
    intro α β P Q x y f k hxy hfk
    refine ⟨(confirms_congruence I size).bind hxy.1 fun a ha => (hfk a ha).1, ?_⟩
    intro s hs e s' hrun hkind
    cases hfirst : y s with
    | error e₁ s₁ =>
        rw [bind_of_error hfirst] at hrun
        cases hrun
        obtain ⟨e', hx⟩ := hxy.2 s hs e s' hfirst hkind
        exact ⟨e', hx.bind⟩
    | ok a s₁ =>
        rw [bind_of_ok hfirst] at hrun
        obtain ⟨⟨found, hx⟩, ha, hs₁⟩ := hxy.1 s hs a s₁ hfirst
        obtain ⟨e', hf⟩ := (hfk a ha).2 s₁ hs₁ e s' hrun hkind
        exact ⟨e', hx.bind_aborts hf⟩

theorem oracle_aborts (h : ∀ step, ¬ Yields g input id pos step) :
    ∃ e, Aborts Unread (oracle g input id pos) e := by
  rw [oracle, dif_neg (not_exists.mpr h)]
  exact ⟨_, Aborts.throw _⟩

theorem invoke_fallsWith (hg : g.WellFormed) {config : Config} :
    ∀ {allowance : Nat} (depth : Nat) {id : NodeId} {pos : Nat},
      g.contains id = true → pos ≤ input.size →
      FallsWith (Yielded g input) config.maxDepth (Step.Within pos input.size)
        (oracle g input id pos) (invoke ⟨g, input, config⟩ allowance depth id pos) := by
  intro allowance
  induction allowance with
  | zero =>
      intro depth id pos hid hpos
      refine ⟨invoke_confirms hg depth hid hpos, fun s _ e s' hrun hkind => ?_⟩
      cases hrun
      exact absurd rfl hkind
  | succ allowance ih =>
      intro depth id pos hid hpos
      refine ⟨invoke_confirms hg depth hid hpos, fun s hs e s' hrun hkind => ?_⟩
      obtain ⟨node, hnode⟩ := Grammar.exists_node_of_contains hid
      have hmem := Grammar.mem_of_node?_eq_some hnode
      have hbound : node ≠ .indirect none := fun heq => hg.bound (heq ▸ hmem)
      have htry : Congruence.Tries (FallsWith (Yielded g input) config.maxDepth) input.size
          (oracle g input) (invoke ⟨g, input, config⟩ allowance (depth + 1)) node.children pos :=
        fun child hchild p _ hp => ih _ (hg.children_mem node hmem child hchild) hp
      have hfalls : FallsWith (Yielded g input) config.maxDepth (Step.Within pos input.size)
          (answer ⟨g, input, config⟩ (oracle g input) id pos)
          (answer ⟨g, input, config⟩ (invoke ⟨g, input, config⟩ allowance (depth + 1)) id pos) :=
        (fallsWith_congruence _ _ input.size).answer hnode hbound hpos htry
      -- over the oracle the program of the node gives up only where its rules allow nothing
      have hwork : ∀ {s s' : Progress},
          answer ⟨g, input, config⟩ (invoke ⟨g, input, config⟩ allowance (depth + 1)) id pos s
            = .error e s' → Yielded g input s.memo →
          ∃ e', Aborts Unread (oracle g input id pos) e' := by
        intro s s' hrun hs
        obtain ⟨e', habort⟩ := hfalls.2 s hs e s' hrun hkind
        refine oracle_aborts fun step hstep => ?_
        obtain ⟨found, hanswer⟩ := (answer_oracle_decides hg hnode hpos).answers_iff.mpr
          ((yields_iff_rule hnode).mp hstep)
        exact hanswer.not_aborts habort
      rw [invoke_eq_visit] at hrun
      cases visited hrun with
      | plainAborts _ hrun' => exact hwork hrun' hs
      | foundAborts _ _ hrun' => exact hwork hrun' hs

/-- Where a walk gives up, and not at the limit, the node yields nothing. -/
theorem nothing_yielded (hg : g.WellFormed) {config : Config} {allowance depth : Nat}
    {s s' : Progress} {e : Error} (hid : g.contains id = true) (hpos : pos ≤ input.size)
    (hs : Yielded g input s.memo)
    (hrun : invoke ⟨g, input, config⟩ allowance depth id pos s = .error e s')
    (hkind : e.kind ≠ .recursionLimit config.maxDepth) (step : Step) :
    ¬ Yields g input id pos step := by
  intro hstep
  obtain ⟨e', habort⟩ := (invoke_fallsWith hg depth hid hpos).2 s hs e s' hrun hkind
  exact (oracle_answers hg hid hpos hstep).not_aborts habort

/-- Where all nodes yield something, a walk gives up at the limit if at all. -/
theorem invoke_aborts_at_limit (hg : g.WellFormed)
    (htotal : ∀ id pos, g.contains id = true → pos ≤ input.size →
      ∃ step, Yields g input id pos step) {config : Config} {allowance : Nat} (depth : Nat)
    {s s' : Progress} {e : Error} (hid : g.contains id = true) (hpos : pos ≤ input.size)
    (hs : Yielded g input s.memo)
    (hrun : invoke ⟨g, input, config⟩ allowance depth id pos s = .error e s') :
    e.kind = .recursionLimit config.maxDepth := by
  obtain ⟨step, hstep⟩ := htotal id pos hid hpos
  exact Decidable.byContradiction fun hkind =>
    nothing_yielded hg hid hpos hs hrun hkind step hstep

end Packrat.Semantics
