import Packrat.Proofs.Semantics.Inversion
import Packrat.Proofs.Semantics.Occasions

/-!
# As many as a length says

There are three loops that take a number of elements. A repetition with both bounds alike
looks at its bounds and at what each round consumed. A length followed by nodes looks at
neither, and takes one element after another. A length followed by raw bytes does not loop
at all: it checks once that there is enough.

The second one is the plain one. What it takes are members in a row, all of them the same
node, and the other two come down to that. A repetition cannot stop early: the rule that
ends it at an element that consumes nothing waits until there are enough, and then the
upper bound is reached as well. And members that match any byte are a slice of the input.
-/

namespace Packrat.Semantics

open Walk

variable {input : Array UInt8} {R : Judgement} {id length node : NodeId} {pos start stop : Nat}
  {tokens : List Token} {token : Token}

/-! ## Rounds with both bounds alike -/

theorem Rounds.members {bound count : Nat}
    (h : Rounds R id bound (some bound) count pos tokens stop) :
    ∀ {more : Nat}, bound = count + more → more ≤ tokens.length →
      Members R (List.replicate more id) pos tokens stop := by
  induction h with
  | full | fails =>
      intro more _ hmore
      obtain rfl : more = 0 := by simpa using hmore
      exact .nil
  | stalls hroom hstep _ =>
      intro more hbound hmore
      have hlt := hroom bound rfl
      obtain rfl : more = 1 := by
        rw [List.length_singleton] at hmore
        omega
      exact .cons hstep .nil
  | round hroom hstep _ _ ih =>
      intro more hbound hmore
      have hlt := hroom bound rfl
      obtain ⟨m, rfl⟩ : ∃ m, more = m + 1 := ⟨more - 1, by omega⟩
      rw [List.length_cons] at hmore
      exact .cons hstep (ih (by omega) (by omega))

theorem Rounds.memberFails {bound count : Nat}
    (h : Rounds R id bound (some bound) count pos tokens stop) :
    ∀ {more : Nat}, bound = count + more → tokens.length < more →
      ∃ failure, MemberFails R (List.replicate more id) pos failure := by
  induction h with
  | full hmax hm =>
      intro more hbound hmore
      cases hmax
      omega
  | fails _ hstep =>
      intro more _ hmore
      obtain ⟨m, rfl⟩ : ∃ m, more = m + 1 := ⟨more - 1, by omega⟩
      exact ⟨_, .here hstep⟩
  | stalls _ _ hmin =>
      intro more hbound hmore
      rw [List.length_singleton] at hmore
      omega
  | round hroom hstep _ _ ih =>
      intro more hbound hmore
      obtain ⟨m, rfl⟩ : ∃ m, more = m + 1 := ⟨more - 1, by omega⟩
      rw [List.length_cons] at hmore
      obtain ⟨failure, hfails⟩ := @ih m (by omega) (by omega)
      exact ⟨failure, .later hstep hfails⟩

theorem Members.rounds : ∀ {more : Nat} (count : Nat) {pos : Nat} {tokens : List Token},
    Members R (List.replicate more id) pos tokens stop →
      Rounds R id (count + more) (some (count + more)) count pos tokens stop ∧
        tokens.length = more := by
  intro more
  induction more with
  | zero =>
      intro count pos tokens h
      cases h
      exact ⟨.full rfl (Nat.le_refl _), rfl⟩
  | succ more ih =>
      intro count pos tokens h
      have hroom : ∀ m, some (count + (more + 1)) = some m → count < m := by
        intro m hm
        cases hm
        omega
      cases h with
      | @cons _ _ _ token next rest _ hstep hrest =>
          obtain ⟨hrounds, hlength⟩ := ih (count + 1) hrest
          rw [Nat.add_assoc, Nat.add_comm 1] at hrounds
          refine ⟨?_, congrArg (· + 1) hlength⟩
          by_cases hlast : next = pos ∧ more = 0
          · obtain ⟨rfl, rfl⟩ := hlast
            cases hrest
            exact .stalls hroom hstep (Nat.le_refl _)
          · exact .round hroom hstep (by omega) hrounds

theorem MemberFails.rounds {failure : Failure} : ∀ {more : Nat} (count : Nat) {pos : Nat},
    MemberFails R (List.replicate more id) pos failure →
      ∃ tokens stop, Rounds R id (count + more) (some (count + more)) count pos tokens stop ∧
        tokens.length < more := by
  intro more
  induction more with
  | zero => intro count pos h; cases h
  | succ more ih =>
      intro count pos h
      have hroom : ∀ m, some (count + (more + 1)) = some m → count < m := by
        intro m hm
        cases hm
        omega
      cases h with
      | here hstep => exact ⟨[], pos, .fails hroom hstep, Nat.succ_pos _⟩
      | @later _ _ _ token next _ hstep hrest =>
          have hsome : more ≠ 0 := by
            rintro rfl
            cases hrest
          obtain ⟨tokens, stop, hrounds, hlength⟩ := ih (count + 1) hrest
          rw [Nat.add_assoc, Nat.add_comm 1] at hrounds
          exact ⟨token :: tokens, stop, .round hroom hstep (by omega) hrounds,
            Nat.succ_lt_succ hlength⟩

theorem times_matched_iff {count : Nat} :
    Rule input R (.repeated id count (some count)) pos (.matched token stop) ↔
      ∃ tokens, token = .seq tokens ∧ Members R (List.replicate count id) pos tokens stop := by
  rw [Rule.repeated_matched_iff]
  constructor
  · rintro ⟨tokens, hrounds, hmin, rfl⟩
    exact ⟨tokens, rfl, hrounds.members (Nat.zero_add _).symm hmin⟩
  · rintro ⟨tokens, rfl, hmembers⟩
    obtain ⟨hrounds, hlength⟩ := hmembers.rounds 0
    rw [Nat.zero_add] at hrounds
    exact ⟨tokens, hrounds, Nat.le_of_eq hlength.symm, rfl⟩

theorem times_fails_iff {count : Nat} :
    (∃ failure, Rule input R (.repeated id count (some count)) pos (.failed failure)) ↔
      ∃ failure, MemberFails R (List.replicate count id) pos failure := by
  rw [Rule.repeated_fails_iff]
  constructor
  · rintro ⟨tokens, stop, hrounds, hmin⟩
    exact hrounds.memberFails (Nat.zero_add _).symm hmin
  · rintro ⟨failure, hfails⟩
    obtain ⟨tokens, stop, hrounds, hlength⟩ := hfails.rounds 0
    rw [Nat.zero_add] at hrounds
    exact ⟨tokens, stop, hrounds, hlength⟩

/-! ## Behind a length -/

/-- At `pos` the length matches up to `start` and declares so many elements. -/
structure Declares (R : Judgement) (length : NodeId) (pos : Nat) (counter : Token) (start : Nat)
    (count : UInt64) : Prop where
  matched : R length pos (.matched counter start)
  only : ∀ step, R length pos step → step = .matched counter start
  count : counter.count? = some count

theorem Occasion.Matches.declares {g : Grammar} {element : Element} {id : NodeId} {counter : Token}
    {count : UInt64} {o : Occasion g input} (h : o.Matches length pos counter start)
    (hg : g.WellFormed) (hnode : g.node? id = some (.lengthValue length element))
    (hpos : pos ≤ input.size) (hcount : counter.count? = some count) :
    Declares (Yields g input) length pos counter start count ∧ start ≤ input.size := by
  have hchild : length ∈ (Node.lengthValue length element).children := by
    cases element <;> exact List.mem_cons_self
  have hid := (Grammar.child_of_node? hnode hchild).contains hg
  have hstep := h.yields hg hid hpos
  exact ⟨⟨hstep, fun _ hother => hother.unique hg hid hpos hstep, hcount⟩,
    (hstep.within hg hid hpos).2⟩

section Lengths

variable {counter : Token} {count : UInt64}

theorem lengthNodes_matched_iff (h : Declares R length pos counter start count) :
    Rule input R (.lengthValue length (.node node)) pos (.matched token stop) ↔
      ∃ tokens, token = .seq tokens ∧
        Members R (List.replicate count.toNat node) start tokens stop := by
  constructor
  · intro hrule
    cases hrule with
    | leaf hleaf => cases hleaf
    | length_nodes hstep hcount hmembers =>
        cases h.only _ hstep
        cases hcount.symm.trans h.count
        exact ⟨_, rfl, hmembers⟩
  · rintro ⟨tokens, rfl, hmembers⟩
    exact .length_nodes h.matched h.count hmembers

theorem lengthNodes_fails_iff (h : Declares R length pos counter start count) :
    (∃ failure, Rule input R (.lengthValue length (.node node)) pos (.failed failure)) ↔
      ∃ failure, MemberFails R (List.replicate count.toNat node) start failure := by
  constructor
  · rintro ⟨failure, hrule⟩
    cases hrule with
    | leaf hleaf => cases hleaf
    | length_fails hstep => cases h.only _ hstep
    | length_node_fails hstep hcount hfails =>
        cases h.only _ hstep
        cases hcount.symm.trans h.count
        exact ⟨_, hfails⟩
  · rintro ⟨failure, hfails⟩
    exact ⟨failure, .length_node_fails h.matched h.count hfails⟩

theorem lengthBytes_matched_iff_slice (h : Declares R length pos counter start count) :
    Rule input R (.lengthValue length .byte) pos (.matched token stop) ↔
      token = .bytes (slice input start count.toNat) ∧
        start + count.toNat ≤ input.size ∧ stop = start + count.toNat := by
  rw [Rule.lengthBytes_matched_iff]
  constructor
  · rintro ⟨counter', start', count', hstep, hcount, rfl, hfits, rfl⟩
    cases h.only _ hstep
    cases hcount.symm.trans h.count
    exact ⟨rfl, hfits, rfl⟩
  · rintro ⟨rfl, hfits, rfl⟩
    exact ⟨counter, start, count, h.matched, h.count, rfl, hfits, rfl⟩

theorem lengthBytes_fails_iff (h : Declares R length pos counter start count) :
    (∃ failure, Rule input R (.lengthValue length .byte) pos (.failed failure)) ↔
      input.size < start + count.toNat := by
  constructor
  · rintro ⟨failure, hrule⟩
    cases hrule with
    | leaf hleaf => cases hleaf
    | length_fails hstep => cases h.only _ hstep
    | length_exceeds hstep hcount hover =>
        cases h.only _ hstep
        cases hcount.symm.trans h.count
        exact hover
  · exact fun hover => ⟨_, .length_exceeds h.matched h.count hover⟩

end Lengths

/-! ## Bytes one at a time -/

section Bytes

variable {any : NodeId} (hany : ∀ p step, R any p step ↔ Rule input R .anyByte p step)
include hany

theorem any_matched_iff :
    R any pos (.matched token stop) ↔ ∃ b, token = .byte b ∧ Reads input pos [b] stop := by
  rw [hany]
  constructor
  · intro h
    cases h with
    | leaf hleaf =>
        cases hleaf with
        | anyByte hb => exact ⟨_, rfl, Reads.byte_iff.mpr ⟨hb, rfl⟩⟩
  · rintro ⟨b, rfl, hreads⟩
    obtain ⟨hb, rfl⟩ := Reads.byte_iff.mp hreads
    exact .leaf (.anyByte hb)

theorem any_fails_iff : (∃ failure, R any pos (.failed failure)) ↔ input.size ≤ pos := by
  simp only [hany]
  constructor
  · rintro ⟨failure, h⟩
    cases h with
    | leaf hleaf =>
        cases hleaf with
        | anyByte_exhausted hsize => exact hsize
  · exact fun hsize => ⟨_, .leaf (.anyByte_exhausted hsize)⟩

theorem members_any_iff : ∀ {count start : Nat} {tokens : List Token},
    Members R (List.replicate count any) start tokens stop ↔
      ∃ payload, payload.length = count ∧ tokens = payload.map .byte ∧
        Reads input start payload stop := by
  intro count
  induction count with
  | zero =>
      intro start tokens
      simp only [List.replicate_zero, members_nil_iff, List.length_eq_zero_iff]
      constructor
      · rintro ⟨rfl, rfl⟩
        exact ⟨[], rfl, rfl, .nil⟩
      · rintro ⟨payload, rfl, rfl, hreads⟩
        exact ⟨rfl, hreads.eq_of_nil⟩
  | succ count ih =>
      intro start tokens
      simp only [List.replicate_succ, members_cons_iff, any_matched_iff hany, ih]
      constructor
      · rintro ⟨_, next, _, ⟨b, rfl, hb⟩, ⟨payload, rfl, rfl, hreads⟩, rfl⟩
        exact ⟨b :: payload, rfl, rfl, hb.append hreads⟩
      · rintro ⟨payload, hlength, rfl, hreads⟩
        obtain ⟨b, rest, rfl⟩ := List.exists_cons_of_length_eq_add_one hlength
        obtain ⟨hb, hrest⟩ := Reads.cons_iff.mp hreads
        have hbyte : Reads input start [b] (start + 1) := Reads.byte_iff.mpr ⟨hb, rfl⟩
        exact ⟨_, _, _, ⟨b, rfl, hbyte⟩, ⟨rest, Nat.succ.inj hlength, rfl, hrest⟩, rfl⟩

theorem memberFails_any_iff : ∀ {count start : Nat}, start ≤ input.size →
    ((∃ failure, MemberFails R (List.replicate count any) start failure) ↔
      input.size < start + count) := by
  intro count
  induction count with
  | zero =>
      intro start hstart
      refine ⟨fun ⟨_, hfails⟩ => ?_, fun hover => by omega⟩
      cases hfails
  | succ count ih =>
      intro start hstart
      constructor
      · rintro ⟨failure, hfails⟩
        cases hfails with
        | here hstep =>
            have hsize := (any_fails_iff hany).mp ⟨_, hstep⟩
            omega
        | later hstep hrest =>
            obtain ⟨b, -, hreads⟩ := (any_matched_iff hany).mp hstep
            have hnext := hreads.stop_eq
            rw [List.length_singleton] at hnext
            have hover := (ih (hreads.stop_le hstart)).mp ⟨_, hrest⟩
            omega
      · intro hover
        by_cases hsize : input.size ≤ start
        · obtain ⟨failure, hstep⟩ := (any_fails_iff hany).mpr hsize
          exact ⟨failure, .here hstep⟩
        · have hb : input[start]? = some input[start] :=
            Array.getElem?_eq_getElem (Nat.lt_of_not_le hsize)
          have hstep := (any_matched_iff hany).mpr ⟨_, rfl, Reads.byte_iff.mpr ⟨hb, rfl⟩⟩
          have hnext : start + 1 ≤ input.size := Nat.lt_of_not_le hsize
          obtain ⟨failure, hrest⟩ := (ih hnext).mpr (by omega)
          exact ⟨failure, .later hstep hrest⟩

end Bytes

/-! ## Lengths and their plain counterparts -/

/-- Where a length matches and declares a count, it does not matter how the elements are taken.
As many nodes as it says are the same as that node repeated so often from where the length
stopped. As many raw bytes are the bytes of as many tokens, and there are too few of them
exactly if the count is more than the rest of the input. -/
theorem lengths_agree {g : Grammar} {b : Builder} {root : NodeId} (hbuild : b.build root = .ok g)
    (hpos : pos ≤ input.size) {counter : Token} {count : UInt64} (o : Occasion g input)
    (hmatched : o.Matches length pos counter start) (hcount : counter.count? = some count) :
    (∀ node counted repeated : NodeId,
      g.node? counted = some (.lengthValue length (.node node)) →
      g.node? repeated = some (.repeated node count.toNat (some count.toNat)) →
      ∀ o₁ o₂ : Occasion g input, ¬ o₁.Overruns counted pos → ¬ o₂.Overruns repeated start →
        (∀ tokens stop, o₁.Matches counted pos (.seq tokens) stop ↔
          o₂.Matches repeated start (.seq tokens) stop) ∧
        (o₁.Fails counted pos ↔ o₂.Fails repeated start)) ∧
    ∀ any raw each : NodeId,
      g.node? any = some .anyByte →
      g.node? raw = some (.lengthValue length .byte) →
      g.node? each = some (.lengthValue length (.node any)) →
      ∀ o₁ o₂ : Occasion g input, ¬ o₁.Overruns raw pos → ¬ o₂.Overruns each pos →
        (∀ payload stop, o₁.Matches raw pos (.bytes payload) stop ↔
          o₂.Matches each pos (.seq (payload.map .byte)) stop) ∧
        (o₁.Fails raw pos ↔ o₂.Fails each pos) ∧
        (o₁.Fails raw pos ↔ input.size - start < count.toNat) := by
  have hg := Builder.wellFormed_of_build hbuild
  refine ⟨fun node counted repeated hcounted hrepeated o₁ o₂ h₁ h₂ => ?_,
    fun any raw each hany hraw heach o₁ o₂ h₁ h₂ => ?_⟩
  · obtain ⟨hdeclares, hstart⟩ := hmatched.declares hg hcounted hpos hcount
    have hcounted' := Grammar.contains_of_node?_eq_some hcounted
    have hrepeated' := Grammar.contains_of_node?_eq_some hrepeated
    simp only [Occasion.matches_iff hg hcounted' hpos h₁, Occasion.fails_iff hg hcounted' hpos h₁,
      Occasion.matches_iff hg hrepeated' hstart h₂, Occasion.fails_iff hg hrepeated' hstart h₂,
      yields_iff_rule hcounted, yields_iff_rule hrepeated]
    exact ⟨fun tokens stop => (lengthNodes_matched_iff hdeclares).trans times_matched_iff.symm,
      (lengthNodes_fails_iff hdeclares).trans times_fails_iff.symm⟩
  · obtain ⟨hdeclares, hstart⟩ := hmatched.declares hg hraw hpos hcount
    have hraw' := Grammar.contains_of_node?_eq_some hraw
    have heach' := Grammar.contains_of_node?_eq_some heach
    have hbytes : ∀ p step, Yields g input any p step ↔
        Rule input (Yields g input) .anyByte p step := fun _ _ => yields_iff_rule hany
    simp only [Occasion.matches_iff hg hraw' hpos h₁, Occasion.fails_iff hg hraw' hpos h₁,
      Occasion.matches_iff hg heach' hpos h₂, Occasion.fails_iff hg heach' hpos h₂,
      yields_iff_rule hraw, yields_iff_rule heach]
    have hfew : (∃ failure, Rule input (Yields g input) (.lengthValue length (.node any)) pos
        (.failed failure)) ↔ input.size < start + count.toNat :=
      (lengthNodes_fails_iff hdeclares).trans (memberFails_any_iff hbytes hstart)
    refine ⟨fun payload stop => ?_, (lengthBytes_fails_iff hdeclares).trans hfew.symm, ?_⟩
    · rw [lengthBytes_matched_iff_slice hdeclares, Token.bytes.injEq, and_left_comm,
        Reads.slice_iff hstart, lengthNodes_matched_iff hdeclares]
      simp only [Token.seq.injEq, exists_eq_left', members_any_iff hbytes]
      constructor
      · rintro ⟨hlength, hreads⟩
        exact ⟨payload, hlength, rfl, hreads⟩
      · rintro ⟨payload', hlength, htokens, hreads⟩
        obtain rfl : payload = payload' :=
          (List.map_inj_right fun _ _ heq => Token.byte.inj heq).mp htokens
        exact ⟨hlength, hreads⟩
    · rw [lengthBytes_fails_iff hdeclares]
      omega

/-- A count, and four ways to take as many: an element that may consume nothing, the same
element three times, raw bytes, and bytes one at a time. -/
def tallied : NodeId × Builder :=
  Id.run <| StateT.run (do
    let length ← Builder.unsigned 1
    let a ← Builder.literal 0x61
    let element ← Builder.optional a
    let counted ← Builder.lengthValue length (.node element)
    let repeated ← Builder.times element 3
    let any ← Builder.anyByte
    let raw ← Builder.lengthValue length .byte
    let each ← Builder.lengthValue length (.node any)
    Builder.choice [counted, repeated, raw, each]) (Builder.new 0)

def talliedGrammar : Grammar := ⟨tallied.2.arena, tallied.2.nodes, tallied.2.names, tallied.1⟩

/-- The third element is there and consumes nothing, but there is no third byte. -/
theorem lengths_agree_nullable :
    tallied.2.build tallied.1 = .ok talliedGrammar ∧
    (Occasion.ofParse talliedGrammar #[3, 0x61, 0x61] .standard).Matches ⟨0, 0⟩ 0 (.uint 3) 1 ∧
    (Occasion.ofParse talliedGrammar #[3, 0x61, 0x61] .standard).Matches ⟨0, 3⟩ 0
      (.seq [.byte 0x61, .byte 0x61, .none]) 3 ∧
    (Occasion.ofParse talliedGrammar #[3, 0x61, 0x61] ⟨true, 2, false⟩).Fails ⟨0, 7⟩ 0 := by
  have hbuild : tallied.2.build tallied.1 = .ok talliedGrammar := rfl
  have hlength : (Occasion.ofParse talliedGrammar #[3, 0x61, 0x61] .standard).Matches ⟨0, 0⟩ 0
      (.uint 3) 1 := by decide +kernel
  have hagree := lengths_agree hbuild (Nat.zero_le _) _ hlength rfl
  have hnodes := hagree.1 ⟨0, 2⟩ ⟨0, 3⟩ ⟨0, 4⟩ rfl rfl
    (.ofParse _ _ .standard) (.ofParse _ _ ⟨true, 3, false⟩)
    (by decide +kernel) (by decide +kernel)
  have hbytes := hagree.2 ⟨0, 5⟩ ⟨0, 6⟩ ⟨0, 7⟩ rfl rfl rfl
    (.ofParse _ _ .standard) (.ofParse _ _ ⟨true, 2, false⟩)
    (by decide +kernel) (by decide +kernel)
  refine ⟨hbuild, hlength, (hnodes.1 _ _).mpr (by decide +kernel), ?_⟩
  exact hbytes.2.1.mp (hbytes.2.2.mpr (by decide))

end Packrat.Semantics
