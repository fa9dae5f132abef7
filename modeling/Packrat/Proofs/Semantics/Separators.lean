import Packrat.Proofs.Semantics.Inversion
import Packrat.Proofs.Semantics.Occasions

/-!
# Separated elements

Elements with separators in between can be taken in two ways. One loop stands behind the
last element, tries the separator and the element behind it, and goes back where it stood if
one of the two is not there. The other one takes an element first and then repeats a node
that is separator and element in one, as often as it matches.

They differ in what they compare to tell whether there is progress: the first one the ends of
two elements, across the separator between them, the second one the two ends of what it
repeats. But the separator starts where the element before it ends, so that is the same. A
separator or an element that consumes nothing makes no difference.
-/

namespace Packrat.Semantics

open Walk

variable {input : Array UInt8} {R : Judgement} {node separator pair rest : NodeId}
  {pos stop : Nat} {token : Token} {tokens : List Token}

/-! ## Two members -/

theorem members_pair_iff {id other : NodeId} :
    Members R [id, other] pos tokens stop ↔
      ∃ token next token', R id pos (.matched token next) ∧ R other next (.matched token' stop) ∧
        tokens = [token, token'] := by
  simp only [members_cons_iff, members_nil_iff]
  constructor
  · rintro ⟨token, next, _, hfirst, ⟨token', _, _, hsecond, ⟨rfl, rfl⟩, rfl⟩, rfl⟩
    exact ⟨token, next, token', hfirst, hsecond, rfl⟩
  · rintro ⟨token, next, token', hfirst, hsecond, rfl⟩
    exact ⟨token, next, [token'], hfirst, ⟨token', stop, [], hsecond, ⟨rfl, rfl⟩, rfl⟩, rfl⟩

theorem memberFails_pair_iff {id other : NodeId} {failure : Failure} :
    MemberFails R [id, other] pos failure ↔ R id pos (.failed failure) ∨
      ∃ token next, R id pos (.matched token next) ∧ R other next (.failed failure) := by
  constructor
  · intro h
    cases h with
    | here hfirst => exact .inl hfirst
    | later hfirst h =>
        cases h with
        | here hsecond => exact .inr ⟨_, _, hfirst, hsecond⟩
        | later _ h => cases h
  · rintro (hfirst | ⟨token, next, hfirst, hsecond⟩)
    · exact .here hfirst
    · exact .later hfirst (.here hsecond)

/-! ## A separator and an element in one -/

section Pair

variable (hpair : ∀ p step, R pair p step ↔ Rule input R (.pick [separator, node] 1) p step)
include hpair

theorem pair_matched_iff :
    R pair pos (.matched token stop) ↔
      ∃ skipped next, R separator pos (.matched skipped next) ∧
        R node next (.matched token stop) := by
  rw [hpair, Rule.pick_matched_iff]
  simp only [members_pair_iff]
  constructor
  · rintro ⟨_, ⟨skipped, next, element, hsep, hstep, rfl⟩, hkeep⟩
    cases hkeep
    exact ⟨skipped, next, hsep, hstep⟩
  · rintro ⟨skipped, next, hsep, hstep⟩
    exact ⟨_, ⟨skipped, next, token, hsep, hstep, rfl⟩, rfl⟩

/-- There is no separator, or no element behind it. -/
theorem pair_fails_iff :
    (∃ failure, R pair pos (.failed failure)) ↔
      (∃ failure, R separator pos (.failed failure)) ∨
        ∃ skipped next failure, R separator pos (.matched skipped next) ∧
          R node next (.failed failure) := by
  simp only [hpair, Rule.pick_fails_iff, memberFails_pair_iff]
  constructor
  · rintro ⟨failure, hsep | ⟨skipped, next, hsep, hstep⟩⟩
    · exact .inl ⟨failure, hsep⟩
    · exact .inr ⟨skipped, next, failure, hsep, hstep⟩
  · rintro (⟨failure, hsep⟩ | ⟨skipped, next, failure, hsep, hstep⟩)
    · exact ⟨failure, .inl hsep⟩
    · exact ⟨failure, .inr ⟨skipped, next, hsep, hstep⟩⟩

theorem Pairs.rounds (h : Pairs R node separator pos tokens stop) :
    ∀ count, Rounds R pair 0 none count pos tokens stop := by
  have hroom : ∀ count m : Nat, none = some m → count < m := fun _ _ => nofun
  induction h with
  | noSeparator hsep =>
      obtain ⟨failure, hfails⟩ := (pair_fails_iff hpair).mpr (.inl ⟨_, hsep⟩)
      exact fun count => .fails (hroom count) hfails
  | noElement hsep hstep =>
      obtain ⟨failure, hfails⟩ := (pair_fails_iff hpair).mpr (.inr ⟨_, _, _, hsep, hstep⟩)
      exact fun count => .fails (hroom count) hfails
  | stalls hsep hstep =>
      have hmatched := (pair_matched_iff hpair).mpr ⟨_, _, hsep, hstep⟩
      exact fun count => .stalls (hroom count) hmatched (Nat.zero_le _)
  | pair hsep hstep hgo _ ih =>
      have hmatched := (pair_matched_iff hpair).mpr ⟨_, _, hsep, hstep⟩
      exact fun count => .round (hroom count) hmatched (.inl hgo) (ih (count + 1))

theorem Rounds.pairs {count : Nat} (h : Rounds R pair 0 none count pos tokens stop) :
    Pairs R node separator pos tokens stop := by
  induction h with
  | full hmax => cases hmax
  | fails _ hfails =>
      rcases (pair_fails_iff hpair).mp ⟨_, hfails⟩ with
        ⟨failure, hsep⟩ | ⟨skipped, next, failure, hsep, hstep⟩
      · exact .noSeparator hsep
      · exact .noElement hsep hstep
  | stalls _ hmatched _ =>
      obtain ⟨skipped, next, hsep, hstep⟩ := (pair_matched_iff hpair).mp hmatched
      exact .stalls hsep hstep
  | round _ hmatched hgo _ ih =>
      obtain ⟨skipped, next, hsep, hstep⟩ := (pair_matched_iff hpair).mp hmatched
      -- no round is owed, so it is the progress that lets the repetition go on
      exact .pair hsep hstep (hgo.resolve_right (Nat.not_lt_zero _)) ih

theorem pairs_iff_rounds :
    Pairs R node separator pos tokens stop ↔ Rounds R pair 0 none 0 pos tokens stop :=
  ⟨fun h => h.rounds hpair 0, fun h => h.pairs hpair⟩

end Pair

/-! ## Elements and what separates them -/

/-- An element, and pairs behind it. -/
def Separated (R : Judgement) (node separator : NodeId) (pos : Nat) (token : Token)
    (tokens : List Token) (stop : Nat) : Prop :=
  ∃ next, R node pos (.matched token next) ∧ Pairs R node separator next tokens stop

theorem sepBy_cons_iff {min : Nat} :
    Rule input R (.sepBy node separator min) pos (.matched (.seq (token :: tokens)) stop) ↔
      Separated R node separator pos token tokens stop := by
  constructor
  · intro h
    cases h with
    | leaf hleaf => cases hleaf
    | sepBy hstep hpairs => exact ⟨_, hstep, hpairs⟩
  · rintro ⟨next, hstep, hpairs⟩
    exact .sepBy hstep hpairs

/-- Where there is an element, at least one is matched, whether that is asked for or not. -/
theorem sepBy_matched_iff {min : Nat} (helement : 0 < min ∨ ∀ f, ¬ R node pos (.failed f)) :
    Rule input R (.sepBy node separator min) pos (.matched token stop) ↔
      ∃ first more, token = .seq (first :: more) ∧
        Separated R node separator pos first more stop := by
  constructor
  · intro h
    cases h with
    | leaf hleaf => cases hleaf
    | sepBy hstep hpairs => exact ⟨_, _, rfl, _, hstep, hpairs⟩
    | sepBy_none hstep =>
        have hnone := helement.resolve_left (Nat.lt_irrefl 0)
        exact absurd hstep (hnone _)
  · rintro ⟨first, more, rfl, hseparated⟩
    exact sepBy_cons_iff.mpr hseparated

theorem sepBy_fails_iff {min : Nat} :
    (∃ failure, Rule input R (.sepBy node separator min) pos (.failed failure)) ↔
      0 < min ∧ ∃ failure, R node pos (.failed failure) := by
  constructor
  · rintro ⟨failure, h⟩
    cases h with
    | leaf hleaf => cases hleaf
    | sepBy_fails hstep hmin => exact ⟨hmin, _, hstep⟩
  · rintro ⟨hmin, failure, hstep⟩
    exact ⟨_, .sepBy_fails hstep hmin⟩

/-- Where there is no element, none is matched if none is asked for. -/
theorem sepBy_nil_iff {failure : Failure} (hfails : R node pos (.failed failure))
    (hnone : ∀ first next, ¬ R node pos (.matched first next)) :
    Rule input R (.sepBy node separator 0) pos (.matched token stop) ↔
      token = .seq [] ∧ stop = pos := by
  constructor
  · intro h
    cases h with
    | leaf hleaf => cases hleaf
    | sepBy hstep _ => exact absurd hstep (hnone _ _)
    | sepBy_none _ => exact ⟨rfl, rfl⟩
  · rintro ⟨rfl, rfl⟩
    exact .sepBy_none hfails

section Unrolled

variable (hpair : ∀ p step, R pair p step ↔ Rule input R (.pick [separator, node] 1) p step)
  (hrest : ∀ p step, R rest p step ↔ Rule input R (.repeated pair 0 none) p step)
include hrest

include hpair in
theorem rest_matched_iff :
    R rest pos (.matched (.seq tokens) stop) ↔ Pairs R node separator pos tokens stop := by
  rw [hrest, Rule.repeated_matched_iff, pairs_iff_rounds hpair]
  simp

theorem rest_never_fails {failure : Failure} : ¬ R rest pos (.failed failure) := by
  intro h
  obtain ⟨tokens, stop, -, hfew⟩ := Rule.repeated_fails_iff.mp ⟨failure, (hrest _ _).mp h⟩
  exact Nat.not_lt_zero _ hfew

include hpair in
theorem unrolled_matched_iff :
    Rule input R (.sequence [node, rest]) pos (.matched (.seq [token, .seq tokens]) stop) ↔
      Separated R node separator pos token tokens stop := by
  rw [Rule.sequence_matched_iff]
  simp only [members_pair_iff]
  constructor
  · rintro ⟨_, ⟨first, next, more, hstep, hmore, rfl⟩, heq⟩
    cases heq
    exact ⟨next, hstep, (rest_matched_iff hpair hrest).mp hmore⟩
  · rintro ⟨next, hstep, hpairs⟩
    have hmore := (rest_matched_iff hpair hrest).mpr hpairs
    exact ⟨_, ⟨token, next, .seq tokens, hstep, hmore, rfl⟩, rfl⟩

theorem unrolled_fails_iff {failure : Failure} :
    Rule input R (.sequence [node, rest]) pos (.failed failure) ↔ R node pos (.failed failure) := by
  rw [Rule.sequence_fails_iff, memberFails_pair_iff]
  constructor
  · rintro (hstep | ⟨_, _, _, hmore⟩)
    · exact hstep
    · exact absurd hmore (rest_never_fails hrest)
  · exact .inl

end Unrolled

/-! ## Separated repetition -/

/-- At least one element with separators in between is an element and as many pairs of
separator and element as there are, whatever of them consumes nothing. If no element is asked
for, that is also what is matched where there is one, and the empty list is where there is
none. -/
theorem separated_eq_unrolled {g : Grammar} {b : Builder} {root : NodeId}
    (hbuild : b.build root = .ok g) (hpos : pos ≤ input.size) (separated unrolled : NodeId)
    (hseparated : g.node? separated = some (.sepBy node separator 1))
    (hpair : g.node? pair = some (.pick [separator, node] 1))
    (hrest : g.node? rest = some (.repeated pair 0 none))
    (hunrolled : g.node? unrolled = some (.sequence [node, rest]))
    (o o' : Occasion g input) (h : ¬ o.Overruns separated pos) (h' : ¬ o'.Overruns unrolled pos) :
    (∀ token tokens stop, o.Matches separated pos (.seq (token :: tokens)) stop ↔
      o'.Matches unrolled pos (.seq [token, .seq tokens]) stop) ∧
    (o.Fails separated pos ↔ o'.Fails unrolled pos) ∧
    ∀ loose : NodeId, g.node? loose = some (.sepBy node separator 0) →
      ∀ o₁ o₂ : Occasion g input, ¬ o₁.Overruns loose pos →
        (∀ first next, o₂.Matches node pos first next → ¬ o₁.Fails loose pos ∧
          ∀ token stop, o₁.Matches loose pos token stop ↔ o.Matches separated pos token stop) ∧
        (o₂.Fails node pos →
          ∀ token stop, o₁.Matches loose pos token stop ↔ token = .seq [] ∧ stop = pos) := by
  have hg := Builder.wellFormed_of_build hbuild
  have hnode : g.contains node = true :=
    (Grammar.child_of_node? hseparated List.mem_cons_self).contains hg
  have hseparated' := Grammar.contains_of_node?_eq_some hseparated
  have hunrolled' := Grammar.contains_of_node?_eq_some hunrolled
  have hpair' : ∀ p step, Yields g input pair p step ↔
      Rule input (Yields g input) (.pick [separator, node] 1) p step :=
    fun _ _ => yields_iff_rule hpair
  have hrest' : ∀ p step, Yields g input rest p step ↔
      Rule input (Yields g input) (.repeated pair 0 none) p step :=
    fun _ _ => yields_iff_rule hrest
  simp only [Occasion.matches_iff hg hseparated' hpos h, Occasion.fails_iff hg hseparated' hpos h,
    Occasion.matches_iff hg hunrolled' hpos h', Occasion.fails_iff hg hunrolled' hpos h',
    yields_iff_rule hseparated, yields_iff_rule hunrolled]
  refine ⟨fun token tokens stop => ?_, ?_, fun loose hloose o₁ o₂ h₁ => ?_⟩
  · exact sepBy_cons_iff.trans (unrolled_matched_iff hpair' hrest').symm
  · simp [sepBy_fails_iff, unrolled_fails_iff hrest']
  · have hloose' := Grammar.contains_of_node?_eq_some hloose
    simp only [Occasion.matches_iff hg hloose' hpos h₁, Occasion.fails_iff hg hloose' hpos h₁,
      yields_iff_rule hloose]
    refine ⟨fun first next hfirst => ⟨?_, fun token stop => ?_⟩, fun hfails token stop => ?_⟩
    · rw [sepBy_fails_iff]
      exact fun hfails => Nat.lt_irrefl 0 hfails.1
    · have hstep := hfirst.yields hg hnode hpos
      have hnone : ∀ f, ¬ Yields g input node pos (.failed f) :=
        fun f hfails => nomatch hfails.unique hg hnode hpos hstep
      rw [sepBy_matched_iff (.inr hnone), sepBy_matched_iff (.inl Nat.one_pos)]
    · obtain ⟨failure, hstep⟩ := hfails.yields hg hnode hpos
      exact sepBy_nil_iff hstep fun _ _ hfirst => nomatch hfirst.unique hg hnode hpos hstep

/-- A list of numbers, any of which may be left out, and so may commas. But there is no number
where there is an exclamation mark. -/
def listed : NodeId × Builder :=
  Id.run <| StateT.run (do
    let digit ← Builder.range 0x30 0x39
    let digits ← Builder.many digit
    let bang ← Builder.literal 0x21
    let free ← Builder.notFollowedBy bang
    let element ← Builder.right free digits
    let comma ← Builder.literal 0x2c
    let separator ← Builder.optional comma
    let separated ← Builder.sepBy1 element separator
    let pair ← Builder.right separator element
    let rest ← Builder.many pair
    let unrolled ← Builder.sequence [element, rest]
    let loose ← Builder.sepBy element separator
    Builder.choice [separated, unrolled, loose]) (Builder.new 0)

def listedGrammar : Grammar := ⟨listed.2.arena, listed.2.nodes, listed.2.names, listed.1⟩

/-- In `!1,,2` the second number is empty, and so is the fourth, behind no comma. -/
theorem separated_eq_unrolled_nullable :
    listed.2.build listed.1 = .ok listedGrammar ∧
    (Occasion.ofParse listedGrammar #[0x21, 0x31, 0x2c, 0x2c, 0x32] .standard).Matches ⟨0, 7⟩ 1
      (.seq [.seq [.byte 0x31], .seq [], .seq [.byte 0x32], .seq []]) 5 ∧
    (Occasion.ofParse listedGrammar #[0x21, 0x31, 0x2c, 0x2c, 0x32] ⟨true, 4, false⟩).Matches
      ⟨0, 11⟩ 1 (.seq [.seq [.byte 0x31], .seq [], .seq [.byte 0x32], .seq []]) 5 ∧
    (Occasion.ofParse listedGrammar #[0x21, 0x31, 0x2c, 0x2c, 0x32] .standard).Fails ⟨0, 7⟩ 0 ∧
    (Occasion.ofParse listedGrammar #[0x21, 0x31, 0x2c, 0x2c, 0x32] ⟨true, 4, false⟩).Matches
      ⟨0, 11⟩ 0 (.seq []) 0 := by
  have hbuild : listed.2.build listed.1 = .ok listedGrammar := rfl
  have hlist := separated_eq_unrolled hbuild (by decide : 1 ≤ 5) ⟨0, 7⟩ ⟨0, 10⟩ rfl rfl rfl rfl
    (.ofParse listedGrammar #[0x21, 0x31, 0x2c, 0x2c, 0x32] .standard)
    (.ofParse listedGrammar #[0x21, 0x31, 0x2c, 0x2c, 0x32] ⟨true, 6, false⟩)
    (by decide +kernel) (by decide +kernel)
  have hbang := separated_eq_unrolled hbuild (Nat.zero_le 5) ⟨0, 7⟩ ⟨0, 10⟩ rfl rfl rfl rfl
    (.ofParse listedGrammar #[0x21, 0x31, 0x2c, 0x2c, 0x32] .standard)
    (.ofParse listedGrammar #[0x21, 0x31, 0x2c, 0x2c, 0x32] ⟨true, 6, false⟩)
    (by decide +kernel) (by decide +kernel)
  have hmatched := (hlist.1 (.seq [.byte 0x31]) [.seq [], .seq [.byte 0x32], .seq []] 5).mpr
    (by decide +kernel)
  refine ⟨hbuild, hmatched, ?_, hbang.2.1.mpr (by decide +kernel), ?_⟩
  · have hloose := hlist.2.2 ⟨0, 11⟩ rfl (.ofParse _ _ ⟨true, 4, false⟩) (.ofParse _ _ .standard)
      (by decide +kernel)
    have hnumber : (Occasion.ofParse listedGrammar #[0x21, 0x31, 0x2c, 0x2c, 0x32]
        .standard).Matches ⟨0, 4⟩ 1 (.seq [.byte 0x31]) 2 := by decide +kernel
    exact ((hloose.1 _ _ hnumber).2 _ _).mpr hmatched
  · have hloose := hbang.2.2 ⟨0, 11⟩ rfl (.ofParse _ _ ⟨true, 4, false⟩) (.ofParse _ _ .standard)
      (by decide +kernel)
    exact (hloose.2 (by decide +kernel) _ _).mpr ⟨rfl, rfl⟩

end Packrat.Semantics
