import Packrat.Proofs.Semantics.Decision
import Packrat.Walk.Compound

/-!
# The compound nodes follow their rules

Each compound node is a program over a way of trying others. If that way decides
what the others yield, the program decides what the rules make of it.

The loops are where something has to be shown. They run on a budget, and the rules
know none, so the budget must cover what a loop can still do: every round but the
last moves on in the input or is one of the `min` that are wanted.
-/

namespace Packrat.Semantics

open Walk

variable {call : NodeId → Nat → Walk Step} {R : Judgement} {size pos : Nat}

/-- Trying one of `ids` at `pos` or later decides what it yields, which is a step
inside the input. -/
structure Computes (call : NodeId → Nat → Walk Step) (R : Judgement) (size : Nat)
    (ids : List NodeId) (pos : Nat) : Prop where
  decides : ∀ id ∈ ids, ∀ p, pos ≤ p → p ≤ size → Decides (call id p) (R id p)
  within : ∀ id ∈ ids, ∀ p, pos ≤ p → p ≤ size → ∀ step, R id p step → step.Within p size

theorem Computes.mono {ids ids' : List NodeId} {pos' : Nat} (h : Computes call R size ids pos)
    (hsub : ids' ⊆ ids) (hle : pos ≤ pos') : Computes call R size ids' pos' where
  decides id hid p hp := h.decides id (hsub hid) p (Nat.le_trans hle hp)
  within id hid p hp := h.within id (hsub hid) p (Nat.le_trans hle hp)

/-! ## Members and alternatives -/

/-- How a run over members may end that starts with `tokens` at `cursor`. -/
def MembersEnd (R : Judgement) (ids : List NodeId) (tokens : Array Token) (cursor : Nat) :
    Except Failure (Array Token × Nat) → Prop
  | .ok (all, stop) => ∃ more, Members R ids cursor more stop ∧ all = tokens ++ more
  | .error failure => MemberFails R ids cursor failure

theorem push_append_eq (tokens : Array Token) (token : Token) (more : List Token) :
    tokens.push token ++ more = tokens ++ (token :: more) := by
  apply Array.toList_inj.mp
  simp

theorem empty_append_eq (more : List Token) : (#[] : Array Token) ++ more = more.toArray := by
  simp

theorem decides_members : ∀ {ids : List NodeId} {tokens : Array Token} {cursor : Nat},
    Computes call R size ids cursor → cursor ≤ size →
    Decides (members call ids tokens cursor) (MembersEnd R ids tokens cursor) := by
  intro ids
  induction ids with
  | nil =>
      intro tokens cursor _ _
      refine (Decides.pure _).congr fun run => ?_
      cases run with
      | ok found =>
          obtain ⟨all, stop⟩ := found
          constructor
          · rintro ⟨⟩
            exact ⟨[], .nil, by simp⟩
          · rintro ⟨more, hmore, rfl⟩
            cases hmore
            simp
      | error failure =>
          constructor
          · rintro ⟨⟩
          · rintro ⟨⟩
  | cons id ids ih =>
      intro tokens cursor h hcursor
      have hsub : ids ⊆ id :: ids := List.subset_cons_self ..
      have hmem : id ∈ id :: ids := List.mem_cons_self
      rw [members]
      have hrest : ∀ token stop, R id cursor (.matched token stop) →
          Decides (members call ids (tokens.push token) stop)
            (MembersEnd R ids (tokens.push token) stop) := by
        intro token stop hstep
        have hstop := h.within id hmem cursor (Nat.le_refl _) hcursor _ hstep
        exact ih (h.mono hsub hstop.1) hstop.2
      refine Decides.tried (h.decides id hmem cursor (Nat.le_refl _) hcursor) hrest
        (fun _ _ => Decides.pure _) fun run => ?_
      · cases run with
        | ok found =>
            obtain ⟨all, stop⟩ := found
            constructor
            · rintro (⟨token, next, hstep, more, hmore, rfl⟩ | ⟨failure, _, heq⟩)
              · exact ⟨token :: more, .cons hstep hmore, push_append_eq _ _ _⟩
              · cases heq
            · rintro ⟨more, hmore, rfl⟩
              cases hmore with
              | cons hstep hrest =>
                  exact .inl ⟨_, _, hstep, _, hrest, (push_append_eq _ _ _).symm⟩
        | error failure =>
            constructor
            · rintro (⟨token, next, hstep, hfails⟩ | ⟨failure', hstep, heq⟩)
              · exact .later hstep hfails
              · cases heq
                exact .here hstep
            · intro hfails
              cases hfails with
              | here hstep => exact .inr ⟨_, hstep, rfl⟩
              | later hstep hrest => exact .inl ⟨_, _, hstep, hrest⟩

/-- The step made of members whose tokens are put together by `finish`. -/
def MembersStep (R : Judgement) (finish : Array Token → Token) (ids : List NodeId)
    (cursor : Nat) (step : Step) : Prop :=
  (∃ tokens stop, Members R ids cursor tokens stop ∧
      step = .matched (finish tokens.toArray) stop) ∨
    ∃ failure, MemberFails R ids cursor failure ∧ step = .failed failure

theorem decides_membersStep (finish : Array Token → Token) {ids : List NodeId} {cursor : Nat}
    (h : Computes call R size ids cursor) (hcursor : cursor ≤ size) :
    Decides (do
      match ← members call ids #[] cursor with
      | .ok (tokens, stop) => return Step.matched (finish tokens) stop
      | .error failure => return Step.failed failure) (MembersStep R finish ids cursor) := by
  refine Decides.bind (decides_members h hcursor) (F := fun run step => step = match run with
    | .ok (tokens, stop) => .matched (finish tokens) stop
    | .error failure => .failed failure) (fun run _ => ?_) fun step => ?_
  · cases run with
    | ok found => exact Decides.pure _
    | error failure => exact Decides.pure _
  · constructor
    · rintro ⟨run, hend, rfl⟩
      cases run with
      | ok found =>
          obtain ⟨all, stop⟩ := found
          obtain ⟨tokens, hmembers, rfl⟩ := hend
          exact .inl ⟨tokens, stop, hmembers, by rw [empty_append_eq]⟩
      | error failure => exact .inr ⟨failure, hend, rfl⟩
    · rintro (⟨tokens, stop, hmembers, rfl⟩ | ⟨failure, hfails, rfl⟩)
      · exact ⟨.ok (tokens.toArray, stop), ⟨tokens, hmembers, (empty_append_eq tokens).symm⟩,
          rfl⟩
      · exact ⟨.error failure, hfails, rfl⟩

theorem counted_eq_members (node : NodeId) : ∀ (count : Nat) (tokens : Array Token)
    (cursor : Nat), counted call node count tokens cursor =
      members call (List.replicate count node) tokens cursor := by
  intro count
  induction count with
  | zero => intro tokens cursor; rfl
  | succ count ih =>
      intro tokens cursor
      rw [counted, List.replicate_succ, members]
      congr 1
      funext step
      cases step with
      | matched token stop => exact ih _ _
      | failed failure => rfl

/-- How trying alternatives may end. -/
def FirstEnd (R : Judgement) (ids : List NodeId) (pos : Nat) : Step → Prop
  | .matched token stop => FirstMatches R ids pos token stop
  | .failed failure => failure = ⟨.allAlternativesFailed, pos⟩ ∧ AllFail R ids pos

theorem decides_firstOf (hpos : pos ≤ size) : ∀ {ids : List NodeId},
    Computes call R size ids pos → Decides (firstOf call pos ids) (FirstEnd R ids pos) := by
  intro ids
  induction ids with
  | nil =>
      intro _
      refine (Decides.fail _ _).congr fun step => ?_
      cases step with
      | matched token stop =>
          constructor
          · rintro ⟨⟩
          · rintro ⟨⟩
      | failed failure =>
          constructor
          · rintro ⟨⟩
            exact ⟨rfl, .nil⟩
          · rintro ⟨rfl, _⟩
            rfl
  | cons id ids ih =>
      intro h
      rw [firstOf]
      refine Decides.tried (h.decides id List.mem_cons_self pos (Nat.le_refl _) hpos)
        (fun _ _ _ => Decides.pure _)
        (fun _ _ => ih (h.mono (List.subset_cons_self ..) (Nat.le_refl _))) fun step => ?_
      cases step with
      | matched token stop =>
          constructor
          · rintro (⟨token', stop', hstep, heq⟩ | ⟨failure, hstep, hrest⟩)
            · cases heq
              exact .here hstep
            · exact .later hstep hrest
          · intro hfirst
            cases hfirst with
            | here hstep => exact .inl ⟨_, _, hstep, rfl⟩
            | later hstep hrest => exact .inr ⟨_, hstep, hrest⟩
      | failed failure =>
          constructor
          · rintro (⟨token, stop, _, heq⟩ | ⟨failure', hstep, rfl, hrest⟩)
            · cases heq
            · exact ⟨rfl, .cons hstep hrest⟩
          · rintro ⟨rfl, hall⟩
            cases hall with
            | cons hstep hrest => exact .inr ⟨_, hstep, rfl, hrest⟩

/-! ## Loops -/

/-- How the rounds of a repetition may end that has `tokens` already. -/
def RoundsEnd (R : Judgement) (id : NodeId) (min : Nat) (max : Option Nat)
    (tokens : Array Token) (cursor : Nat) (run : Array Token × Nat) : Prop :=
  ∃ more, Rounds R id min max tokens.size cursor more run.2 ∧ run.1 = tokens ++ more

theorem any_le_iff {max : Option Nat} {count : Nat} :
    max.any (· ≤ count) = true ↔ ∃ m, max = some m ∧ m ≤ count := by
  cases max <;> simp

theorem append_nil_eq (tokens : Array Token) : tokens = tokens ++ ([] : List Token) := by
  simp

theorem roundsEnd_of_full {id : NodeId} {min m cursor : Nat} {max : Option Nat}
    {tokens : Array Token} (hmax : max = some m) (hm : m ≤ tokens.size)
    {run : Array Token × Nat} :
    run = (tokens, cursor) ↔ RoundsEnd R id min max tokens cursor run := by
  constructor
  · rintro rfl
    exact ⟨[], .full hmax hm, append_nil_eq tokens⟩
  · rintro ⟨more, hrounds, hall⟩
    obtain ⟨all, stop⟩ := run
    dsimp only at hrounds hall
    subst hall
    cases hrounds with
    | full => rw [← append_nil_eq]
    | fails hroom _ => exact absurd (hroom m hmax) (Nat.not_lt.mpr hm)
    | stalls hroom _ _ => exact absurd (hroom m hmax) (Nat.not_lt.mpr hm)
    | round hroom _ _ _ => exact absurd (hroom m hmax) (Nat.not_lt.mpr hm)

theorem roundsEnd_of_room {id : NodeId} {min cursor : Nat} {max : Option Nat}
    {tokens : Array Token} (hroom : ∀ m, max = some m → tokens.size < m)
    {run : Array Token × Nat} :
    ((∃ token stop, R id cursor (.matched token stop) ∧
        ((stop = cursor ∧ min ≤ (tokens.push token).size) ∧ run = (tokens.push token, stop) ∨
          ¬ (stop = cursor ∧ min ≤ (tokens.push token).size) ∧
            RoundsEnd R id min max (tokens.push token) stop run)) ∨
      ∃ failure, R id cursor (.failed failure) ∧ run = (tokens, cursor)) ↔
      RoundsEnd R id min max tokens cursor run := by
  simp only [Array.size_push]
  constructor
  · rintro (⟨token, stop, hstep, ⟨⟨rfl, hmin⟩, rfl⟩ | ⟨hgo, more, hrounds, hall⟩⟩ |
      ⟨failure, hstep, rfl⟩)
    · exact ⟨[token], .stalls hroom hstep hmin, by simp⟩
    · rw [Array.size_push] at hrounds
      exact ⟨token :: more, .round hroom hstep (by omega) hrounds,
        hall.trans (push_append_eq _ _ _)⟩
    · exact ⟨[], .fails hroom hstep, append_nil_eq tokens⟩
  · rintro ⟨more, hrounds, hall⟩
    obtain ⟨all, stop⟩ := run
    dsimp only at hrounds hall
    subst hall
    cases hrounds with
    | full hmax hm => exact absurd (hroom _ hmax) (Nat.not_lt.mpr hm)
    | fails _ hstep => exact .inr ⟨_, hstep, by rw [← append_nil_eq]⟩
    | @stalls _ _ token _ hstep hmin =>
        exact .inl ⟨token, _, hstep, .inl ⟨⟨rfl, hmin⟩, by simp⟩⟩
    | @round _ _ token next more _ _ hstep hgo hrest =>
        refine .inl ⟨token, next, hstep, .inr ⟨by omega, more, ?_, ?_⟩⟩
        · rw [Array.size_push]
          exact hrest
        · exact (push_append_eq _ _ _).symm

theorem decides_repetition {id : NodeId} {min : Nat} {max : Option Nat} :
    ∀ {budget : Nat} {tokens : Array Token} {cursor : Nat},
      Computes call R size [id] cursor → cursor ≤ size →
      (min - tokens.size) + (size - cursor) < budget →
      Decides (repetition call id min max budget tokens cursor)
        (RoundsEnd R id min max tokens cursor) := by
  intro budget
  induction budget with
  | zero => intro tokens cursor _ _ hbudget; omega
  | succ budget ih =>
      intro tokens cursor h hcursor hbudget
      have hmem : id ∈ [id] := List.mem_cons_self
      rw [repetition]
      by_cases hfull : max.any (· ≤ tokens.size) = true
      · rw [if_pos hfull]
        obtain ⟨m, hmax, hm⟩ := any_le_iff.mp hfull
        exact (Decides.pure _).congr fun run => roundsEnd_of_full hmax hm
      · rw [if_neg hfull]
        have hroom : ∀ m, max = some m → tokens.size < m :=
          fun m hm => Nat.lt_of_not_le fun hle => hfull (any_le_iff.mpr ⟨m, hm, hle⟩)
        have hmore : ∀ token stop, R id cursor (.matched token stop) →
            ¬ (stop = cursor ∧ min ≤ (tokens.push token).size) →
            Decides (repetition call id min max budget (tokens.push token) stop)
              (RoundsEnd R id min max (tokens.push token) stop) := by
          intro token stop hstep hgo
          have hstop := h.within id hmem cursor (Nat.le_refl _) hcursor _ hstep
          have hlo := hstop.1
          have hhi := hstop.2
          rw [Array.size_push] at hgo
          refine ih (h.mono (List.Subset.refl _) hlo) hhi ?_
          rw [Array.size_push]
          omega
        refine Decides.tried (h.decides id hmem cursor (Nat.le_refl _) hcursor)
          (fun token stop hstep => Decides.ite (fun _ => Decides.pure _) (hmore token stop hstep))
          (fun _ _ => Decides.pure _) fun run => ?_
        exact roundsEnd_of_room hroom

theorem decides_repeated {input : Array UInt8} {id : NodeId} {min : Nat} {max : Option Nat}
    (h : Computes call R input.size [id] pos) (hpos : pos ≤ input.size) :
    Decides (repeated call input id min max pos) (Rule input R (.repeated id min max) pos) := by
  unfold repeated
  have hbudget : (min - (#[] : Array Token).size) + (input.size - pos)
      < Nat.max min 1 + (input.size - pos) + 1 := by
    have hle : min ≤ Nat.max min 1 := Nat.le_max_left min 1
    simp only [List.size_toArray, List.length_nil]
    omega
  refine Decides.bind (decides_repetition h hpos hbudget)
    (fun run _ => Decides.ite (fun _ => Decides.fail _ _) fun _ => Decides.pure _)
    fun step => ?_
  constructor
  · rintro ⟨⟨all, stop⟩, ⟨more, hrounds, hall⟩, hend⟩
    dsimp only at hrounds hall hend
    rw [empty_append_eq] at hall
    subst hall
    rw [List.size_toArray] at hend
    rcases hend with ⟨hfew, rfl⟩ | ⟨henough, rfl⟩
    · exact .repeated_fails hrounds hfew
    · exact .repeated hrounds (Nat.not_lt.mp henough)
  · intro hrule
    cases hrule with
    | leaf hleaf => cases hleaf
    | @repeated _ _ _ _ more stop hrounds hmin =>
        refine ⟨(more.toArray, stop), ⟨more, hrounds, (empty_append_eq more).symm⟩, .inr ?_⟩
        exact ⟨Nat.not_lt.mpr hmin, rfl⟩
    | @repeated_fails _ _ _ _ more stop hrounds hfew =>
        exact ⟨(more.toArray, stop), ⟨more, hrounds, (empty_append_eq more).symm⟩,
          .inl ⟨hfew, rfl⟩⟩

/-- How the separators and elements may end that follow `tokens`. -/
def PairsEnd (R : Judgement) (id separator : NodeId) (tokens : Array Token) (cursor : Nat)
    (run : Array Token × Nat) : Prop :=
  ∃ more, Pairs R id separator cursor more run.2 ∧ run.1 = tokens ++ more

theorem pairsEnd_iff {id separator : NodeId} {cursor : Nat} {tokens : Array Token}
    {run : Array Token × Nat} :
    ((∃ skipped next, R separator cursor (.matched skipped next) ∧
        ((∃ token stop, R id next (.matched token stop) ∧
            (stop = cursor ∧ run = (tokens.push token, cursor) ∨
              ¬ stop = cursor ∧ PairsEnd R id separator (tokens.push token) stop run)) ∨
          ∃ failure, R id next (.failed failure) ∧ run = (tokens, cursor))) ∨
      ∃ failure, R separator cursor (.failed failure) ∧ run = (tokens, cursor)) ↔
      PairsEnd R id separator tokens cursor run := by
  constructor
  · rintro (⟨skipped, next, hsep, ⟨token, stop, hstep, ⟨rfl, rfl⟩ | ⟨hgo, more, hpairs, hall⟩⟩ |
      ⟨failure, hstep, rfl⟩⟩ | ⟨failure, hsep, rfl⟩)
    · exact ⟨[token], .stalls hsep hstep, by simp⟩
    · exact ⟨token :: more, .pair hsep hstep hgo hpairs, hall.trans (push_append_eq _ _ _)⟩
    · exact ⟨[], .noElement hsep hstep, append_nil_eq tokens⟩
    · exact ⟨[], .noSeparator hsep, append_nil_eq tokens⟩
  · rintro ⟨more, hpairs, hall⟩
    obtain ⟨all, stop⟩ := run
    dsimp only at hpairs hall
    subst hall
    cases hpairs with
    | noSeparator hsep => exact .inr ⟨_, hsep, by rw [← append_nil_eq]⟩
    | noElement hsep hstep =>
        exact .inl ⟨_, _, hsep, .inr ⟨_, hstep, by rw [← append_nil_eq]⟩⟩
    | stalls hsep hstep =>
        exact .inl ⟨_, _, hsep, .inl ⟨_, _, hstep, .inl ⟨rfl, by simp⟩⟩⟩
    | pair hsep hstep hgo hrest =>
        exact .inl ⟨_, _, hsep, .inl ⟨_, _, hstep,
          .inr ⟨hgo, _, hrest, (push_append_eq _ _ _).symm⟩⟩⟩

theorem decides_separated {id separator : NodeId} :
    ∀ {budget : Nat} {tokens : Array Token} {cursor : Nat},
      Computes call R size [id, separator] cursor → cursor ≤ size →
      size - cursor < budget →
      Decides (separated call id separator budget tokens cursor)
        (PairsEnd R id separator tokens cursor) := by
  intro budget
  induction budget with
  | zero => intro tokens cursor _ _ hbudget; omega
  | succ budget ih =>
      intro tokens cursor h hcursor hbudget
      have hid : id ∈ [id, separator] := List.mem_cons_self
      have hseparator : separator ∈ [id, separator] := by simp
      rw [separated]
      refine Decides.tried (h.decides separator hseparator cursor (Nat.le_refl _) hcursor)
        (fun skipped next hsep => ?_) (fun _ _ => Decides.pure _) fun run => pairsEnd_iff
      have hnext := h.within separator hseparator cursor (Nat.le_refl _) hcursor _ hsep
      refine Decides.tried (h.decides id hid next hnext.1 hnext.2)
        (fun token stop hstep => Decides.ite (fun _ => Decides.pure _) fun hgo => ?_)
        (fun _ _ => Decides.pure _) fun run => Iff.rfl
      have hstop := h.within id hid next hnext.1 hnext.2 _ hstep
      have hlo := Nat.le_trans hnext.1 hstop.1
      have hhi := hstop.2
      exact ih (h.mono (List.Subset.refl _) hlo) hhi (by omega)

theorem decides_sepBy {input : Array UInt8} {id separator : NodeId} {min : Nat}
    (h : Computes call R input.size [id, separator] pos) (hpos : pos ≤ input.size) :
    Decides (sepBy call input id separator min pos)
      (Rule input R (.sepBy id separator min) pos) := by
  have hid : id ∈ [id, separator] := List.mem_cons_self
  unfold sepBy
  refine Decides.tried (M := fun token stop step => ∃ run,
      PairsEnd R id separator #[token] stop run ∧ step = .matched (.seq run.1.toList) run.2)
    (h.decides id hid pos (Nat.le_refl _) hpos) (fun token stop hstep => ?_)
    (fun _ _ => Decides.ite (fun _ => Decides.pure _) fun _ => Decides.fail _ _) fun step => ?_
  · have hstop := h.within id hid pos (Nat.le_refl _) hpos _ hstep
    exact Decides.bind (decides_separated (h.mono (List.Subset.refl _) hstop.1) hstop.2
      (by omega)) (fun run _ => Decides.pure _) fun _ => Iff.rfl
  constructor
  · rintro (⟨token, next, hstep, ⟨all, stop⟩, ⟨more, hpairs, hall⟩, rfl⟩ |
      ⟨failure, hstep, ⟨rfl, rfl⟩ | ⟨hmin, rfl⟩⟩)
    · dsimp only at hpairs hall ⊢
      subst hall
      simpa using Rule.sepBy hstep hpairs
    · exact .sepBy_none hstep
    · exact .sepBy_fails hstep (Nat.pos_of_ne_zero hmin)
  · intro hrule
    cases hrule with
    | leaf hleaf => cases hleaf
    | @sepBy _ _ _ _ token next more stop hstep hpairs =>
        exact .inl ⟨token, next, hstep, (#[token] ++ more, stop), ⟨more, hpairs, rfl⟩, by simp⟩
    | sepBy_none hstep => exact .inr ⟨_, hstep, .inl ⟨rfl, rfl⟩⟩
    | sepBy_fails hstep hmin => exact .inr ⟨_, hstep, .inr ⟨Nat.pos_iff_ne_zero.mp hmin, rfl⟩⟩

/-! ## Counts -/

/-- What follows a count of raw bytes. -/
def BytesEnd (input : Array UInt8) (token : Token) (start : Nat) (step : Step) : Prop :=
  ∃ count, token.count? = some count ∧
    (start + count.toNat ≤ input.size ∧
        step = .matched (.bytes (slice input start count.toNat)) (start + count.toNat) ∨
      ¬ start + count.toNat ≤ input.size ∧
        step = .failed ⟨.declaredLengthExceedsInput count (input.size - start), start⟩)

theorem decides_lengthBytes {input : Array UInt8} {length : NodeId}
    (h : Computes call R input.size [length] pos) (hpos : pos ≤ input.size) :
    Decides (lengthValue call input length .byte pos)
      (Rule input R (.lengthValue length .byte) pos) := by
  unfold lengthValue
  refine Decides.tried (M := BytesEnd input)
    (h.decides length List.mem_cons_self pos (Nat.le_refl _) hpos)
    (fun token start hstep => ?_) (fun _ _ => Decides.pure _) fun step => ?_
  · have hstart := (h.within length List.mem_cons_self pos (Nat.le_refl _) hpos _ hstep).2
    cases hcount : token.count? with
    | none =>
        simp only [hcount]
        refine (Decides.throw _).congr fun step => ?_
        simp [BytesEnd, hcount]
    | some count =>
        simp only [hcount]
        refine (Decides.ite (fun _ => Decides.pure _) fun _ => Decides.fail _ _).congr
          fun step => ?_
        have hfits : count.toNat ≤ input.size - start ↔ start + count.toNat ≤ input.size := by
          omega
        simp [BytesEnd, hcount, hfits]
  · constructor
    · rintro (⟨token, start, hstep, count, hcount, ⟨hfits, rfl⟩ | ⟨hover, rfl⟩⟩ |
        ⟨failure, hstep, rfl⟩)
      · exact .length_bytes hstep hcount hfits
      · exact .length_exceeds hstep hcount (Nat.not_le.mp hover)
      · exact .length_fails hstep
    · intro hrule
      cases hrule with
      | leaf hleaf => cases hleaf
      | length_fails hstep => exact .inr ⟨_, hstep, rfl⟩
      | length_bytes hstep hcount hfits =>
          exact .inl ⟨_, _, hstep, _, hcount, .inl ⟨hfits, rfl⟩⟩
      | length_exceeds hstep hcount hover =>
          exact .inl ⟨_, _, hstep, _, hcount, .inr ⟨Nat.not_le.mpr hover, rfl⟩⟩

/-- What follows a count of matches of a node. -/
def NodesEnd (R : Judgement) (node : NodeId) (token : Token) (start : Nat) (step : Step) :
    Prop :=
  ∃ count, token.count? = some count ∧
    MembersStep R (fun tokens => .seq tokens.toList) (List.replicate count.toNat node) start step

theorem decides_lengthNodes {input : Array UInt8} {length node : NodeId}
    (h : Computes call R input.size [length, node] pos) (hpos : pos ≤ input.size) :
    Decides (lengthValue call input length (.node node) pos)
      (Rule input R (.lengthValue length (.node node)) pos) := by
  have hlength : length ∈ [length, node] := List.mem_cons_self
  unfold lengthValue
  refine Decides.tried (M := NodesEnd R node)
    (h.decides length hlength pos (Nat.le_refl _) hpos)
    (fun token start hstep => ?_) (fun _ _ => Decides.pure _) fun step => ?_
  · have hstart := h.within length hlength pos (Nat.le_refl _) hpos _ hstep
    cases hcount : token.count? with
    | none =>
        simp only [hcount]
        refine (Decides.throw _).congr fun step => ?_
        simp [NodesEnd, hcount]
    | some count =>
        have hsub : List.replicate count.toNat node ⊆ [length, node] := by
          intro id hid
          rw [List.eq_of_mem_replicate hid]
          simp
        simp only [hcount, counted_eq_members]
        refine (decides_membersStep (fun tokens => .seq tokens.toList)
          (h.mono hsub hstart.1) hstart.2).congr fun step => ?_
        simp [NodesEnd, hcount]
  · constructor
    · rintro (⟨token, start, hstep, count, hcount, ⟨tokens, stop, hmembers, rfl⟩ |
        ⟨failure, hfails, rfl⟩⟩ | ⟨failure, hstep, rfl⟩)
      · exact .length_nodes hstep hcount hmembers
      · exact .length_node_fails hstep hcount hfails
      · exact .length_fails hstep
    · intro hrule
      cases hrule with
      | leaf hleaf => cases hleaf
      | length_fails hstep => exact .inr ⟨_, hstep, rfl⟩
      | length_nodes hstep hcount hmembers =>
          exact .inl ⟨_, _, hstep, _, hcount, .inl ⟨_, _, hmembers, rfl⟩⟩
      | length_node_fails hstep hcount hfails =>
          exact .inl ⟨_, _, hstep, _, hcount, .inr ⟨_, hfails, rfl⟩⟩

end Packrat.Semantics
