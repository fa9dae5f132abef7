import Mathlib.Data.List.TakeWhile
import Packrat.Proofs.Grammar.DecimalNodes
import Packrat.Proofs.Walk.Finds

/-!
# Decimal integers up to the limits of a word

A decimal node takes all the digits in front of it, however many, and decides by
their value alone. So the input is cut into a sign, a run of digits and the rest,
and three things can come of it: no digit, a value that fits, one that does not.

Only the second is known from what the nodes match. The other two are errors, and an
error is told from the furthest failure of the whole walk, so here the walk itself
is computed, with the failures it meets. There is always one at the end of the run,
where no further digit is found. The failure to be told stands at the same position
and comes later, which is why it is the one that is told.
-/

namespace Packrat

open Decimal

/-! ## What a decimal node is to answer -/

namespace Decimal

/-- The digits up to the first byte that is none. -/
def leadingRun (bytes : List UInt8) : List UInt8 := bytes.takeWhile isDigit

/-- The outcome for an unsigned number in front of an input. -/
def expectedUint (input : List UInt8) : Outcome :=
  let run := leadingRun input
  if run = [] then .error (.located (.repetitionUnsatisfied 1 0) 0)
  else if number run ≤ 2 ^ 64 - 1 then .ok ⟨.uint (UInt64.ofNat (number run)), run.length⟩
  else .error (.located (.actionRejected "decimal-uint") run.length)

/-- The outcome for a number in front of an input that may begin with a minus. -/
def expectedSint (input : List UInt8) : Outcome :=
  let negative := input.head? == some 0x2d
  let sign := minusSign negative
  let run := leadingRun (input.drop sign.length)
  let value := signedNumber negative run
  if run = [] then .error (.located (.repetitionUnsatisfied 1 0) sign.length)
  else if -2 ^ 63 ≤ value ∧ value ≤ 2 ^ 63 - 1 then
    .ok ⟨.sint (Int64.ofInt value), sign.length + run.length⟩
  else .error (.located (.actionRejected "decimal-sint") (sign.length + run.length))

end Decimal

/-! ## The walk through a number -/

namespace Walk

open Semantics

section Numbers

variable {task : Task} {n pos stop : Nat} {step : Step}

/-! ### Digits -/

section Digits

variable {digit run : NodeId} {ds : List UInt8}

theorem digit_answer (h : DigitNodes task.grammar digit run) (call : NodeId → Nat → Walk Step) :
    answer task call digit pos = oneByte task.input (fun b =>
      if 0x30 ≤ b ∧ b ≤ 0x39 then none else some (.rangeMismatch 0x30 0x39 b)) pos := by
  simp only [answer, h.digit_eq]

theorem digit_finds (hplain : task.config.memoize = false) (h : DigitNodes task.grammar digit run)
    {b : UInt8} (hb : task.input[pos]? = some b) (hdigit : isDigit b = true) :
    Finds task (n + 1) digit pos (.matched (.byte b) (pos + 1)) none :=
  .byte hplain (digit_answer h) hb (if_pos (by simpa [isDigit] using hdigit))

theorem digit_fails (hplain : task.config.memoize = false) (h : DigitNodes task.grammar digit run)
    (hends : EndsAt task.input isDigit pos) :
    ∃ kind, Finds task (n + 1) digit pos (.failed ⟨kind, pos⟩) (some ⟨kind, pos⟩) := by
  refine Finds.no_byte hplain (digit_answer h) fun b hb => ⟨_, if_neg ?_⟩
  have hdigit := hends b hb
  simpa [isDigit] using hdigit

/-- The loop takes the digits and meets one failure, at the byte behind them. -/
theorem digits_loop {call : NodeId → Nat → Walk Step} {failure : Failure}
    (hdigit : ∀ p b, task.input[p]? = some b → isDigit b = true →
      Answers Unread (call digit p) (.matched (.byte b) (p + 1)) none)
    (hend : Answers Unread (call digit stop) (.failed failure) (some failure)) :
    ∀ {budget pos : Nat} {tokens : Array Token}, (∀ b ∈ ds, isDigit b = true) →
      Reads task.input pos ds stop → ds.length < budget →
      Answers Unread (repetition call digit 1 none budget tokens pos)
        (tokens ++ (ds.map .byte).toArray, stop) (some failure) := by
  induction ds with
  | nil =>
      intro budget pos tokens _ hreads hbudget
      obtain ⟨m, rfl⟩ : ∃ m, budget = m + 1 := ⟨budget - 1, by omega⟩
      cases hreads.eq_of_nil
      rw [repetition, if_neg (by simp), ← join_none (some failure)]
      refine hend.bind ?_
      simpa using Answers.pure (tokens, stop)
  | cons b ds ih =>
      intro budget pos tokens hdigits hreads hbudget
      obtain ⟨hfirst, hrest⟩ := List.forall_mem_cons.mp hdigits
      obtain ⟨hb, hreads'⟩ := Reads.cons_iff.mp hreads
      obtain ⟨m, rfl⟩ : ∃ m, budget = m + 1 := ⟨budget - 1, by omega⟩
      rw [List.length_cons] at hbudget
      rw [repetition, if_neg (by simp)]
      rw [← none_join (some failure)]
      refine (hdigit pos b hb hfirst).bind ?_
      have hmoved : ¬ (pos + 1 = pos ∧ 1 ≤ (tokens.push (.byte b)).size) := by omega
      simp only [if_neg hmoved]
      have hloop : Answers Unread
          (repetition call digit 1 none m (tokens.push (.byte b)) (pos + 1))
          (tokens.push (.byte b) ++ (ds.map .byte).toArray, stop) (some failure) :=
        ih hrest hreads' (by omega)
      simpa using hloop

theorem run_answer (h : DigitNodes task.grammar digit run) (call : NodeId → Nat → Walk Step) :
    answer task call run pos = repeated call task.input digit 1 none pos := by
  simp only [answer, h.run_eq]

/-- What is left of the input bounds the rounds. -/
theorem run_rounds (hplain : task.config.memoize = false) (h : DigitNodes task.grammar digit run)
    (hdigits : ∀ b ∈ ds, isDigit b = true) (hreads : Reads task.input pos ds stop)
    (hends : EndsAt task.input isDigit stop) :
    ∃ kind, ∀ depth, Answers Unread
      (repetition (invoke task (n + 1) depth) digit 1 none
        (Nat.max 1 1 + (task.input.size - pos) + 1) #[] pos)
      ((ds.map .byte).toArray, stop) (some ⟨kind, stop⟩) := by
  obtain ⟨kind, hkind⟩ := digit_fails (n := n) hplain h hends
  refine ⟨kind, fun depth => ?_⟩
  have hlength := congrArg List.length hreads.rest
  rw [List.length_append, List.length_drop, Array.length_toList] at hlength
  have hbudget : ds.length < Nat.max 1 1 + (task.input.size - pos) + 1 := by omega
  have hloop : Answers Unread _ (#[] ++ (ds.map Token.byte).toArray, stop) _ :=
    digits_loop (fun p b hb hdigit => digit_finds hplain h hb hdigit depth) (hkind depth)
      hdigits hreads hbudget
  rwa [Array.empty_append] at hloop

theorem run_finds (hplain : task.config.memoize = false) (h : DigitNodes task.grammar digit run)
    (hds : Numeral ds) (hreads : Reads task.input pos ds stop)
    (hends : EndsAt task.input isDigit stop) :
    ∃ kind, Finds task (n + 2) run pos (.matched (.seq (ds.map .byte)) stop)
      (some ⟨kind, stop⟩) := by
  obtain ⟨kind, hrounds⟩ := run_rounds (n := n) hplain h hds.digits hreads hends
  refine ⟨kind, .of_answer hplain fun depth => ?_⟩
  have henough : ¬ (ds.map Token.byte).toArray.size < 1 := by
    simpa using hds.ne_nil
  rw [run_answer h, repeated, ← join_none (some ⟨kind, stop⟩)]
  refine (hrounds depth).bind ?_
  simp only [if_neg henough]
  exact Answers.pure _

/-- With no digit at all the run is missing, and that is what is told. -/
theorem run_missing (hplain : task.config.memoize = false) (h : DigitNodes task.grammar digit run)
    (hends : EndsAt task.input isDigit pos) :
    Finds task (n + 2) run pos (.failed ⟨.repetitionUnsatisfied 1 0, pos⟩)
      (some ⟨.repetitionUnsatisfied 1 0, pos⟩) := by
  obtain ⟨kind, hrounds⟩ := run_rounds (n := n) hplain h (List.forall_mem_nil _) .nil hends
  refine .of_answer hplain fun depth => ?_
  have hjoin : join (some ⟨kind, pos⟩) (some ⟨.repetitionUnsatisfied 1 0, pos⟩) =
      some ⟨.repetitionUnsatisfied 1 0, pos⟩ := join_later (by simp)
  rw [run_answer h, repeated, ← hjoin]
  exact (hrounds depth).bind (fail_answers _ _)

end Digits

/-! ### Signs -/

section Sign

variable {digit run minus sign parts sint : NodeId} {ds : List UInt8}

/-- A minus is taken if there is one, and only its absence is met. -/
theorem sign_finds (hplain : task.config.memoize = false)
    (h : SignedNodes task.grammar digit run minus sign parts sint) {negative : Bool}
    (hnegative : negative = (task.input[pos]? == some 0x2d)) :
    ∃ found, (∀ failure ∈ found, failure.position = pos) ∧
      Finds task (n + 2) sign pos
        (.matched (minusToken negative) (pos + (minusSign negative).length)) found := by
  have hminus : ∀ call, answer task call minus pos = oneByte task.input (fun found =>
      if found = 0x2d then none else some (.literalMismatch 0x2d found)) pos := by
    intro call
    simp only [answer, h.minus_eq]
  subst hnegative
  by_cases hb : task.input[pos]? = some 0x2d
  · have htaken := Finds.byte (n := n) hplain hminus hb (if_pos rfl)
    refine ⟨none, by simp, .of_answer hplain fun depth => ?_⟩
    simp only [answer, h.sign_eq, hb, beq_self_eq_true]
    rw [← join_none none]
    exact (htaken depth).bind (Answers.pure _)
  · obtain ⟨kind, hkind⟩ := Finds.no_byte (n := n) hplain hminus (by
      intro c hc
      have hne : c ≠ 0x2d := fun heq => hb (heq ▸ hc)
      exact ⟨_, if_neg hne⟩)
    refine ⟨some ⟨kind, pos⟩, by simp, .of_answer hplain fun depth => ?_⟩
    simp only [answer, h.sign_eq, beq_false_of_ne hb]
    rw [← join_none (some ⟨kind, pos⟩)]
    exact (hkind depth).bind (Answers.pure _)

/-- What the digits meet comes behind the sign, so a missing sign is not told. -/
theorem parts_finds (hplain : task.config.memoize = false)
    (h : SignedNodes task.grammar digit run minus sign parts sint) {negative : Bool}
    (hnegative : negative = (task.input[pos]? == some 0x2d)) {mid : Nat}
    (hmid : mid = pos + (minusSign negative).length) {failure : Failure}
    (hlater : pos ≤ failure.position) (hrun : Finds task (n + 2) run mid step (some failure)) :
    Finds task (n + 3) parts pos (behind (minusToken negative) step) (some failure) := by
  obtain ⟨met, hmet, hsign⟩ := sign_finds (n := n) hplain h hnegative
  rw [← hmid] at hsign
  have hjoin : join met (some failure) = some failure :=
    join_later fun before hbefore => hmet before hbefore ▸ hlater
  rw [← hjoin]
  exact .pair hplain h.parts_eq hsign hrun

end Sign

end Numbers

end Walk

/-! ## Outcomes -/

section Outcomes

open Walk Semantics

variable {g : Grammar} {input : List UInt8} {start : NodeId}

theorem isDigit_of_mem_leadingRun {bytes : List UInt8} :
    ∀ b ∈ leadingRun bytes, isDigit b = true :=
  fun _ hb => List.mem_takeWhile_imp hb

theorem drop_leadingRun (input : List UInt8) (pos : Nat) :
    input.drop (pos + (leadingRun (input.drop pos)).length) =
      (input.drop pos).dropWhile isDigit := by
  have hcut : input.drop pos =
      leadingRun (input.drop pos) ++ (input.drop pos).dropWhile isDigit :=
    List.takeWhile_append_dropWhile.symm
  calc input.drop (pos + (leadingRun (input.drop pos)).length)
      = (input.drop pos).drop (leadingRun (input.drop pos)).length := List.drop_drop.symm
    _ = (leadingRun (input.drop pos) ++ (input.drop pos).dropWhile isDigit).drop
          (leadingRun (input.drop pos)).length := by rw [← hcut]
    _ = (input.drop pos).dropWhile isDigit := List.drop_left

theorem leadingRun_reads (input : List UInt8) (pos : Nat) :
    Reads input.toArray pos (leadingRun (input.drop pos))
      (pos + (leadingRun (input.drop pos)).length) := by
  refine ⟨rfl, ?_⟩
  show input.drop pos = leadingRun (input.drop pos) ++ input.drop (pos + _)
  rw [drop_leadingRun]
  exact List.takeWhile_append_dropWhile.symm

theorem leadingRun_ends (input : List UInt8) (pos : Nat) :
    EndsAt input.toArray isDigit (pos + (leadingRun (input.drop pos)).length) := by
  intro b hb
  have hhead := List.head?_dropWhile_not isDigit (input.drop pos)
  rw [← drop_leadingRun, List.head?_drop] at hhead
  rw [List.getElem?_toArray] at hb
  rw [hb] at hhead
  exact hhead

/-- A number is missing, fits, or is refused. Whichever it is, what was met last is told. -/
theorem runFrom_number {inner : NodeId} {action : Action} (raw : Token)
    (hstart : g.node? start = some (.action inner action)) {ds : List UInt8} {first stop : Nat}
    {token : Token} {fits : Prop} [Decidable fits]
    (hmissing : ds = [] → Finds ⟨g, input.toArray, .standard⟩ 255 inner 0
      (.failed ⟨.repetitionUnsatisfied 1 0, first⟩) (some ⟨.repetitionUnsatisfied 1 0, first⟩))
    (hfound : ds ≠ [] → ∃ kind, Finds ⟨g, input.toArray, .standard⟩ 255 inner 0
      (.matched raw stop) (some ⟨kind, stop⟩))
    (hvalue : ds ≠ [] → action.apply raw = if fits then some token else none) :
    Parser.runFrom ⟨g, .standard⟩ start input =
      if ds = [] then .error (.located (.repetitionUnsatisfied 1 0) first)
      else if fits then .ok ⟨token, stop⟩
      else .error (.located (.actionRejected action.name) stop) := by
  have hrun : ∀ {step found}, Finds ⟨g, input.toArray, .standard⟩ 256 start 0 step found →
      Parser.runFrom ⟨g, .standard⟩ start input =
        Parser.verdict ⟨g, .standard⟩ input.length step found := fun h =>
    Parser.runFrom_of_answers (Grammar.contains_of_node?_eq_some hstart) trivial (h 1)
  by_cases hnil : ds = []
  · rw [if_pos hnil, hrun (.of_action_failed rfl hstart (hmissing hnil))]
    rfl
  · obtain ⟨kind, hmatched⟩ := hfound hnil
    have hresult := hvalue hnil
    rw [if_neg hnil]
    by_cases hfits : fits
    · rw [if_pos hfits] at hresult ⊢
      rw [hrun (.of_action rfl hstart hmatched hresult)]
      rfl
    · rw [if_neg hfits] at hresult ⊢
      rw [hrun (.of_action_rejected rfl hstart hmatched hresult (by simp))]
      rfl

theorem runFrom_uint {digit run : NodeId} (h : DigitNodes g digit run)
    (hstart : g.node? start = some (.action run ⟨"decimal-uint", uintOfDigits⟩)) :
    Parser.runFrom ⟨g, .standard⟩ start input = expectedUint input := by
  have hreads := leadingRun_reads input 0
  have hends := leadingRun_ends input 0
  rw [List.drop_zero, Nat.zero_add] at hreads hends
  refine runFrom_number (.seq ((leadingRun input).map .byte)) hstart ?_ ?_ ?_
  · intro hnil
    rw [hnil] at hends
    exact run_missing rfl h hends
  · intro hne
    exact run_finds rfl h ⟨hne, isDigit_of_mem_leadingRun⟩ hreads hends
  · intro hne
    have hvalue := uintOfDigits_eq ⟨hne, isDigit_of_mem_leadingRun⟩
    exact hvalue.trans (if_congr Nat.lt_succ_iff rfl rfl)

theorem sintOfParts_eq {negative : Bool} {ds : List UInt8} (h : Numeral ds) :
    sintOfParts (.seq [minusToken negative, .seq (ds.map .byte)]) =
      if -2 ^ 63 ≤ signedNumber negative ds ∧ signedNumber negative ds ≤ 2 ^ 63 - 1 then
        some (.sint (Int64.ofInt (signedNumber negative ds)))
      else none := by
  have hsome : ∀ token, sintOfParts (.seq [minusToken negative, .seq (ds.map .byte)]) =
      some token ↔ ∃ n : Int64, n.toInt = signedNumber negative ds ∧ token = .sint n := by
    intro token
    rw [sintOfParts_eq_some_iff h, not_isNone_minusToken]
  split
  · next hfits =>
      exact (hsome _).mpr ⟨_, Int64.toInt_ofInt_of_le hfits.1 (by omega), rfl⟩
  · next hfits =>
      refine Option.eq_none_iff_forall_ne_some.mpr fun token htoken => hfits ?_
      obtain ⟨n, hn, _⟩ := (hsome token).mp htoken
      have hlow := n.le_toInt
      have hhigh := n.toInt_lt
      rw [← hn]
      omega

theorem runFrom_sint {digit run minus sign parts : NodeId}
    (h : SignedNodes g digit run minus sign parts start) :
    Parser.runFrom ⟨g, .standard⟩ start input = expectedSint input := by
  have hnegative : (input.head? == some 0x2d) = (input.toArray[0]? == some 0x2d) := by
    rw [List.head?_eq_getElem?, List.getElem?_toArray]
  unfold expectedSint
  generalize (input.head? == some 0x2d) = negative at hnegative ⊢
  have hreads := leadingRun_reads input (minusSign negative).length
  have hends := leadingRun_ends input (minusSign negative).length
  have hmid : (minusSign negative).length = 0 + (minusSign negative).length :=
    (Nat.zero_add _).symm
  refine runFrom_number (.seq [minusToken negative,
    .seq ((leadingRun (input.drop (minusSign negative).length)).map .byte)]) h.sint_eq ?_ ?_ ?_
  · intro hnil
    rw [hnil] at hends
    exact parts_finds rfl h hnegative hmid (Nat.zero_le _) (run_missing rfl h.toDigitNodes hends)
  · intro hne
    obtain ⟨kind, hrun⟩ : ∃ kind, Finds ⟨g, input.toArray, .standard⟩ 254 run _
        (.matched _ _) (some ⟨kind, _⟩) :=
      run_finds rfl h.toDigitNodes ⟨hne, isDigit_of_mem_leadingRun⟩ hreads hends
    exact ⟨kind, parts_finds rfl h hnegative hmid (Nat.zero_le _) hrun⟩
  · intro hne
    exact sintOfParts_eq ⟨hne, isDigit_of_mem_leadingRun⟩

end Outcomes

namespace Decimal

/-- Whatever an arena has before a decimal integer and gets after it, the node reads the
number in front of an input exactly: it tells a missing digit where the first one should
be, a number that does not fit at its end, and answers any other with all its digits. -/
theorem integers_exact (b : Builder) (later : List Builder.Call) (root : NodeId) (g : Grammar)
    (input : List UInt8) :
    ((later.foldl Builder.after (uint b).2).build root = .ok g →
      Parser.runFrom ⟨g, .standard⟩ (uint b).1 input = expectedUint input) ∧
    ((later.foldl Builder.after (sint b).2).build root = .ok g →
      Parser.runFrom ⟨g, .standard⟩ (sint b).1 input = expectedSint input) := by
  refine ⟨fun h => ?_, fun h => ?_⟩
  · obtain ⟨digit, run, hnodes, hnode⟩ := uint_built h
    exact runFrom_uint hnodes hnode
  · obtain ⟨digit, run, minus, sign, parts, hnodes⟩ := sint_built h
    exact runFrom_sint hnodes

/-- The arena of a number alone. -/
def alone (x : Build NodeId) : Grammar :=
  let b := (x (Builder.new 0)).2
  ⟨b.arena, b.nodes, b.names, (x (Builder.new 0)).1⟩

theorem integers_exact_at_limits :
    let largest := "00018446744073709551615;".toUTF8.toList
    let least := "-9223372036854775808".toUTF8.toList
    let beyond := "9223372036854775808".toUTF8.toList
    (uint (Builder.new 0)).2.build (alone uint).root = .ok (alone uint) ∧
    (sint (Builder.new 0)).2.build (alone sint).root = .ok (alone sint) ∧
    Parser.runFrom ⟨alone uint, .standard⟩ (alone uint).root largest =
      .ok ⟨.uint 18446744073709551615, 23⟩ ∧
    Parser.runFrom ⟨alone sint, .standard⟩ (alone sint).root least =
      .ok ⟨.sint (-9223372036854775808), 20⟩ ∧
    Parser.runFrom ⟨alone sint, .standard⟩ (alone sint).root beyond =
      .error (.located (.actionRejected "decimal-sint") 19) := by
  intro largest least beyond
  have huint : (uint (Builder.new 0)).2.build (alone uint).root = .ok (alone uint) := rfl
  have hsint : (sint (Builder.new 0)).2.build (alone sint).root = .ok (alone sint) := rfl
  refine ⟨huint, hsint, ?_, ?_, ?_⟩
  · exact ((integers_exact (Builder.new 0) [] _ _ largest).1 huint).trans (by decide +kernel)
  · exact ((integers_exact (Builder.new 0) [] _ _ least).2 hsint).trans (by decide +kernel)
  · exact ((integers_exact (Builder.new 0) [] _ _ beyond).2 hsint).trans (by decide +kernel)

end Decimal

end Packrat
