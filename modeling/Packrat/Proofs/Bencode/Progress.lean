import Mathlib.Tactic.IntervalCases
import Packrat.Proofs.Bencode.Grammar
import Packrat.Proofs.Semantics.Progress

/-!
# Every node of the bencode grammar comes to a step

A value occurs inside values, but never where the one around it begins: a letter stands
in between. So the levels that it takes to come to a step are bounded by what is left of
the input, five for each byte and six at the end (`any_settles`), and the induction is on
that.

This has to be known of all nodes and not of the value alone, since a walk that gives up
gives up at one of them. There is one line for each.
-/

namespace Packrat.Bencode

open Semantics Nodes

variable {input : Array UInt8} {pos stop n : Nat} {token : Token}

/-! ## Strings and integers -/

/-- A length is an unsigned number. -/
theorem exists_count_of_lengthColon
    (h : YieldsWithin grammar input n lengthColon pos (.matched token stop)) :
    ∃ count, token = .uint count := by
  obtain ⟨_, ds, _, _, rfl, _⟩ := lengthColon_matched_iff.mp h
  exact ⟨_, rfl⟩

theorem lengthColon_settles (hpos : pos ≤ input.size) :
    Settles grammar input (n + 4) lengthColon pos := by
  refine pick_settles lengthColon_eq (by decide) (inTurn_of_settles grammar_wellFormed hpos ?_)
  simp only [List.forall_mem_cons, List.not_mem_nil, false_implies, implies_true, and_true]
  exact ⟨fun _ _ hp => uint_settles lengthNodes grammar_wellFormed length_eq hp,
    fun _ _ _ => literal_settles colon_eq⟩

theorem string_settles (hpos : pos ≤ input.size) : Settles grammar input (n + 5) string pos := by
  refine lengthBytes_settles string_eq (fun token start hmatched => ?_) (lengthColon_settles hpos)
  obtain ⟨count, rfl⟩ := exists_count_of_lengthColon hmatched
  exact ⟨count, rfl⟩

theorem integer_settles (hpos : pos ≤ input.size) :
    Settles grammar input (n + 5) integer pos := by
  refine sequence_settles integer_eq (inTurn_of_settles grammar_wellFormed hpos ?_)
  simp only [List.forall_mem_cons, List.not_mem_nil, false_implies, implies_true, and_true]
  exact ⟨fun _ _ _ => literal_settles i_eq,
    fun _ _ hp => sint_settles numberNodes grammar_wellFormed hp,
    fun _ _ _ => literal_settles e_eq⟩

/-! ## Lists and dictionaries -/

/-- What is inside only has to come to a step behind the letter. -/
theorem bracketed_settles {opening inner whole : NodeId} {b : UInt8}
    (hopening : grammar.node? opening = some (.literal b))
    (hwhole : grammar.node? whole = some (.sequence [opening, inner, e]))
    (h : input[pos]? = some b → Settles grammar input (n + 1) inner (pos + 1)) :
    Settles grammar input (n + 2) whole pos := by
  refine sequence_settles hwhole ⟨literal_settles hopening, fun token next hstep => ?_⟩
  obtain ⟨rfl, hreads⟩ := (literal_matched_iff hopening).mp hstep
  obtain ⟨hb, rfl⟩ := Reads.byte_iff.mp hreads
  exact ⟨h hb, fun _ _ _ => ⟨literal_settles e_eq, fun _ _ _ => trivial⟩⟩

theorem placeholder_settles (h : Settles grammar input n any pos) :
    Settles grammar input (n + 1) placeholder pos :=
  indirect_settles placeholder_eq h

theorem items_settles (hpos : pos ≤ input.size)
    (h : ∀ p, pos ≤ p → p ≤ input.size → Settles grammar input n any p) :
    Settles grammar input (n + 2) items pos :=
  many_settles grammar_wellFormed items_eq hpos fun p hle hp => placeholder_settles (h p hle hp)

theorem pair_settles (hn : 4 ≤ n) (hpos : pos ≤ input.size)
    (h : ∀ p, pos ≤ p → p ≤ input.size → Settles grammar input n any p) :
    Settles grammar input (n + 2) pair pos := by
  obtain ⟨m, rfl⟩ : ∃ m, n = m + 4 := ⟨n - 4, by omega⟩
  refine sequence_settles pair_eq (inTurn_of_settles grammar_wellFormed hpos ?_)
  simp only [List.forall_mem_cons, List.not_mem_nil, false_implies, implies_true, and_true]
  exact ⟨fun _ _ hp => string_settles hp, fun p hle hp => placeholder_settles (h p hle hp)⟩

theorem pairs_settles (hn : 4 ≤ n) (hpos : pos ≤ input.size)
    (h : ∀ p, pos ≤ p → p ≤ input.size → Settles grammar input n any p) :
    Settles grammar input (n + 3) pairs pos :=
  many_settles grammar_wellFormed pairs_eq hpos fun _ hle hp =>
    pair_settles hn hp fun q hq => h q (Nat.le_trans hle hq)

/-! ## Values -/

/-- Five levels for each byte that is left, and six at the end of the input. -/
theorem any_settles (hpos : pos ≤ input.size) :
    Settles grammar input (5 * (input.size - pos) + 6) any pos := by
  induction hrest : input.size - pos using Nat.strongRecOn generalizing pos with
  | _ rest ih =>
      subst hrest
      -- behind the letter there is a byte less, so there are five levels to spare
      have hinside : ∀ {b}, input[pos]? = some b → pos + 1 ≤ input.size ∧
          ∀ p, pos + 1 ≤ p → p ≤ input.size →
            Settles grammar input (5 * (input.size - pos) + 1) any p := by
        intro b hb
        have hlt : pos < input.size := (Array.getElem?_eq_some_iff.mp hb).1
        refine ⟨hlt, fun p hle hp => ?_⟩
        exact (ih (input.size - p) (by omega) hp rfl).mono (by omega)
      refine choice_settles any_eq ?_
      simp only [List.forall_mem_cons, List.not_mem_nil, false_implies, implies_true, and_true]
      refine ⟨integer_settles hpos, string_settles hpos, ?_, ?_⟩
      · have hlist : Settles grammar input (5 * (input.size - pos) + 4) Nodes.list pos :=
          bracketed_settles l_eq list_eq fun hb =>
            items_settles (hinside hb).1 (hinside hb).2
        exact hlist.mono (by omega)
      · refine bracketed_settles d_eq dictionary_eq fun hb => ?_
        obtain ⟨hlt, hvalues⟩ := hinside hb
        exact pairs_settles (by omega) hlt hvalues

/-- So does every other node. -/
theorem exists_settles {id : NodeId} (hid : grammar.contains id = true)
    (hpos : pos ≤ input.size) : ∃ n, Settles grammar input n id pos := by
  have hvalues : ∀ p, pos ≤ p → p ≤ input.size →
      Settles grammar input (5 * (input.size - pos) + 6) any p :=
    fun p hle hp => (any_settles hp).mono (by omega)
  have hletter : ∀ {b}, input[pos]? = some b → pos + 1 ≤ input.size :=
    fun hb => (Array.getElem?_eq_some_iff.mp hb).1
  have hbehind : ∀ p, pos + 1 ≤ p → p ≤ input.size →
      Settles grammar input (5 * (input.size - pos) + 6) any p :=
    fun p hle hp => hvalues p (by omega) hp
  obtain ⟨arena, index⟩ := id
  simp only [Grammar.contains, Bool.and_eq_true, beq_iff_eq, decide_eq_true_eq] at hid
  obtain ⟨harena, hindex⟩ := hid
  obtain rfl : arena = 0 := harena
  have hindex : index < 24 := hindex
  interval_cases index
  · exact ⟨_, placeholder_settles (any_settles hpos)⟩
  · exact ⟨1, range_settles lengthNodes.digit_eq⟩
  · exact ⟨2, digits_settles lengthNodes grammar_wellFormed hpos⟩
  · exact ⟨3, uint_settles lengthNodes grammar_wellFormed length_eq hpos⟩
  · exact ⟨1, literal_settles colon_eq⟩
  · exact ⟨4, lengthColon_settles hpos⟩
  · exact ⟨5, string_settles hpos⟩
  · exact ⟨1, literal_settles i_eq⟩
  · exact ⟨1, literal_settles numberNodes.minus_eq⟩
  · exact ⟨2, sign_settles numberNodes⟩
  · exact ⟨1, range_settles numberNodes.digit_eq⟩
  · exact ⟨2, digits_settles numberNodes.toDigitNodes grammar_wellFormed hpos⟩
  · exact ⟨3, parts_settles numberNodes grammar_wellFormed hpos⟩
  · exact ⟨4, sint_settles numberNodes grammar_wellFormed hpos⟩
  · exact ⟨1, literal_settles e_eq⟩
  · exact ⟨5, integer_settles hpos⟩
  · exact ⟨1, literal_settles l_eq⟩
  · exact ⟨_, items_settles hpos hvalues⟩
  · exact ⟨_, bracketed_settles l_eq list_eq fun hb =>
      items_settles (hletter hb) hbehind⟩
  · exact ⟨1, literal_settles d_eq⟩
  · exact ⟨_, pair_settles (by omega) hpos hvalues⟩
  · exact ⟨_, pairs_settles (by omega) hpos hvalues⟩
  · exact ⟨_, bracketed_settles d_eq dictionary_eq fun hb =>
      pairs_settles (by omega) (hletter hb) hbehind⟩
  · exact ⟨_, any_settles hpos⟩

end Packrat.Bencode
