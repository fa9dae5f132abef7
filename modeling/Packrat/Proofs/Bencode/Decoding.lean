import Packrat.Proofs.Bencode.Grammar
import Packrat.Proofs.Semantics.Adequacy
import Packrat.Proofs.Walk.Outcome

/-!
# Decoding reads the language

A value is read from a document with some number of levels if and only if the
document is one of its documents and the value costs no more than that
(`readsValues`). Both directions are one induction on the number of levels: what
lists and dictionaries read refers to values with fewer levels, and neither the
language nor the grammar has to be taken apart any further.

The ordered choice needs a word. A document may only be given to the list rule if
the rules for integers and strings have failed on it, and that takes levels as
well. They are told apart by the first byte of a document, and seeing that a rule
fails there never takes more levels than reading the value does.
-/

namespace Packrat.Bencode

open Decimal (isDigit)
open Semantics Nodes

variable {input : Array UInt8} {pos stop n : Nat} {token : Token}

theorem Text.head {payload doc : List UInt8} (h : Text payload doc)
    (hreads : Reads input pos doc stop) : ∃ b, input[pos]? = some b ∧ isDigit b = true := by
  cases h with
  | @text ds _ hnumeral =>
      cases ds with
      | nil => exact absurd rfl hnumeral.ne_nil
      | cons b ds => exact ⟨b, hreads.head, hnumeral.digits b List.mem_cons_self⟩

/-! ## Where a value ends -/

theorem list_needs : Needs grammar l 1 Nodes.list := .through list_eq rfl .self

theorem dictionary_needs : Needs grammar d 1 dictionary := .through dictionary_eq rfl .self

theorem pair_needs : Needs grammar lengthDigit 5 pair := .through pair_eq rfl string_needs

/-- No value begins with an `e`, and six levels show it. -/
theorem any_fails_at_e_iff (he : input[pos]? = some 0x65) :
    (∃ failure, YieldsWithin grammar input n any pos (.failed failure)) ↔ 6 ≤ n := by
  constructor
  · rintro ⟨failure, hstep⟩
    obtain ⟨m, rfl⟩ := hstep.exists_pred
    obtain ⟨_, hstring⟩ := (choice_fails_iff any_eq).mp ⟨failure, hstep⟩ string (by simp)
    have hlevels := string_needs.lt hstring
    omega
  · intro hlevels
    obtain ⟨m, rfl⟩ : ∃ m, n = m + 1 := ⟨n - 1, by omega⟩
    refine (choice_fails_iff any_eq).mpr ?_
    simp only [List.forall_mem_cons, List.not_mem_nil, false_implies, implies_true, and_true]
    refine ⟨?_, ?_, ?_, ?_⟩
    · exact integer_needs.fails_of_head i_eq (by omega) he (by decide)
    · exact fails_of_needs_digit lengthNodes string_needs (by omega) (EndsAt.of_head he rfl)
    · exact list_needs.fails_of_head l_eq (by omega) he (by decide)
    · exact dictionary_needs.fails_of_head d_eq (by omega) he (by decide)

theorem placeholder_fails_at_e_iff (he : input[pos]? = some 0x65) :
    (∃ failure, YieldsWithin grammar input n placeholder pos (.failed failure)) ↔ 7 ≤ n := by
  cases n with
  | zero =>
      constructor
      · rintro ⟨_, ⟨⟩⟩
      · intro h; omega
  | succ m =>
      simp only [indirect_iff placeholder_eq]
      rw [any_fails_at_e_iff he]
      omega

theorem pair_fails_at_e_iff (he : input[pos]? = some 0x65) :
    (∃ failure, YieldsWithin grammar input n pair pos (.failed failure)) ↔ 6 ≤ n := by
  constructor
  · rintro ⟨failure, hstep⟩
    exact pair_needs.lt hstep
  · intro hlevels
    exact fails_of_needs_digit lengthNodes pair_needs (by omega) (EndsAt.of_head he rfl)

/-! ## Inside lists and dictionaries -/

/-- Reading any value with `n` levels reads the values that cost no more. -/
def ReadsValues (input : Array UInt8) (n : Nat) : Prop :=
  ∀ pos token stop, YieldsWithin grammar input n any pos (.matched token stop) ↔
    ∃ v doc, (Document v doc ∧ cost v ≤ n) ∧ token = toToken v ∧ Reads input pos doc stop

theorem placeholder_matched_iff (ih : ∀ m < n, ReadsValues input m) :
    YieldsWithin grammar input n placeholder pos (.matched token stop) ↔
      ∃ v doc, (Document v doc ∧ cost v + 1 ≤ n) ∧ token = toToken v ∧
        Reads input pos doc stop := by
  cases n with
  | zero =>
      constructor
      · rintro ⟨⟩
      · rintro ⟨v, doc, ⟨_, hcost⟩, _⟩
        omega
  | succ m =>
      rw [indirect_iff placeholder_eq, ih m (Nat.lt_succ_self m)]
      simp only [Nat.add_le_add_iff_right]

/-- The documents of an entry whose value, two levels below, costs at most `n`. -/
def EntryWithin (n : Nat) (entry : List UInt8 × Bencode) (part : List UInt8) : Prop :=
  ∃ keyDoc doc, Text entry.1 keyDoc ∧ Document entry.2 doc ∧ cost entry.2 + 2 ≤ n ∧
    part = keyDoc ++ doc

theorem pair_matched_iff (hsize : input.size < UInt64.size)
    (ih : ∀ m < n, ReadsValues input m) :
    YieldsWithin grammar input n pair pos (.matched token stop) ↔
      ∃ entry part, EntryWithin n entry part ∧ token = entryToken entry ∧
        Reads input pos part stop := by
  constructor
  · intro hmatched
    obtain ⟨m, rfl⟩ := hmatched.exists_pred
    obtain ⟨tokens, hmembers, rfl⟩ := (sequence_matched_iff pair_eq).mp hmatched
    simp only [members_cons_iff, members_nil_iff] at hmembers
    obtain ⟨_, mid, _, hkey, ⟨_, _, _, hvalue, ⟨rfl, rfl⟩, rfl⟩, rfl⟩ := hmembers
    obtain ⟨_, key, keyDoc, htext, rfl, hreads⟩ := (string_matched_iff hsize).mp hkey
    obtain ⟨v, doc, ⟨hdoc, hcost⟩, rfl, hreads'⟩ :=
      (placeholder_matched_iff fun k hk => ih k (by omega)).mp hvalue
    have hcost' : cost v + 2 ≤ m + 1 := by omega
    exact ⟨(key, v), keyDoc ++ doc, ⟨keyDoc, doc, htext, hdoc, hcost', rfl⟩, rfl,
      hreads.append hreads'⟩
  · rintro ⟨⟨key, v⟩, _, ⟨keyDoc, doc, htext, hdoc, hcost, rfl⟩, rfl, hreads⟩
    dsimp only at htext hdoc hcost
    obtain ⟨m, rfl⟩ : ∃ m, n = m + 1 := ⟨n - 1, by omega⟩
    obtain ⟨mid, hkey, hvalue⟩ := hreads.split
    have hsix := six_le_cost v
    have hkeyStep : YieldsWithin grammar input m string pos (.matched (.bytes key) mid) :=
      (string_matched_iff hsize).mpr ⟨by omega, key, keyDoc, htext, rfl, hkey⟩
    have hvalueStep : YieldsWithin grammar input m placeholder mid
        (.matched (toToken v) stop) :=
      (placeholder_matched_iff fun k hk => ih k (by omega)).mpr
        ⟨v, doc, ⟨hdoc, by omega⟩, rfl, hvalue⟩
    exact (sequence_matched_iff pair_eq).mpr ⟨_, .cons hkeyStep (.cons hvalueStep .nil), rfl⟩

theorem strung_documents_iff {items : List Bencode} {body : List UInt8} (hn : 1 ≤ n) :
    Strung (fun v doc => Document v doc ∧ cost v + 1 ≤ n) items body ↔
      Documents items body ∧ costs items + 1 ≤ n := by
  constructor
  · intro h
    induction h with
    | nil => exact ⟨.nil, by rw [costs]; omega⟩
    | cons hv _ ih =>
        obtain ⟨hdoc, hcost⟩ := hv
        refine ⟨.cons hdoc ih.1, ?_⟩
        rw [costs]
        omega
  · rintro ⟨hdocs, hcosts⟩
    induction items generalizing body with
    | nil => cases hdocs; exact .nil
    | cons v items ih =>
        rw [costs] at hcosts
        cases hdocs with
        | cons hdoc hrest => exact .cons ⟨hdoc, by omega⟩ (ih hrest (by omega))

theorem strung_entries_iff {entries : List (List UInt8 × Bencode)} {body : List UInt8}
    (hn : 2 ≤ n) :
    Strung (EntryWithin n) entries body ↔
      Entries entries body ∧ entryCosts entries + 2 ≤ n := by
  constructor
  · intro h
    induction h with
    | nil => exact ⟨.nil, by rw [entryCosts]; omega⟩
    | cons hentry _ ih =>
        obtain ⟨keyDoc, doc, htext, hdoc, hcost, rfl⟩ := hentry
        refine ⟨.cons htext hdoc ih.1, ?_⟩
        rw [entryCosts]
        omega
  · rintro ⟨hentries, hcosts⟩
    induction entries generalizing body with
    | nil => cases hentries; exact .nil
    | cons entry entries ih =>
        cases hentries with
        | @cons key v _ _ _ _ htext hdoc hrest =>
            rw [entryCosts] at hcosts
            have hcost : cost v + 2 ≤ n := by omega
            exact .cons ⟨_, _, htext, hdoc, hcost, rfl⟩ (ih hrest (by omega))

theorem list_matched_iff (ih : ∀ m < n, ReadsValues input m) :
    YieldsWithin grammar input n Nodes.list pos (.matched token stop) ↔
      9 ≤ n ∧ ∃ items body, Documents items body ∧ costs items + 3 ≤ n ∧
        token = toToken (.list items) ∧ Reads input pos (0x6c :: (body ++ [0x65])) stop := by
  have hcontainer : ∀ k, n = k + 2 →
      (YieldsWithin grammar input (k + 2) Nodes.list pos (.matched token stop) ↔ _) :=
    fun k hk => container_matched_iff l_eq list_eq items_eq
      (fun _ _ hv => hv.1.ne_nil)
      (fun _ _ _ => placeholder_matched_iff fun m hm => ih m (by omega))
      (fun _ he => placeholder_fails_at_e_iff he)
  constructor
  · intro hmatched
    have hlevels := list_needs.lt hmatched
    obtain ⟨k, rfl⟩ : ∃ k, n = k + 2 := ⟨n - 2, by omega⟩
    obtain ⟨hleast, items, body, hstrung, rfl, hreads⟩ := (hcontainer k rfl).mp hmatched
    obtain ⟨hdocs, hcosts⟩ := (strung_documents_iff (by omega)).mp hstrung
    refine ⟨by omega, items, body, hdocs, by omega, ?_, hreads⟩
    rw [toToken, toTokens_eq_map]
  · rintro ⟨hleast, items, body, hdocs, hcosts, rfl, hreads⟩
    obtain ⟨k, rfl⟩ : ∃ k, n = k + 2 := ⟨n - 2, by omega⟩
    refine (hcontainer k rfl).mpr ⟨by omega, items, body, ?_, ?_, hreads⟩
    · exact (strung_documents_iff (by omega)).mpr ⟨hdocs, by omega⟩
    · rw [toToken, toTokens_eq_map]

theorem dictionary_matched_iff (hsize : input.size < UInt64.size)
    (ih : ∀ m < n, ReadsValues input m) :
    YieldsWithin grammar input n dictionary pos (.matched token stop) ↔
      8 ≤ n ∧ ∃ entries body, Entries entries body ∧ entryCosts entries + 4 ≤ n ∧
        token = toToken (.dict entries) ∧ Reads input pos (0x64 :: (body ++ [0x65])) stop := by
  have hnonempty : ∀ m entry part, EntryWithin m entry part → part ≠ [] := by
    rintro m entry _ ⟨_, _, htext, _, _, rfl⟩
    exact List.append_ne_nil_of_left_ne_nil htext.ne_nil _
  have hcontainer : ∀ k, n = k + 2 →
      (YieldsWithin grammar input (k + 2) dictionary pos (.matched token stop) ↔ _) :=
    fun k hk => container_matched_iff d_eq dictionary_eq pairs_eq (hnonempty k)
      (fun _ _ _ => pair_matched_iff hsize fun m hm => ih m (by omega))
      (fun _ he => pair_fails_at_e_iff he)
  constructor
  · intro hmatched
    have hlevels := dictionary_needs.lt hmatched
    obtain ⟨k, rfl⟩ : ∃ k, n = k + 2 := ⟨n - 2, by omega⟩
    obtain ⟨hleast, entries, body, hstrung, rfl, hreads⟩ := (hcontainer k rfl).mp hmatched
    obtain ⟨hentries, hcosts⟩ := (strung_entries_iff (by omega)).mp hstrung
    refine ⟨by omega, entries, body, hentries, by omega, ?_, hreads⟩
    rw [toToken, entryTokens_eq_map]
  · rintro ⟨hleast, entries, body, hentries, hcosts, rfl, hreads⟩
    obtain ⟨k, rfl⟩ : ∃ k, n = k + 2 := ⟨n - 2, by omega⟩
    refine (hcontainer k rfl).mpr ⟨by omega, entries, body, ?_, ?_, hreads⟩
    · exact (strung_entries_iff (by omega)).mpr ⟨hentries, by omega⟩
    · rw [toToken, entryTokens_eq_map]

/-! ## Values -/

/-- What a rule of the choice reads is a document of a value, one level further up. -/
theorem matched_alternatives (hsize : input.size < UInt64.size)
    (ih : ∀ m < n, ReadsValues input m)
    {id : NodeId} (hid : id ∈ [integer, string, Nodes.list, dictionary])
    (h : YieldsWithin grammar input n id pos (.matched token stop)) :
    ∃ v doc, (Document v doc ∧ cost v ≤ n + 1) ∧ token = toToken v ∧
      Reads input pos doc stop := by
  simp only [List.mem_cons, List.not_mem_nil, or_false] at hid
  rcases hid with rfl | rfl | rfl | rfl
  · obtain ⟨hlevels, negative, ds, value, hnumeral, hvalue, rfl, hreads⟩ :=
      integer_matched_iff.mp h
    exact ⟨.int value, _, ⟨.int hnumeral hvalue, by rw [cost]; omega⟩, rfl, hreads⟩
  · obtain ⟨hlevels, payload, doc, htext, rfl, hreads⟩ := (string_matched_iff hsize).mp h
    exact ⟨.bytes payload, doc, ⟨.bytes htext, by rw [cost]; omega⟩, by rw [toToken], hreads⟩
  · obtain ⟨hlevels, items, body, hdocs, hcosts, rfl, hreads⟩ := (list_matched_iff ih).mp h
    exact ⟨.list items, _, ⟨.list hdocs, cost_list_le_iff.mpr ⟨by omega, by omega⟩⟩, rfl,
      hreads⟩
  · obtain ⟨hlevels, entries, body, hentries, hcosts, rfl, hreads⟩ :=
      (dictionary_matched_iff hsize ih).mp h
    exact ⟨.dict entries, _, ⟨.dict hentries, cost_dict_le_iff.mpr ⟨by omega, by omega⟩⟩, rfl,
      hreads⟩

/-- A value is read by its own rule, after those before it have failed on the first
byte. -/
theorem firstMatches_of_document (hsize : input.size < UInt64.size)
    (ih : ∀ m < n, ReadsValues input m) {v : Bencode} {doc : List UInt8} (hdoc : Document v doc)
    (hcost : cost v ≤ n + 1) (hreads : Reads input pos doc stop) :
    FirstMatches (YieldsWithin grammar input n) [integer, string, Nodes.list, dictionary] pos
      (toToken v) stop := by
  -- the first byte tells the rules apart, and there are levels enough to see it
  have hsix := six_le_cost v
  have hinteger : ∀ {b}, input[pos]? = some b → b ≠ 0x69 →
      ∃ failure, YieldsWithin grammar input n integer pos (.failed failure) :=
    fun hb hne => integer_needs.fails_of_head i_eq (by omega) hb hne
  have hstring : ∀ {b}, input[pos]? = some b → isDigit b = false →
      ∃ failure, YieldsWithin grammar input n string pos (.failed failure) :=
    fun hb hdigit => fails_of_needs_digit lengthNodes string_needs (by omega)
      (EndsAt.of_head hb hdigit)
  have hlist : ∀ {b}, input[pos]? = some b → b ≠ 0x6c →
      ∃ failure, YieldsWithin grammar input n Nodes.list pos (.failed failure) :=
    fun hb hne => list_needs.fails_of_head l_eq (by omega) hb hne
  simp only [firstMatches_cons_iff, not_firstMatches_nil, and_false, or_false]
  cases hdoc with
  | int hnumeral hvalue =>
      exact .inl (integer_matched_iff.mpr ⟨by omega, _, _, _, hnumeral, hvalue, rfl, hreads⟩)
  | bytes htext =>
      obtain ⟨b, hb, hdigit⟩ := htext.head hreads
      have hne : b ≠ 0x69 := by
        rintro rfl
        cases hdigit
      refine .inr ⟨hinteger hb hne, .inl ((string_matched_iff hsize).mpr ?_)⟩
      exact ⟨by omega, _, _, htext, by rw [toToken], hreads⟩
  | list hdocs =>
      have hb := hreads.head
      obtain ⟨hten, hcosts⟩ := cost_list_le_iff.mp hcost
      refine .inr ⟨hinteger hb (by decide), .inr ⟨hstring hb rfl, .inl ?_⟩⟩
      exact (list_matched_iff ih).mpr ⟨by omega, _, _, hdocs, by omega, rfl, hreads⟩
  | dict hentries =>
      have hb := hreads.head
      obtain ⟨hnine, hcosts⟩ := cost_dict_le_iff.mp hcost
      refine .inr ⟨hinteger hb (by decide), .inr ⟨hstring hb rfl,
        .inr ⟨hlist hb (by decide), ?_⟩⟩⟩
      exact (dictionary_matched_iff hsize ih).mpr
        ⟨by omega, _, _, hentries, by omega, rfl, hreads⟩

theorem readsValues (hsize : input.size < UInt64.size) (n : Nat) : ReadsValues input n := by
  induction n using Nat.strongRecOn with
  | _ n ih =>
      intro pos token stop
      cases n with
      | zero =>
          constructor
          · rintro ⟨⟩
          · rintro ⟨v, doc, ⟨_, hcost⟩, _⟩
            have hsix := six_le_cost v
            omega
      | succ m =>
          -- a container spends levels of its own before it comes to a value again
          have ih' : ∀ k < m, ReadsValues input k := fun k hk => ih k (by omega)
          rw [choice_matched_iff any_eq]
          constructor
          · intro hfirst
            obtain ⟨id, hid, hmatched⟩ := hfirst.exists_mem
            exact matched_alternatives hsize ih' hid hmatched
          · rintro ⟨v, doc, ⟨hdoc, hcost⟩, rfl, hreads⟩
            exact firstMatches_of_document hsize ih' hdoc hcost hreads

/-! ## Whole documents -/

section WholeDocuments

variable {doc : List UInt8} {v w : Bencode}

theorem reads_whole (doc : List UInt8) : Reads doc.toArray 0 doc doc.length := Reads.whole

/-- A value is read from each of its documents, on as many levels as it costs. -/
theorem Document.yieldsWithin (hdoc : Document v doc) (hsize : doc.length < UInt64.size)
    (hcost : cost v ≤ n) :
    YieldsWithin grammar doc.toArray n any 0 (.matched (toToken v) doc.length) :=
  (readsValues hsize n 0 _ _).mpr ⟨v, doc, ⟨hdoc, hcost⟩, rfl, reads_whole doc⟩

theorem document_of_yieldsWithin (hsize : doc.length < UInt64.size)
    (h : YieldsWithin grammar doc.toArray n any 0 (.matched token doc.length)) :
    ∃ v, (Document v doc ∧ cost v ≤ n) ∧ token = toToken v := by
  obtain ⟨v, part, hpart, htoken, hreads⟩ := (readsValues hsize n 0 _ _).mp h
  rw [hreads.unique (reads_whole doc)] at hpart
  exact ⟨v, hpart, htoken⟩

theorem yields_any_unique {step step' : Step} (h : Yields grammar doc.toArray any 0 step)
    (h' : Yields grammar doc.toArray any 0 step') : step = step' :=
  h.unique grammar_wellFormed rfl (Nat.zero_le _) h'

/-- No document has two values. -/
theorem Document.value_unique (hv : Document v doc) (hw : Document w doc)
    (hsize : doc.length < UInt64.size) : v = w := by
  have hsame := yields_any_unique
    (yields_of_yieldsWithin (hv.yieldsWithin hsize (Nat.le_refl _)))
    (yields_of_yieldsWithin (hw.yieldsWithin hsize (Nat.le_refl _)))
  injection hsame with htoken
  exact toToken_injective htoken

theorem decides_document (doc : List UInt8) :
    Decides (Walk.invoke ⟨grammar, doc.toArray, .strict⟩ 256 1 any 0)
      (YieldsWithin grammar doc.toArray 256 any 0) :=
  decides_invoke grammar_wellFormed rfl 1 rfl (Nat.zero_le _)

theorem decode_of_aborts {e : Error}
    (h : Walk.Aborts Walk.Unread (Walk.invoke ⟨grammar, doc.toArray, .strict⟩ 256 1 any 0) e) :
    decode doc = .error e := by
  have hrun : parser.run doc = .error e := Parser.runFrom_of_aborts rfl trivial h
  rw [decode, Parser.token, hrun]
  rfl

theorem decode_of_answers {step : Step} {found : Option Failure}
    (h : Walk.Answers Walk.Unread (Walk.invoke ⟨grammar, doc.toArray, .strict⟩ 256 1 any 0)
      step found) :
    decode doc = ((parser.verdict doc.length step found).map Parsed.token).bind ofToken := by
  have hrun : parser.run doc = parser.verdict doc.length step found :=
    Parser.runFrom_of_answers rfl trivial h
  rw [decode, Parser.token, hrun]

theorem decode_of_document (hdoc : Document v doc) (hsize : doc.length < UInt64.size)
    (hcost : cost v ≤ 256) : decode doc = .ok v := by
  obtain ⟨found, hrun⟩ :=
    (decides_document doc).answers_iff.mpr (hdoc.yieldsWithin hsize hcost)
  rw [decode_of_answers hrun, Parser.verdict_whole]
  exact ofToken_toToken v

theorem document_of_decode (h : decode doc = .ok v) (hsize : doc.length < UInt64.size) :
    Document v doc ∧ cost v ≤ 256 := by
  cases decides_document doc with
  | aborts e run _ =>
      rw [decode_of_aborts run] at h
      cases h
  | answers step found run holds =>
      rw [decode_of_answers run] at h
      cases step with
      | failed failure => cases h
      | matched token stop =>
          have hwithin := step_within grammar_wellFormed rfl rfl (Nat.zero_le _) run
          by_cases hlt : stop < doc.length
          · rw [Parser.verdict_trailing rfl hlt] at h
            cases h
          · obtain rfl : stop = doc.length := Nat.le_antisymm hwithin.2 (Nat.le_of_not_lt hlt)
            obtain ⟨w, hw, rfl⟩ := document_of_yieldsWithin hsize ((holds _).mpr rfl)
            rw [Parser.verdict_whole] at h
            have hvalue : ofToken (toToken w) = .ok v := h
            rw [ofToken_toToken] at hvalue
            cases hvalue
            exact hw

/-- A value that costs too much ends the walk at the limit, and not in any other
way. -/
theorem decode_of_costly (hdoc : Document v doc) (hsize : doc.length < UInt64.size)
    (hcost : 256 < cost v) :
    ∃ p ≤ doc.length, decode doc = .error (.located (.recursionLimit 256) p) := by
  have hyields : Yields grammar doc.toArray any 0 (.matched (toToken v) doc.length) :=
    yields_of_yieldsWithin (hdoc.yieldsWithin hsize (Nat.le_refl _))
  cases decides_document doc with
  | answers step found run holds =>
      -- it would be the step that is yielded with more levels, of the same value
      have hstep : YieldsWithin grammar doc.toArray 256 any 0 step := (holds step).mpr rfl
      rw [yields_any_unique (yields_of_yieldsWithin hstep) hyields] at hstep
      obtain ⟨w, hw, htoken⟩ := document_of_yieldsWithin hsize hstep
      rw [toToken_injective htoken] at hcost
      omega
  | aborts e run _ =>
      rcases gives_up_cases grammar_wellFormed rfl rfl (Nat.zero_le _) run with
        ⟨p, hp, rfl⟩ | ⟨_, _, _, _, hnothing⟩
      · exact ⟨p, hp, decode_of_aborts run⟩
      · exact absurd hyields (hnothing _)

end WholeDocuments

/-- Decoding accepts the documents of the values that cost no more than the depth
limit, and answers the value. On a document of a value that costs more it runs into
the limit. No document has two values. A document is a byte string in memory, so
its length is a 64-bit number. -/
theorem decode_eq_ok_iff (doc : List UInt8) (hsize : doc.length < UInt64.size) :
    (∀ v, decode doc = .ok v ↔ Document v doc ∧ cost v ≤ 256) ∧
      (∀ v, Document v doc → 256 < cost v →
        ∃ p ≤ doc.length, decode doc = .error (.located (.recursionLimit 256) p)) ∧
      ∀ v w, Document v doc → Document w doc → v = w := by
  refine ⟨fun v => ⟨?_, ?_⟩, ?_, ?_⟩
  · exact fun h => document_of_decode h hsize
  · exact fun ⟨hdoc, hcost⟩ => decode_of_document hdoc hsize hcost
  · exact fun v hdoc hcost => decode_of_costly hdoc hsize hcost
  · exact fun v w hv hw => hv.value_unique hw hsize

/-- A minus in front of zero and a length with a leading zero. -/
theorem decode_eq_ok_iff_zeros :
    decode [0x6c, 0x69, 0x2d, 0x30, 0x65, 0x30, 0x31, 0x3a, 0x78, 0x65] =
      .ok (.list [.int 0, .bytes [0x78]]) := by
  have hzero : Document (.int 0) [0x69, 0x2d, 0x30, 0x65] :=
    @Document.int 0 true [0x30] ⟨nofun, List.all_eq_true.mp rfl⟩ rfl
  have htext : Document (.bytes [0x78]) [0x30, 0x31, 0x3a, 0x78] :=
    .bytes (@Text.text [0x30, 0x31] [0x78] ⟨nofun, List.all_eq_true.mp rfl⟩ rfl)
  have hlist : Document (.list [.int 0, .bytes [0x78]])
      [0x6c, 0x69, 0x2d, 0x30, 0x65, 0x30, 0x31, 0x3a, 0x78, 0x65] :=
    .list (.cons hzero (.cons htext .nil))
  exact ((decode_eq_ok_iff _ (by decide)).1 _).mpr ⟨hlist, by decide⟩

end Packrat.Bencode
