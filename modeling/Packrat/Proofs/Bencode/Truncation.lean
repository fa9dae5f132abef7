import Packrat.Proofs.Bencode.Decoding
import Packrat.Proofs.Bencode.Progress
import Packrat.Proofs.Semantics.BreaksOff
import Packrat.Proofs.Walk.Ends

/-!
# Documents delimit themselves

A document tells where it ends. What comes behind it is never looked at, so it is left
over; and a document that is cut short is not read as something else, wherever the cut is.

The second part has two sides. That nothing matches on a truncated document follows from
the uniqueness of what is yielded: no document is the front of another one
(`Document.eq_of_isPrefix`), since on the longer one the grammar would have to stop at both
ends. That the parse does not run into the depth limit instead takes an induction over the
value. At the cut a value is broken off, and all around it are the fronts of lists and
dictionaries, each of which is read up to the element that breaks off; the levels that were
enough for the whole element are enough to see it fail. The end of the input takes six
levels, which is what a value has in any case.
-/

namespace Packrat.Bencode

open Decimal (isDigit)
open Semantics Nodes

variable {input : Array UInt8} {pos stop n : Nat} {token : Token} {v w : Bencode}
  {doc part : List UInt8}

/-! ## No document is the front of another -/

theorem reads_front (h : part <+: doc) : Reads doc.toArray 0 part part.length := by
  obtain ⟨rest, rfl⟩ := h
  obtain ⟨mid, hreads, _⟩ := (reads_whole (part ++ rest)).split
  have hmid := hreads.stop_eq
  rw [Nat.zero_add] at hmid
  exact hmid ▸ hreads

theorem Document.eq_of_isPrefix (hv : Document v doc) (hw : Document w part)
    (hsize : doc.length < UInt64.size) (h : part <+: doc) : part = doc := by
  have hreads : Reads doc.toArray 0 part part.length := reads_front h
  have hpart : YieldsWithin grammar doc.toArray (cost w) any 0
      (.matched (toToken w) part.length) :=
    (readsValues hsize _ 0 _ _).mpr ⟨w, part, ⟨hw, Nat.le_refl _⟩, rfl, hreads⟩
  have hsame := yields_any_unique (yields_of_yieldsWithin hpart)
    (yields_of_yieldsWithin (hv.yieldsWithin hsize (Nat.le_refl _)))
  injection hsame with _ hlength
  exact h.eq_of_length hlength

theorem not_matched_of_breaksOff (hv : Document v doc) (hsize : input.size < UInt64.size)
    (h : BreaksOff input pos doc) :
    ¬ YieldsWithin grammar input n any pos (.matched token stop) := by
  intro hmatched
  obtain ⟨w, part, ⟨hw, _⟩, _, hreads⟩ := (readsValues hsize n pos token stop).mp hmatched
  obtain ⟨hfront, hne⟩ := h.isPrefix_of_reads hreads
  exact hne (hv.eq_of_isPrefix hw h.short hfront)

/-! ## Enough levels to see a value break off -/

theorem EntryWithin.ne_nil {entry : List UInt8 × Bencode} (h : EntryWithin n entry part) :
    part ≠ [] := by
  obtain ⟨_, _, htext, _, _, rfl⟩ := h
  exact List.append_ne_nil_of_left_ne_nil htext.ne_nil _

theorem Text.digit_of_breaksOff {payload : List UInt8} {b : UInt8} (hdoc : Text payload doc)
    (h : BreaksOff input pos doc) (hb : input[pos]? = some b) : isDigit b = true := by
  cases hdoc with
  | @text ds _ hnumeral =>
      cases ds with
      | nil => exact absurd rfl hnumeral.ne_nil
      | cons d ds =>
          rw [(h.of_head hb).1]
          exact hnumeral.digits d List.mem_cons_self

/-- Every broken value that costs at most `n` is seen to fail with `n` levels. -/
def SeesBroken (input : Array UInt8) (n : Nat) : Prop :=
  ∀ v doc pos, Document v doc → cost v ≤ n → BreaksOff input pos doc →
    ∃ failure, YieldsWithin grammar input n any pos (.failed failure)

theorem placeholder_breaks (ih : ∀ m < n, SeesBroken input m) (hv : Document v doc)
    (hcost : cost v + 1 ≤ n) (h : BreaksOff input pos doc) :
    ∃ failure, YieldsWithin grammar input n placeholder pos (.failed failure) := by
  obtain ⟨m, rfl⟩ : ∃ m, n = m + 1 := ⟨n - 1, by omega⟩
  simp only [indirect_iff placeholder_eq]
  exact ih m (Nat.lt_succ_self m) v doc pos hv (by omega) h

theorem string_breaks {key keyDoc : List UInt8} (hkey : Text key keyDoc)
    (hsize : input.size < UInt64.size) (hlevels : 5 ≤ n) (h : BreaksOff input pos keyDoc) :
    ∃ failure, YieldsWithin grammar input n string pos (.failed failure) := by
  obtain ⟨m, rfl⟩ : ∃ m, n = m + 5 := ⟨n - 5, by omega⟩
  refine (string_settles h.pos_le).fails fun token stop hmatched => ?_
  obtain ⟨_, payload, part, htext, _, hreads⟩ := (string_matched_iff hsize).mp hmatched
  obtain ⟨hfront, hne⟩ := h.isPrefix_of_reads hreads
  exact hne (Document.eq_of_isPrefix (.bytes hkey) (.bytes htext) h.short hfront)

theorem pair_breaks (ih : ∀ m < n, SeesBroken input m) (hsize : input.size < UInt64.size)
    {entry : List UInt8 × Bencode} (hentry : EntryWithin n entry part)
    (h : BreaksOff input pos part) :
    ∃ failure, YieldsWithin grammar input n pair pos (.failed failure) := by
  obtain ⟨keyDoc, doc, hkey, hdoc, hcost, rfl⟩ := hentry
  have hsix := six_le_cost entry.2
  obtain ⟨m, rfl⟩ : ∃ m, n = m + 1 := ⟨n - 1, by omega⟩
  simp only [yieldsWithin_succ_iff pair_eq]
  rcases h.split with hbreaks | ⟨mid, hreads, hbreaks⟩
  · obtain ⟨failure, hstep⟩ :=
      string_breaks (n := m) hkey hsize (by omega) hbreaks
    exact ⟨failure, .sequence_fails (.here hstep)⟩
  · have hstring : YieldsWithin grammar input m string pos (.matched (.bytes entry.1) mid) :=
      (string_matched_iff hsize).mpr ⟨by omega, _, keyDoc, hkey, rfl, hreads⟩
    obtain ⟨failure, hstep⟩ :=
      placeholder_breaks (n := m) (fun k hk => ih k (by omega)) hdoc (by omega) hbreaks
    exact ⟨failure, .sequence_fails (.later hstring (.here hstep))⟩

theorem placeholder_fails_at_end (hsize : input.size < UInt64.size) (hlevels : 7 ≤ n) :
    ∃ failure, YieldsWithin grammar input n placeholder input.size (.failed failure) := by
  obtain ⟨m, rfl⟩ : ∃ m, n = m + 1 := ⟨n - 1, by omega⟩
  simp only [indirect_iff placeholder_eq]
  have hsettles : Settles grammar input m any input.size :=
    (any_settles (Nat.le_refl _)).mono (by omega)
  refine hsettles.fails fun token stop hmatched => ?_
  obtain ⟨v, part, ⟨hv, _⟩, _, hreads⟩ := (readsValues hsize m _ token stop).mp hmatched
  have hlength := List.length_pos_iff.mpr hv.ne_nil
  have hstop := hreads.stop_eq
  have hstop' := hreads.stop_le (Nat.le_refl _)
  omega

theorem pair_fails_at_end (hlevels : 6 ≤ n) :
    ∃ failure, YieldsWithin grammar input n pair input.size (.failed failure) :=
  fails_of_needs_digit lengthNodes pair_needs (by omega) (EndsAt.at_end _)

/-- The values of a list that breaks off are read up to the one that does. -/
theorem items_settles_broken (ih : ∀ m < n, SeesBroken input m)
    (hsize : input.size < UInt64.size) {values : List Bencode} {body : List UInt8}
    (hdocs : Documents values body) (hcosts : costs values + 1 ≤ n) (hleast : 7 ≤ n)
    (h : BreaksOff input pos (body ++ [0x65])) : Settles grammar input (n + 1) items pos := by
  have hstrung : Strung (fun v doc => Document v doc ∧ cost v + 1 ≤ n) values body :=
    (strung_documents_iff (by omega)).mpr ⟨hdocs, hcosts⟩
  obtain ⟨tokens, stop, hrounds⟩ : ∃ tokens stop,
      Rounds (YieldsWithin grammar input n) placeholder 0 none 0 pos tokens stop :=
    rounds_of_breaksOff (fun _ _ hv => hv.1.ne_nil)
      (fun _ _ _ => placeholder_matched_iff fun m _ => readsValues hsize m)
      (fun _ _ _ hv hbroken => placeholder_breaks ih hv.1 hv.2 hbroken)
      (placeholder_fails_at_end hsize hleast) hstrung h
  exact ⟨_, (many_matched_iff items_eq).mpr ⟨tokens, hrounds, Nat.zero_le _, rfl⟩⟩

/-- The entries of a dictionary that breaks off are read up to the one that does. -/
theorem pairs_settles_broken (ih : ∀ m < n, SeesBroken input m)
    (hsize : input.size < UInt64.size) {entries : List (List UInt8 × Bencode)}
    {body : List UInt8} (hentries : Entries entries body) (hcosts : entryCosts entries + 2 ≤ n)
    (hleast : 6 ≤ n) (h : BreaksOff input pos (body ++ [0x65])) :
    Settles grammar input (n + 1) pairs pos := by
  have hstrung : Strung (EntryWithin n) entries body :=
    (strung_entries_iff (by omega)).mpr ⟨hentries, hcosts⟩
  obtain ⟨tokens, stop, hrounds⟩ : ∃ tokens stop,
      Rounds (YieldsWithin grammar input n) pair 0 none 0 pos tokens stop :=
    rounds_of_breaksOff (fun _ _ => EntryWithin.ne_nil)
      (fun _ _ _ => pair_matched_iff hsize fun m _ => readsValues hsize m)
      (fun _ _ _ hentry hbroken => pair_breaks ih hsize hentry hbroken)
      (pair_fails_at_end hleast) hstrung h
  exact ⟨_, (many_matched_iff pairs_eq).mpr ⟨tokens, hrounds, Nat.zero_le _, rfl⟩⟩

theorem seesBroken (hsize : input.size < UInt64.size) (n : Nat) : SeesBroken input n := by
  induction n using Nat.strongRecOn with
  | _ n ih =>
      intro v doc pos hdoc hcost h
      have hsix := six_le_cost v
      refine Settles.fails ?_ fun _ _ => not_matched_of_breaksOff hdoc hsize h
      obtain ⟨k, rfl⟩ : ∃ k, n = k + 3 := ⟨n - 3, by omega⟩
      have ih' : ∀ m < k, SeesBroken input m := fun m hm => ih m (by omega)
      have hinteger : Settles grammar input (k + 2) integer pos :=
        (integer_settles (n := 0) h.pos_le).mono (by omega)
      have hstring : Settles grammar input (k + 2) string pos :=
        (string_settles (n := 0) h.pos_le).mono (by omega)
      -- behind an `l` there is a list that breaks off, and behind a `d` a dictionary
      have hlist : Settles grammar input (k + 2) Nodes.list pos := by
        refine bracketed_settles l_eq list_eq fun hb => ?_
        cases hdoc with
        | list hdocs =>
            obtain ⟨hten, hcosts⟩ := cost_list_le_iff.mp hcost
            exact items_settles_broken ih' hsize hdocs (by omega) (by omega) (h.of_head hb).2
        | bytes htext => exact absurd (htext.digit_of_breaksOff h hb) (by decide)
        | int | dict => exact absurd (h.of_head hb).1 (by decide)
      have hdictionary : Settles grammar input (k + 2) dictionary pos := by
        refine bracketed_settles d_eq dictionary_eq fun hb => ?_
        cases hdoc with
        | dict hentries =>
            obtain ⟨hnine, hcosts⟩ := cost_dict_le_iff.mp hcost
            exact pairs_settles_broken ih' hsize hentries (by omega) (by omega) (h.of_head hb).2
        | bytes htext => exact absurd (htext.digit_of_breaksOff h hb) (by decide)
        | int | list => exact absurd (h.of_head hb).1 (by decide)
      refine choice_settles any_eq ?_
      simp only [List.forall_mem_cons, List.not_mem_nil, false_implies, implies_true, and_true]
      exact ⟨hinteger, hstring, hlist, hdictionary⟩

/-! ## Whole documents -/

theorem decode_of_fails
    (h : ∃ failure, YieldsWithin grammar doc.toArray 256 any 0 (.failed failure)) :
    ∃ e, decode doc = .error e ∧ e.isFatal = false := by
  obtain ⟨failure, hstep⟩ := h
  obtain ⟨found, hrun⟩ := (decides_document doc).answers_iff.mpr hstep
  obtain ⟨s, hwalk, hfurthest, _⟩ := hrun ⟨none, ∅, #[]⟩ trivial
  rw [Walk.none_join] at hfurthest
  have hreport : Parser.conclude ⟨grammar, doc.toArray, .strict⟩ (.ok (.failed failure) s) =
      .error (.located (found.getD failure).kind (found.getD failure).position) := by
    rw [Parser.conclude, hfurthest]
  exact ⟨_, decode_of_answers hrun,
    Parser.ordinary_of_walk (p := ⟨grammar, .strict⟩) grammar_wellFormed rfl hwalk hreport⟩

/-- A document says where it ends: what stands behind it is left over, and if anything of
it is missing, it is no document of anything, and that does not take the depth limit to
find out. -/
theorem decode_self_delimiting {doc : List UInt8} {v : Bencode} (h : decode doc = .ok v)
    (hsize : doc.length < UInt64.size) :
    (∀ s, s ≠ [] → (doc ++ s).length < UInt64.size →
      decode (doc ++ s) = .error (.located (.trailingInput s.length) doc.length)) ∧
    ∀ p, p <+: doc → p ≠ doc → ∃ e, decode p = .error e ∧ e.isFatal = false := by
  obtain ⟨hdoc, hcost⟩ := document_of_decode h hsize
  constructor
  · intro s hs hlong
    have hreads : Reads (doc ++ s).toArray 0 doc doc.length :=
      reads_front (List.prefix_append doc s)
    have hstep : YieldsWithin grammar (doc ++ s).toArray 256 any 0
        (.matched (toToken v) doc.length) :=
      (readsValues hlong 256 0 _ _).mpr ⟨v, doc, ⟨hdoc, hcost⟩, rfl, hreads⟩
    obtain ⟨found, hrun⟩ := (decides_document (doc ++ s)).answers_iff.mpr hstep
    have hrest : (doc ++ s).length - doc.length = s.length := by
      rw [List.length_append, Nat.add_sub_cancel_left]
    have hlt : doc.length < (doc ++ s).length := by
      have hpositive := List.length_pos_iff.mpr hs
      rw [List.length_append]
      omega
    rw [decode_of_answers hrun, Parser.verdict_trailing rfl hlt, hrest]
    rfl
  · rintro p ⟨missing, rfl⟩ hne
    have hmissing : missing ≠ [] := by
      rintro rfl
      exact hne (List.append_nil p).symm
    have hshort : p.toArray.size < UInt64.size := by
      rw [List.length_append] at hsize
      rw [List.size_toArray]
      omega
    have hbroken : BreaksOff p.toArray 0 (p ++ missing) :=
      ⟨Nat.zero_le _, ⟨missing, hmissing, rfl⟩, hsize⟩
    exact decode_of_fails (seesBroken hshort 256 v _ 0 hdoc hcost hbroken)

/-- A dictionary in a list, with a list behind it, or cut inside its integer. -/
theorem decode_self_delimiting_nested :
    decode [0x6c, 0x64, 0x31, 0x3a, 0x6b, 0x69, 0x2d, 0x30, 0x65, 0x65, 0x65] =
        .ok (.list [.dict [([0x6b], .int 0)]]) ∧
      decode [0x6c, 0x64, 0x31, 0x3a, 0x6b, 0x69, 0x2d, 0x30, 0x65, 0x65, 0x65, 0x6c, 0x65] =
        .error (.located (.trailingInput 2) 11) ∧
      ∃ e, decode [0x6c, 0x64, 0x31, 0x3a, 0x6b, 0x69, 0x2d, 0x30] = .error e ∧
        e.isFatal = false := by
  have hkey : Text [0x6b] [0x31, 0x3a, 0x6b] :=
    @Text.text [0x31] [0x6b] ⟨nofun, List.all_eq_true.mp rfl⟩ rfl
  have hzero : Document (.int 0) [0x69, 0x2d, 0x30, 0x65] :=
    @Document.int 0 true [0x30] ⟨nofun, List.all_eq_true.mp rfl⟩ rfl
  have hdecode : decode [0x6c, 0x64, 0x31, 0x3a, 0x6b, 0x69, 0x2d, 0x30, 0x65, 0x65, 0x65] =
      .ok (.list [.dict [([0x6b], .int 0)]]) :=
    decode_of_document (.list (.cons (.dict (.cons hkey hzero .nil)) .nil)) (by decide) (by decide)
  obtain ⟨hbehind, hcut⟩ := decode_self_delimiting hdecode (by decide)
  exact ⟨hdecode, hbehind [0x6c, 0x65] nofun (by decide),
    hcut [0x6c, 0x64, 0x31, 0x3a, 0x6b, 0x69, 0x2d, 0x30] ⟨[0x65, 0x65, 0x65], rfl⟩ nofun⟩

end Packrat.Bencode
