import Mathlib.Data.Set.List
import Packrat.Proofs.Bencode.Decoding
import Packrat.Proofs.Bencode.Truncation
import Packrat.Proofs.Semantics.Events
import Packrat.Proofs.Walk.Positions

/-!
# How decoding can fail

The grammar and the step from tokens to values were written apart, and nothing but the
tokens is between them. What holds them together is a typing of nodes by the tokens that
they match with: the value node only ever matches with the token of a value, and a length
only ever is a count. The first means that the second step refuses nothing. The second
means that no walk is given a length that is none, and since all nodes come to a step, it
means that the depth limit is the only thing that cuts a walk off.

The typing is a fact about the meaning of the grammar, at any level and on any input. So
it holds of all parses, of those that stop early and of those that remember as well.
-/

namespace Packrat.Bencode

open Semantics Nodes

/-! ## The tokens of the value node -/

section Typing

variable {input : Array UInt8} {pos stop n : Nat} {token : Token}

theorem exists_payload_of_string
    (h : YieldsWithin grammar input n string pos (.matched token stop)) :
    ∃ payload, Token.bytes payload = token := by
  obtain ⟨m, rfl⟩ := h.exists_pred
  obtain ⟨_, _, _, payload, _, _, _, rfl, _⟩ :=
    (lengthBytes_matched_iff string_eq fun _ _ => lengthColon_stop_le).mp h
  exact ⟨payload, rfl⟩

/-- Between its letters a list or a dictionary has tokens of what it is made of. -/
theorem exists_inside {X : Type} {tokenOf : X → Token} {opening inner whole element : NodeId}
    {b : UInt8} (hopening : grammar.node? opening = some (.literal b))
    (hwhole : grammar.node? whole = some (.sequence [opening, inner, e]))
    (hinner : grammar.node? inner = some (.repeated element 0 none))
    (helement : ∀ m < n, ∀ p t next, YieldsWithin grammar input m element p (.matched t next) →
      ∃ x, tokenOf x = t)
    (h : YieldsWithin grammar input n whole pos (.matched token stop)) :
    ∃ xs : List X, token = .seq [.byte b, .seq (xs.map tokenOf), .byte 0x65] := by
  have hneeds : Needs grammar opening 1 whole := .through hwhole rfl .self
  have hlevels := hneeds.lt h
  obtain ⟨m, rfl⟩ : ∃ m, n = m + 2 := ⟨n - 2, by omega⟩
  obtain ⟨_, _, _, hmany, _, rfl⟩ := (bracketed_matched_iff hopening hwhole).mp h
  obtain ⟨tokens, hrounds, _, rfl⟩ := (many_matched_iff hinner).mp hmany
  have hall : tokens ∈ Set.range (List.map tokenOf) := by
    rw [Set.range_list_map]
    exact hrounds.forall_mem (helement m (by omega))
  obtain ⟨xs, rfl⟩ := hall
  exact ⟨xs, rfl⟩

/-- The value node matches with the token of a value. -/
theorem exists_value_of_any :
    YieldsWithin grammar input n any pos (.matched token stop) → ∃ v, toToken v = token := by
  induction n using Nat.strongRecOn generalizing pos token stop with
  | _ n ih =>
      intro h
      obtain ⟨n, rfl⟩ := h.exists_pred
      have hvalue : ∀ m ≤ n, ∀ p t next,
          YieldsWithin grammar input m placeholder p (.matched t next) → ∃ v, toToken v = t := by
        intro m hm p t next hstep
        obtain ⟨k, rfl⟩ := hstep.exists_pred
        exact ih k (by omega) ((indirect_iff placeholder_eq).mp hstep)
      have hentry : ∀ m ≤ n, ∀ p t next,
          YieldsWithin grammar input m pair p (.matched t next) → ∃ x, entryToken x = t := by
        intro m hm p t next hstep
        obtain ⟨k, rfl⟩ := hstep.exists_pred
        obtain ⟨tokens, hmembers, rfl⟩ := (sequence_matched_iff pair_eq).mp hstep
        simp only [members_cons_iff, members_nil_iff] at hmembers
        obtain ⟨_, _, _, hkey, ⟨_, _, _, hinside, ⟨rfl, rfl⟩, rfl⟩, rfl⟩ := hmembers
        obtain ⟨key, rfl⟩ := exists_payload_of_string hkey
        obtain ⟨v, rfl⟩ := hvalue k (by omega) _ _ _ hinside
        exact ⟨(key, v), rfl⟩
      obtain ⟨id, hid, hstep⟩ := ((choice_matched_iff any_eq).mp h).exists_mem
      simp only [List.mem_cons, List.not_mem_nil, or_false] at hid
      rcases hid with rfl | rfl | rfl | rfl
      · obtain ⟨_, _, _, value, _, _, rfl, _⟩ := integer_matched_iff.mp hstep
        exact ⟨.int value, rfl⟩
      · obtain ⟨payload, rfl⟩ := exists_payload_of_string hstep
        exact ⟨.bytes payload, by rw [toToken]⟩
      · obtain ⟨items, rfl⟩ := exists_inside l_eq list_eq items_eq
          (fun m hm => hvalue m (Nat.le_of_lt hm)) hstep
        exact ⟨.list items, by rw [toToken, toTokens_eq_map]⟩
      · obtain ⟨entries, rfl⟩ := exists_inside d_eq dictionary_eq pairs_eq
          (fun m hm => hentry m (Nat.le_of_lt hm)) hstep
        exact ⟨.dict entries, by rw [toToken, entryTokens_eq_map]⟩

/-- So there is a value to make of it. -/
theorem ofToken_of_yields (h : Yields grammar input any pos (.matched token stop)) :
    ∃ v, ofToken token = .ok v := by
  obtain ⟨n, hn⟩ := yields_iff_yieldsWithin.mp h
  obtain ⟨v, rfl⟩ := exists_value_of_any hn
  exact ⟨v, ofToken_toToken v⟩

theorem count_of_yields (h : Yields grammar input lengthColon pos (.matched token stop)) :
    ∃ count, token = .uint count := by
  obtain ⟨n, hn⟩ := yields_iff_yieldsWithin.mp h
  exact exists_count_of_lengthColon hn

end Typing

/-! ## Parses -/

section Parses

variable {config : Config} {start : NodeId} {input : List UInt8} {e : Error}

theorem grammar_total {input : Array UInt8} {id : NodeId} {pos : Nat}
    (hid : grammar.contains id = true) (hpos : pos ≤ input.size) :
    ∃ step, Yields grammar input id pos step := by
  obtain ⟨n, step, hstep⟩ := exists_settles hid hpos
  exact ⟨step, yields_of_yieldsWithin hstep⟩

/-- Nothing cuts a parse off but the depth limit. -/
theorem limit_of_fatal (hstart : grammar.contains start = true)
    (h : Parser.runFrom ⟨grammar, config⟩ start input = .error e) (hfatal : e.isFatal = true) :
    e.kind = .recursionLimit config.maxDepth := by
  rw [Parser.runFrom_of_contains hstart] at h
  cases hwalk : Parser.walk ⟨grammar, config⟩ start input with
  | error e' s =>
      rw [hwalk] at h
      cases h
      exact invoke_aborts_at_limit grammar_wellFormed (fun _ _ => grammar_total) 1 hstart
        (Nat.zero_le _) yielded_empty hwalk
  | ok step s =>
      rw [hwalk] at h
      rw [Parser.ordinary_of_walk grammar_wellFormed hstart hwalk h] at hfatal
      cases hfatal

theorem not_invalidLength (hstart : grammar.contains start = true)
    (h : Parser.runFrom ⟨grammar, config⟩ start input = .error e) (found : Token.Shape) :
    e.kind ≠ .invalidLength found := by
  intro hkind
  have hlimit := limit_of_fatal hstart h (by rw [Error.isFatal, hkind]; rfl)
  rw [hkind] at hlimit
  cases hlimit

/-- A match that is seen is a match of the node, and its token is what the node is for. -/
theorem typed_of_seen {id : NodeId} {pos stop depth : Nat}
    (h : .matched id pos stop depth ∈ (Parser.watch ⟨grammar, config⟩ start input).2) :
    ∃ token, Yields grammar input.toArray id pos (.matched token stop) ∧
      (id = rules.value → ∃ v, ofToken token = .ok v) ∧
      (id = lengthColon → ∃ count, token = .uint count) := by
  obtain ⟨token, hyields⟩ := Parser.watch_tells grammar_wellFormed _ h
  refine ⟨token, hyields, ?_, ?_⟩
  · rintro rfl
    exact ofToken_of_yields hyields
  · rintro rfl
    exact count_of_yields hyields

theorem ofToken_of_parsed {parsed : Parsed}
    (h : Parser.runFrom ⟨grammar, config⟩ rules.value input = .ok parsed) :
    ∃ v, ofToken parsed.token = .ok v := by
  obtain ⟨hstart, s, hwalk⟩ := Parser.walk_of_runFrom_ok h
  exact ofToken_of_yields
    (invoke_yields grammar_wellFormed hstart (Nat.zero_le _) yielded_empty hwalk).1

end Parses

/-! ## Documents -/

/-- The errors that decoding reports on a byte string of `size` bytes. -/
structure DecodingError (size : Nat) (e : Error) : Prop where
  inside : ∃ p ≤ size, e.position = some p
  token_expected : ∀ expected found, e.kind ≠ .unexpectedToken expected found
  length_counts : ∀ found, e.kind ≠ .invalidLength found
  fatal_limit : e.isFatal = true → e.kind = .recursionLimit 256

theorem decodingError_of_strict {start : NodeId} {doc : List UInt8} {e : Error}
    (hstart : grammar.contains start = true)
    (h : Parser.runFrom ⟨grammar, Config.strict⟩ start doc = .error e) :
    DecodingError doc.length e where
  inside := by
    have hwithin : Outcome.Within doc.length
        (Parser.runFrom ⟨grammar, Config.strict⟩ start doc) :=
      Parser.runFrom_within grammar_wellFormed
        (fun _ hmem => Builder.signed_width_of_build grammar_built hmem) hstart doc
    rw [h] at hwithin
    exact hwithin
  token_expected expected found hkind := by
    rcases Parser.cutsOff_or_ofNode grammar_wellFormed rfl hstart h with hcut | hnode
    · have hfatal := hcut.isFatal
      rw [Error.isFatal, hkind] at hfatal
      cases hfatal
    · rw [hkind] at hnode
      exact hnode
  length_counts := not_invalidLength hstart h
  fatal_limit hfatal := limit_of_fatal hstart h hfatal

/-- An error of decoding is an error of the parse. -/
theorem error_of_decode {doc : List UInt8} {e : Error} (h : decode doc = .error e) :
    Parser.runFrom ⟨grammar, Config.strict⟩ rules.value doc = .error e := by
  have hdecode : decode doc =
      ((Parser.runFrom ⟨grammar, Config.strict⟩ rules.value doc).map Parsed.token).bind ofToken :=
    rfl
  rw [hdecode] at h
  cases hrun : Parser.runFrom ⟨grammar, Config.strict⟩ rules.value doc with
  | error e' =>
      rw [hrun] at h
      cases h
      rfl
  | ok parsed =>
      obtain ⟨v, hv⟩ := ofToken_of_parsed hrun
      rw [hrun] at h
      cases hv.symm.trans h

/-- Decoding fails with an error somewhere in the document, which is the depth limit or a
failure, and never over a token. However a parse is configured, what it makes of values
are tokens of values, and the lengths it comes by are counts. -/
theorem decode_fails_as_documented :
    (∀ doc e, decode doc = .error e → DecodingError doc.length e) ∧
    ∀ (config : Config) (input : List UInt8),
      (∀ parsed, Parser.runFrom ⟨grammar, config⟩ rules.value input = .ok parsed →
        ∃ v, ofToken parsed.token = .ok v) ∧
      (∀ e, Parser.runFrom ⟨grammar, config⟩ rules.value input = .error e →
        ∀ found, e.kind ≠ .invalidLength found) ∧
      ∀ id pos stop depth,
        .matched id pos stop depth ∈ (Parser.watch ⟨grammar, config⟩ rules.value input).2 →
        ∃ token, Yields grammar input.toArray id pos (.matched token stop) ∧
          (id = rules.value → ∃ v, ofToken token = .ok v) ∧
          (id = lengthColon → ∃ count, token = .uint count) := by
  refine ⟨fun doc e h => decodingError_of_strict rfl (error_of_decode h), fun config input => ?_⟩
  refine ⟨fun _ => ofToken_of_parsed, fun e hrun => ?_, fun _ _ _ _ => typed_of_seen⟩
  exact not_invalidLength rfl hrun

/-- A list in a dictionary, whose last letter is missing, or which has a byte behind it that
a parse that remembers leaves over. -/
theorem decode_fails_as_documented_nested :
    (∃ e, decode [0x64, 0x31, 0x3a, 0x61, 0x6c, 0x69, 0x35, 0x65, 0x65] = .error e ∧
      DecodingError 9 e) ∧
    (∃ e, Parser.runFrom ⟨grammar, .packrat⟩ rules.value
        [0x64, 0x31, 0x3a, 0x61, 0x6c, 0x69, 0x35, 0x65, 0x65] = .error e ∧
      ∀ found, e.kind ≠ .invalidLength found) ∧
    (∃ token v, Parser.runFrom ⟨grammar, .packrat⟩ rules.value
        [0x64, 0x31, 0x3a, 0x61, 0x6c, 0x69, 0x35, 0x65, 0x65, 0x65, 0x78] = .ok ⟨token, 10⟩ ∧
      ofToken token = .ok v) ∧
    .matched rules.value 0 10 1 ∈ (Parser.watch ⟨grammar, .packrat⟩ rules.value
      [0x64, 0x31, 0x3a, 0x61, 0x6c, 0x69, 0x35, 0x65, 0x65, 0x65, 0x78]).2 ∧
    ∃ token v, Yields grammar #[0x64, 0x31, 0x3a, 0x61, 0x6c, 0x69, 0x35, 0x65, 0x65, 0x65, 0x78]
      rules.value 0 (.matched token 10) ∧ ofToken token = .ok v := by
  have hkey : Text [0x61] [0x31, 0x3a, 0x61] :=
    @Text.text [0x31] [0x61] ⟨nofun, List.all_eq_true.mp rfl⟩ rfl
  have hfive : Document (.int 5) [0x69, 0x35, 0x65] :=
    @Document.int 5 false [0x35] ⟨nofun, List.all_eq_true.mp rfl⟩ rfl
  have hdoc : Document (.dict [([0x61], .list [.int 5])])
      [0x64, 0x31, 0x3a, 0x61, 0x6c, 0x69, 0x35, 0x65, 0x65, 0x65] :=
    .dict (.cons hkey (.list (.cons hfive .nil)) .nil)
  -- without its last letter the document breaks off
  have hbroken : ∃ failure, YieldsWithin grammar
      #[0x64, 0x31, 0x3a, 0x61, 0x6c, 0x69, 0x35, 0x65, 0x65] 256 any 0 (.failed failure) :=
    seesBroken (by decide) 256 _ _ 0 hdoc (by decide)
      ⟨Nat.zero_le _, ⟨[0x65], nofun, rfl⟩, by decide⟩
  obtain ⟨e, hdecode, _⟩ := decode_of_fails hbroken
  obtain ⟨failure, hfails⟩ := hbroken
  obtain ⟨_, hfailed⟩ := runFrom_of_yieldsWithin grammar_wellFormed .packrat hfails
  -- with a byte behind it, it is read up to there
  have hyields : YieldsWithin grammar
      #[0x64, 0x31, 0x3a, 0x61, 0x6c, 0x69, 0x35, 0x65, 0x65, 0x65, 0x78] 256 any 0
      (.matched (toToken (.dict [([0x61], .list [.int 5])])) 10) :=
    (readsValues (by decide) 256 0 _ _).mpr
      ⟨_, _, ⟨hdoc, by decide⟩, rfl, reads_front ⟨[0x78], rfl⟩⟩
  obtain ⟨_, hparsed⟩ := runFrom_of_yieldsWithin grammar_wellFormed .packrat hyields
  obtain ⟨v, hv⟩ := (decode_fails_as_documented.2 .packrat _).1 _ hparsed
  obtain ⟨hstart, s, hwalk⟩ := Parser.walk_of_runFrom_ok hparsed
  have hseen := Parser.leaving_mem_watch hstart hwalk
  obtain ⟨token, hmatched, htyped, _⟩ :=
    (decode_fails_as_documented.2 .packrat _).2.2 _ _ _ _ hseen
  obtain ⟨w, hw⟩ := htyped rfl
  exact ⟨⟨e, hdecode, decode_fails_as_documented.1 _ e hdecode⟩,
    ⟨_, hfailed, (decode_fails_as_documented.2 .packrat _).2.1 _ hfailed⟩,
    ⟨_, v, hparsed, hv⟩, hseen, token, w, hmatched, hw⟩

end Packrat.Bencode
