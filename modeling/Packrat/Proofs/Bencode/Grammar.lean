import Packrat.Proofs.Bencode.Language
import Packrat.Proofs.Grammar.WellFormed
import Packrat.Proofs.Semantics.Decimal

/-!
# The nodes of the bencode grammar

The grammar is built by a program, so which node stands where is the outcome of a
computation. It is written down here once (`nodes_eq`); nothing after this module
looks at the program again.

Each node but the value itself is then described by what it reads. A value occurs
inside lists and dictionaries, so what these read is described given what a value
reads with fewer levels allowed.
-/

namespace Packrat.Bencode

open Decimal (Numeral number signedNumber minusSign isDigit uintOfDigits sintOfParts)
open Semantics

/-! ## The arena -/

namespace Nodes

def placeholder : NodeId := ⟨0, 0⟩
def lengthDigit : NodeId := ⟨0, 1⟩
def lengthDigits : NodeId := ⟨0, 2⟩
def length : NodeId := ⟨0, 3⟩
def colon : NodeId := ⟨0, 4⟩
def lengthColon : NodeId := ⟨0, 5⟩
def string : NodeId := ⟨0, 6⟩
def i : NodeId := ⟨0, 7⟩
def minus : NodeId := ⟨0, 8⟩
def sign : NodeId := ⟨0, 9⟩
def digit : NodeId := ⟨0, 10⟩
def digits : NodeId := ⟨0, 11⟩
def parts : NodeId := ⟨0, 12⟩
def signed : NodeId := ⟨0, 13⟩
def e : NodeId := ⟨0, 14⟩
def integer : NodeId := ⟨0, 15⟩
def l : NodeId := ⟨0, 16⟩
def items : NodeId := ⟨0, 17⟩
protected def list : NodeId := ⟨0, 18⟩
def d : NodeId := ⟨0, 19⟩
def pair : NodeId := ⟨0, 20⟩
def pairs : NodeId := ⟨0, 21⟩
def dictionary : NodeId := ⟨0, 22⟩
def any : NodeId := ⟨0, 23⟩

end Nodes

open Nodes

theorem nodes_eq : grammar.nodes = #[
    .indirect (some any),
    .range 0x30 0x39, .repeated lengthDigit 1 none,
    .action lengthDigits ⟨"decimal-uint", uintOfDigits⟩,
    .literal 0x3a, .pick [length, colon] 0, .lengthValue lengthColon .byte,
    .literal 0x69,
    .literal 0x2d, .optional minus, .range 0x30 0x39, .repeated digit 1 none,
    .sequence [sign, digits], .action parts ⟨"decimal-sint", sintOfParts⟩,
    .literal 0x65, .sequence [i, signed, e],
    .literal 0x6c, .repeated placeholder 0 none, .sequence [l, items, e],
    .literal 0x64, .sequence [string, placeholder], .repeated pair 0 none,
    .sequence [d, pairs, e],
    .choice [integer, string, Nodes.list, dictionary]] := rfl

theorem grammar_built : built.2.build rules.value = .ok grammar := rfl

theorem grammar_wellFormed : grammar.WellFormed := Builder.wellFormed_of_build grammar_built

theorem node?_eq {index : Nat} {node : Node} (h : grammar.nodes[index]? = some node) :
    grammar.node? ⟨0, index⟩ = some node := by
  have hlt : index < grammar.nodes.size := (Array.getElem?_eq_some_iff.mp h).1
  have hcontains : grammar.contains ⟨0, index⟩ = true := by
    rw [Grammar.contains, decide_eq_true hlt]
    rfl
  rw [Grammar.node?, if_pos hcontains, h]

theorem lengthNodes : DigitNodes grammar lengthDigit lengthDigits where
  digit_eq := node?_eq (by rw [nodes_eq]; rfl)
  run_eq := node?_eq (by rw [nodes_eq]; rfl)

theorem numberNodes : SignedNodes grammar digit digits minus sign parts signed where
  digit_eq := node?_eq (by rw [nodes_eq]; rfl)
  run_eq := node?_eq (by rw [nodes_eq]; rfl)
  minus_eq := node?_eq (by rw [nodes_eq]; rfl)
  sign_eq := node?_eq (by rw [nodes_eq]; rfl)
  parts_eq := node?_eq (by rw [nodes_eq]; rfl)
  sint_eq := node?_eq (by rw [nodes_eq]; rfl)

theorem placeholder_eq : grammar.node? placeholder = some (.indirect (some any)) :=
  node?_eq (by rw [nodes_eq]; rfl)

theorem length_eq :
    grammar.node? length = some (.action lengthDigits ⟨"decimal-uint", uintOfDigits⟩) :=
  node?_eq (by rw [nodes_eq]; rfl)

theorem colon_eq : grammar.node? colon = some (.literal 0x3a) :=
  node?_eq (by rw [nodes_eq]; rfl)

theorem lengthColon_eq : grammar.node? lengthColon = some (.pick [length, colon] 0) :=
  node?_eq (by rw [nodes_eq]; rfl)

theorem string_eq : grammar.node? string = some (.lengthValue lengthColon .byte) :=
  node?_eq (by rw [nodes_eq]; rfl)

theorem i_eq : grammar.node? i = some (.literal 0x69) :=
  node?_eq (by rw [nodes_eq]; rfl)

theorem e_eq : grammar.node? e = some (.literal 0x65) :=
  node?_eq (by rw [nodes_eq]; rfl)

theorem integer_eq : grammar.node? integer = some (.sequence [i, signed, e]) :=
  node?_eq (by rw [nodes_eq]; rfl)

theorem l_eq : grammar.node? l = some (.literal 0x6c) :=
  node?_eq (by rw [nodes_eq]; rfl)

theorem items_eq : grammar.node? items = some (.repeated placeholder 0 none) :=
  node?_eq (by rw [nodes_eq]; rfl)

theorem list_eq : grammar.node? Nodes.list = some (.sequence [l, items, e]) :=
  node?_eq (by rw [nodes_eq]; rfl)

theorem d_eq : grammar.node? d = some (.literal 0x64) :=
  node?_eq (by rw [nodes_eq]; rfl)

theorem pair_eq : grammar.node? pair = some (.sequence [string, placeholder]) :=
  node?_eq (by rw [nodes_eq]; rfl)

theorem pairs_eq : grammar.node? pairs = some (.repeated pair 0 none) :=
  node?_eq (by rw [nodes_eq]; rfl)

theorem dictionary_eq : grammar.node? dictionary = some (.sequence [d, pairs, e]) :=
  node?_eq (by rw [nodes_eq]; rfl)

theorem any_eq : grammar.node? any = some (.choice [integer, string, Nodes.list, dictionary]) :=
  node?_eq (by rw [nodes_eq]; rfl)

/-! ## Strings and integers -/

variable {input : Array UInt8} {pos stop n : Nat} {token : Token}

theorem string_needs : Needs grammar lengthDigit 4 string :=
  .through string_eq rfl <| .through lengthColon_eq rfl <| .through length_eq rfl
    lengthNodes.needs

theorem lengthColon_matched_iff :
    YieldsWithin grammar input n lengthColon pos (.matched token stop) ↔
      4 ≤ n ∧ ∃ ds, Numeral ds ∧ number ds < UInt64.size ∧
        token = .uint (UInt64.ofNat (number ds)) ∧ Reads input pos (ds ++ [0x3a]) stop := by
  constructor
  · intro hmatched
    obtain ⟨m, rfl⟩ := hmatched.exists_pred
    obtain ⟨tokens, hmembers, hkept⟩ := (pick_matched_iff lengthColon_eq).mp hmatched
    simp only [members_cons_iff, members_nil_iff] at hmembers
    obtain ⟨_, mid, _, hlength, ⟨_, _, _, hcolon, ⟨rfl, rfl⟩, rfl⟩, rfl⟩ := hmembers
    cases hkept
    obtain ⟨hlevels, ds, hnumeral, hfits, rfl, hreads, _⟩ :=
      (uint_matched_iff lengthNodes length_eq).mp hlength
    obtain ⟨k, rfl⟩ := hcolon.exists_pred
    have hreads' := ((literal_matched_iff colon_eq).mp hcolon).2
    exact ⟨by omega, ds, hnumeral, hfits, rfl, hreads.append hreads'⟩
  · rintro ⟨hlevels, ds, hnumeral, hfits, rfl, hreads⟩
    obtain ⟨m, rfl⟩ : ∃ m, n = m + 2 := ⟨n - 2, by omega⟩
    obtain ⟨mid, hdigits, hcolon⟩ := hreads.split
    have hends : EndsAt input isDigit mid := EndsAt.of_head hcolon.head rfl
    have hlength : YieldsWithin grammar input (m + 1) length pos
        (.matched (.uint (UInt64.ofNat (number ds))) mid) :=
      (uint_matched_iff lengthNodes length_eq).mpr
        ⟨by omega, ds, hnumeral, hfits, rfl, hdigits, hends⟩
    have hstep : YieldsWithin grammar input (m + 1) colon mid (.matched (.byte 0x3a) stop) :=
      (literal_matched_iff colon_eq).mpr ⟨rfl, hcolon⟩
    exact (pick_matched_iff lengthColon_eq).mpr ⟨_, .cons hlength (.cons hstep .nil), rfl⟩

/-- A length is followed by a colon, so it ends inside the input. -/
theorem lengthColon_stop_le
    (h : YieldsWithin grammar input n lengthColon pos (.matched token stop)) :
    stop ≤ input.size := by
  obtain ⟨_, ds, _, _, _, hreads⟩ := lengthColon_matched_iff.mp h
  obtain ⟨mid, _, hcolon⟩ := hreads.split
  obtain ⟨hbyte, rfl⟩ := Reads.byte_iff.mp hcolon
  exact (Array.getElem?_eq_some_iff.mp hbyte).1

theorem string_matched_iff (hsize : input.size < UInt64.size) :
    YieldsWithin grammar input n string pos (.matched token stop) ↔
      5 ≤ n ∧ ∃ payload doc, Text payload doc ∧ token = .bytes payload ∧
        Reads input pos doc stop := by
  constructor
  · intro hmatched
    obtain ⟨m, rfl⟩ := hmatched.exists_pred
    obtain ⟨counter, start, count, payload, hlength, hcount, hpayload, rfl, hreads⟩ :=
      (lengthBytes_matched_iff string_eq fun _ _ => lengthColon_stop_le).mp hmatched
    obtain ⟨hlevels, ds, hnumeral, hfits, rfl, hreads'⟩ := lengthColon_matched_iff.mp hlength
    cases hcount
    rw [UInt64.toNat_ofNat_of_lt' hfits] at hpayload
    refine ⟨by omega, payload, ds ++ 0x3a :: payload, .text hnumeral hpayload.symm, rfl, ?_⟩
    have hwhole := hreads'.append hreads
    rwa [List.append_assoc] at hwhole
  · rintro ⟨hlevels, payload, doc, htext, rfl, hreads⟩
    obtain ⟨m, rfl⟩ : ∃ m, n = m + 1 := ⟨n - 1, by omega⟩
    cases htext with
    | @text ds _ hnumeral hlength =>
        rw [show ds ++ 0x3a :: payload = (ds ++ [0x3a]) ++ payload by simp] at hreads
        obtain ⟨start, hhead, hpayload⟩ := hreads.split
        have hfits : number ds < UInt64.size := by
          have hinside := hpayload.length_le
          omega
        have hcounter : YieldsWithin grammar input m lengthColon pos
            (.matched (.uint (UInt64.ofNat (number ds))) start) :=
          lengthColon_matched_iff.mpr ⟨by omega, ds, hnumeral, hfits, rfl, hhead⟩
        refine (lengthBytes_matched_iff string_eq fun _ _ => lengthColon_stop_le).mpr
          ⟨_, start, _, payload, hcounter, rfl, ?_, rfl, hpayload⟩
        rw [UInt64.toNat_ofNat_of_lt' hfits, hlength]

/-- Between a letter and the closing `e` there is what the node in the middle
matches. -/
theorem bracketed_matched_iff {opening inner whole : NodeId} {b : UInt8}
    (hopening : grammar.node? opening = some (.literal b))
    (hwhole : grammar.node? whole = some (.sequence [opening, inner, e])) :
    YieldsWithin grammar input (n + 2) whole pos (.matched token stop) ↔
      ∃ raw mid, input[pos]? = some b ∧
        YieldsWithin grammar input (n + 1) inner (pos + 1) (.matched raw mid) ∧
        Reads input mid [0x65] stop ∧ token = .seq [.byte b, raw, .byte 0x65] := by
  constructor
  · intro hmatched
    obtain ⟨tokens, hmembers, rfl⟩ := (sequence_matched_iff hwhole).mp hmatched
    simp only [members_cons_iff, members_nil_iff] at hmembers
    obtain ⟨_, next, _, hfirst, ⟨raw, mid, _, hinner, ⟨_, _, _, hlast, ⟨rfl, rfl⟩, rfl⟩, rfl⟩,
      rfl⟩ := hmembers
    obtain ⟨rfl, hreads⟩ := (literal_matched_iff hopening).mp hfirst
    obtain ⟨rfl, hreads'⟩ := (literal_matched_iff e_eq).mp hlast
    obtain ⟨hb, rfl⟩ := Reads.byte_iff.mp hreads
    exact ⟨raw, mid, hb, hinner, hreads', rfl⟩
  · rintro ⟨raw, mid, hb, hinner, hreads, rfl⟩
    have hfirst : YieldsWithin grammar input (n + 1) opening pos
        (.matched (.byte b) (pos + 1)) :=
      (literal_matched_iff hopening).mpr ⟨rfl, Reads.byte_iff.mpr ⟨hb, rfl⟩⟩
    have hlast : YieldsWithin grammar input (n + 1) e mid (.matched (.byte 0x65) stop) :=
      (literal_matched_iff e_eq).mpr ⟨rfl, hreads⟩
    exact (sequence_matched_iff hwhole).mpr
      ⟨_, .cons hfirst (.cons hinner (.cons hlast .nil)), rfl⟩

theorem integer_needs : Needs grammar i 1 integer := .through integer_eq rfl .self

theorem integer_matched_iff :
    YieldsWithin grammar input n integer pos (.matched token stop) ↔
      5 ≤ n ∧ ∃ negative ds, ∃ value : Int64, Numeral ds ∧
        value.toInt = signedNumber negative ds ∧ token = toToken (.int value) ∧
        Reads input pos (0x69 :: (minusSign negative ++ ds ++ [0x65])) stop := by
  constructor
  · intro hmatched
    have hlevels := integer_needs.lt hmatched
    obtain ⟨m, rfl⟩ : ∃ m, n = m + 2 := ⟨n - 2, by omega⟩
    obtain ⟨raw, mid, hi, hsigned, he, rfl⟩ := (bracketed_matched_iff i_eq integer_eq).mp hmatched
    obtain ⟨hlevels, negative, ds, value, hnumeral, hvalue, rfl, hreads, _⟩ :=
      (sint_matched_iff numberNodes).mp hsigned
    refine ⟨by omega, negative, ds, value, hnumeral, hvalue, by rw [toToken], ?_⟩
    exact Reads.cons_iff.mpr ⟨hi, hreads.append he⟩
  · rintro ⟨hlevels, negative, ds, value, hnumeral, hvalue, rfl, hreads⟩
    obtain ⟨m, rfl⟩ : ∃ m, n = m + 2 := ⟨n - 2, by omega⟩
    obtain ⟨hi, hrest⟩ := Reads.cons_iff.mp hreads
    obtain ⟨mid, hnumber, he⟩ := hrest.split
    have hends : EndsAt input isDigit mid := EndsAt.of_head he.head rfl
    have hsigned : YieldsWithin grammar input (m + 1) signed (pos + 1)
        (.matched (.sint value) mid) :=
      (sint_matched_iff numberNodes).mpr
        ⟨by omega, negative, ds, value, hnumeral, hvalue, rfl, hnumber, hends⟩
    exact (bracketed_matched_iff i_eq integer_eq).mpr
      ⟨_, mid, hi, hsigned, he, by rw [toToken]⟩

/-! ## Lists and dictionaries -/

/-- A list or a dictionary is what its elements read between a letter and `e`. Its
least level is what it takes to see that no element begins with `e`. -/
theorem container_matched_iff {X : Type} {P : X → List UInt8 → Prop} {tokenOf : X → Token}
    {opening inner whole element : NodeId} {b : UInt8} {least : Nat}
    (hopening : grammar.node? opening = some (.literal b))
    (hwhole : grammar.node? whole = some (.sequence [opening, inner, e]))
    (hinner : grammar.node? inner = some (.repeated element 0 none))
    (hP : ∀ x part, P x part → part ≠ [])
    (helement : ∀ p t next, YieldsWithin grammar input n element p (.matched t next) ↔
      ∃ x part, P x part ∧ t = tokenOf x ∧ Reads input p part next)
    (hends : ∀ p, input[p]? = some 0x65 →
      ((∃ failure, YieldsWithin grammar input n element p (.failed failure)) ↔ least ≤ n)) :
    YieldsWithin grammar input (n + 2) whole pos (.matched token stop) ↔
      least ≤ n ∧ ∃ xs body, Strung P xs body ∧
        token = .seq [.byte b, .seq (xs.map tokenOf), .byte 0x65] ∧
        Reads input pos (b :: (body ++ [0x65])) stop := by
  rw [bracketed_matched_iff hopening hwhole]
  constructor
  · rintro ⟨raw, mid, hb, hmany, he, rfl⟩
    obtain ⟨tokens, hrounds, _, rfl⟩ := (many_matched_iff hinner).mp hmany
    obtain ⟨xs, body, hstrung, rfl, hreads, hfails⟩ := (rounds_iff hP helement).mp hrounds
    exact ⟨(hends mid he.head).mp hfails, xs, body, hstrung, rfl,
      Reads.cons_iff.mpr ⟨hb, hreads.append he⟩⟩
  · rintro ⟨hleast, xs, body, hstrung, rfl, hreads⟩
    obtain ⟨hb, hrest⟩ := Reads.cons_iff.mp hreads
    obtain ⟨mid, hbody, he⟩ := hrest.split
    have hfails := (hends mid he.head).mpr hleast
    have hrounds : Rounds (YieldsWithin grammar input n) element 0 none 0 (pos + 1)
        (xs.map tokenOf) mid :=
      (rounds_iff hP helement).mpr ⟨xs, body, hstrung, rfl, hbody, hfails⟩
    have hmany : YieldsWithin grammar input (n + 1) inner (pos + 1)
        (.matched (.seq (xs.map tokenOf)) mid) :=
      (many_matched_iff hinner).mpr ⟨_, hrounds, Nat.zero_le _, rfl⟩
    exact ⟨_, mid, hb, hmany, he, rfl⟩

end Packrat.Bencode
