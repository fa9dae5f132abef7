import Packrat.Bencode.Decode
import Packrat.Proofs.Grammar.Decimal

/-!
# The bencode language

Which documents a value has, told without a grammar: the usual description of
bencode, with leading zeros and a minus in front of zero allowed. A value may so
have many documents; that no document has two values is a theorem about decoding.

`cost` is what reading a value takes of the depth limit. A list spends four levels
on itself, a dictionary five, and an integer or a string takes six, which is also
what it takes to see that no item follows. That is why an empty list costs more
than its four levels, and why a dictionary without entries, which only has to find
that no key follows, is a case of its own.
-/

namespace Packrat.Bencode

open Decimal

/-! ## Documents -/

/-- The documents of a byte string: its length in digits, a colon, its bytes. -/
inductive Text : List UInt8 → List UInt8 → Prop where
  | text {ds payload : List UInt8} : Numeral ds → number ds = payload.length →
      Text payload (ds ++ 0x3a :: payload)

mutual

/-- The documents of a value. -/
inductive Document : Bencode → List UInt8 → Prop where
  | int {n : Int64} {negative : Bool} {ds : List UInt8} : Numeral ds →
      n.toInt = signedNumber negative ds →
      Document (.int n) (0x69 :: (minusSign negative ++ ds ++ [0x65]))
  | bytes {payload doc : List UInt8} : Text payload doc → Document (.bytes payload) doc
  | list {items : List Bencode} {body : List UInt8} : Documents items body →
      Document (.list items) (0x6c :: (body ++ [0x65]))
  | dict {entries : List (List UInt8 × Bencode)} {body : List UInt8} : Entries entries body →
      Document (.dict entries) (0x64 :: (body ++ [0x65]))

/-- The documents of values in a row. -/
inductive Documents : List Bencode → List UInt8 → Prop where
  | nil : Documents [] []
  | cons {v : Bencode} {vs : List Bencode} {doc rest : List UInt8} : Document v doc →
      Documents vs rest → Documents (v :: vs) (doc ++ rest)

/-- The documents of entries in a row, each the key and then the value. -/
inductive Entries : List (List UInt8 × Bencode) → List UInt8 → Prop where
  | nil : Entries [] []
  | cons {key : List UInt8} {v : Bencode} {entries : List (List UInt8 × Bencode)}
      {keyDoc doc rest : List UInt8} : Text key keyDoc → Document v doc →
      Entries entries rest → Entries ((key, v) :: entries) (keyDoc ++ doc ++ rest)

end

theorem Text.ne_nil {payload doc : List UInt8} (h : Text payload doc) : doc ≠ [] := by
  cases h with
  | text hnumeral => simp [hnumeral.ne_nil]

theorem Document.ne_nil {v : Bencode} {doc : List UInt8} (h : Document v doc) : doc ≠ [] := by
  cases h with
  | bytes htext => exact htext.ne_nil
  | int | list | dict => exact List.cons_ne_nil _ _

/-! ## Costs -/

mutual

/-- The levels that reading the value takes. -/
def cost : Bencode → Nat
  | .int _ => 6
  | .bytes _ => 6
  | .list items => 4 + max 6 (costs items)
  | .dict entries => if entries.isEmpty then 9 else 5 + entryCosts entries

/-- The greatest cost among values. -/
def costs : List Bencode → Nat
  | [] => 0
  | v :: vs => max (cost v) (costs vs)

/-- The greatest cost among the values of entries. -/
def entryCosts : List (List UInt8 × Bencode) → Nat
  | [] => 0
  | (_, v) :: entries => max (cost v) (entryCosts entries)

end

theorem cost_list_le_iff {items : List Bencode} {n : Nat} :
    cost (.list items) ≤ n ↔ 10 ≤ n ∧ costs items + 4 ≤ n := by
  rw [cost]
  omega

theorem six_le_cost (v : Bencode) : 6 ≤ cost v := by
  cases v with
  | int n => exact Nat.le_of_eq (by rw [cost])
  | bytes payload => exact Nat.le_of_eq (by rw [cost])
  | list items => rw [cost]; omega
  | dict entries =>
      cases entries with
      | nil => rw [cost]; decide
      | cons e entries =>
          obtain ⟨key, v⟩ := e
          have hv := six_le_cost v
          rw [cost, entryCosts, List.isEmpty_cons, if_neg Bool.false_ne_true]
          omega
termination_by sizeOf v

theorem cost_dict_le_iff {entries : List (List UInt8 × Bencode)} {n : Nat} :
    cost (.dict entries) ≤ n ↔ 9 ≤ n ∧ entryCosts entries + 5 ≤ n := by
  rw [cost]
  cases entries with
  | nil =>
      rw [entryCosts, List.isEmpty_nil, if_pos rfl]
      omega
  | cons e entries =>
      obtain ⟨key, v⟩ := e
      have hv := six_le_cost v
      rw [entryCosts, List.isEmpty_cons, if_neg Bool.false_ne_true]
      omega

/-! ## Tokens -/

mutual

/-- The token of a value. -/
def toToken : Bencode → Token
  | .int n => .seq [.byte 0x69, .sint n, .byte 0x65]
  | .bytes payload => .bytes payload
  | .list items => .seq [.byte 0x6c, .seq (toTokens items), .byte 0x65]
  | .dict entries => .seq [.byte 0x64, .seq (entryTokens entries), .byte 0x65]

/-- The tokens of values. -/
def toTokens : List Bencode → List Token
  | [] => []
  | v :: vs => toToken v :: toTokens vs

/-- The tokens of entries. -/
def entryTokens : List (List UInt8 × Bencode) → List Token
  | [] => []
  | (key, v) :: entries => .seq [.bytes key, toToken v] :: entryTokens entries

end

/-- The token of an entry. -/
def entryToken (entry : List UInt8 × Bencode) : Token := .seq [.bytes entry.1, toToken entry.2]

theorem toTokens_eq_map (items : List Bencode) : toTokens items = items.map toToken := by
  induction items with
  | nil => rfl
  | cons v items ih => rw [toTokens, ih, List.map_cons]

theorem entryTokens_eq_map (entries : List (List UInt8 × Bencode)) :
    entryTokens entries = entries.map entryToken := by
  induction entries with
  | nil => rfl
  | cons e entries ih => rw [entryTokens, ih, List.map_cons, entryToken]

mutual

/-- Turning the token of a value into a value gives the value back. -/
theorem ofToken_toToken : ∀ v : Bencode, ofToken (toToken v) = .ok v
  | .int n => by simp [toToken, ofToken]
  | .bytes payload => by simp [toToken, ofToken]
  | .list items => by simp [toToken, ofToken, ofItems_toTokens items, Except.map]
  | .dict entries => by simp [toToken, ofToken, ofEntries_entryTokens entries, Except.map]

theorem ofItems_toTokens : ∀ items : List Bencode, ofItems (toTokens items) = .ok items
  | [] => by rw [toTokens, ofItems]
  | v :: items => by
      rw [toTokens, ofItems, ofToken_toToken v, ofItems_toTokens items]
      rfl

theorem ofEntries_entryTokens :
    ∀ entries : List (List UInt8 × Bencode), ofEntries (entryTokens entries) = .ok entries
  | [] => by rw [entryTokens, ofEntries]
  | (key, v) :: entries => by
      rw [entryTokens, ofEntries, ofEntry, ofToken_toToken v, ofEntries_entryTokens entries]
      rfl

end

theorem toToken_injective {v w : Bencode} (h : toToken v = toToken w) : v = w := by
  have hv := ofToken_toToken v
  rw [h, ofToken_toToken w] at hv
  exact (Except.ok.inj hv).symm

end Packrat.Bencode
