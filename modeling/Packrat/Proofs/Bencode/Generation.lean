import Packrat.Bencode.Generate
import Packrat.Proofs.Bencode.RoundTrip
import Packrat.Proofs.Randomness

/-!
# Random values stay within their limits

A random value is drawn with an allowance of levels, and each list or dictionary takes one
of them. `Obeys` says of a value that it is made within the limits and with so many
levels, and drawing with an allowance never answers anything else, whatever the sampler, so
long as it stays in the ranges that it is asked for.

What reading a value costs grows by five for each level, and by six for the integer or the
string at the bottom. Fifty levels are as many as the depth limit of a parse leaves room
for, so up to there a random document can be read back.
-/

namespace Packrat.Bencode

open Randomness

variable {σ : Type} {sampler : Sampler σ} {limits : Limits} {levels : Nat}

/-! ## Values within limits -/

/-- A string of printable ASCII that is not too long. -/
structure Typeable (limits : Limits) (payload : List UInt8) : Prop where
  length_le : payload.length ≤ limits.maxStringLength
  printable : ∀ b ∈ payload, 0x20 ≤ b ∧ b ≤ 0x7e

/-- A value within the limits, whose lists and dictionaries are nested at most `levels`
deep. -/
inductive Obeys (limits : Limits) : (levels : Nat) → Bencode → Prop where
  | int {levels : Nat} {n : Int64} : Obeys limits levels (.int n)
  | bytes {levels : Nat} {payload : List UInt8} : Typeable limits payload →
      Obeys limits levels (.bytes payload)
  | list {levels : Nat} {items : List Bencode} : items.length ≤ limits.maxItems →
      (∀ v ∈ items, Obeys limits levels v) → Obeys limits (levels + 1) (.list items)
  | dict {levels : Nat} {entries : List (List UInt8 × Bencode)} :
      entries.length ≤ limits.maxItems → (∀ entry ∈ entries, Typeable limits entry.1) →
      (∀ entry ∈ entries, Obeys limits levels entry.2) →
      Obeys limits (levels + 1) (.dict entries)

/-! ## Costs -/

theorem costs_le_iff {items : List Bencode} {n : Nat} :
    costs items ≤ n ↔ ∀ v ∈ items, cost v ≤ n := by
  induction items with
  | nil => simp [costs]
  | cons v items ih => rw [costs, Nat.max_le, ih, List.forall_mem_cons]

theorem entryCosts_le_iff {entries : List (List UInt8 × Bencode)} {n : Nat} :
    entryCosts entries ≤ n ↔ ∀ entry ∈ entries, cost entry.2 ≤ n := by
  induction entries with
  | nil => simp [entryCosts]
  | cons entry entries ih =>
      obtain ⟨key, v⟩ := entry
      rw [entryCosts, Nat.max_le, ih, List.forall_mem_cons]

/-- Five levels of a parse for each level of the value, and six for what is inside. -/
theorem Obeys.cost_le {v : Bencode} (h : Obeys limits levels v) : cost v ≤ 5 * levels + 6 := by
  induction h with
  | int => rw [cost]; omega
  | bytes _ => rw [cost]; omega
  | list _ _ ih =>
      have hitems := costs_le_iff.mpr ih
      exact cost_list_le_iff.mpr ⟨by omega, by omega⟩
  | dict _ _ _ ih =>
      have hentries := entryCosts_le_iff.mpr ih
      exact cost_dict_le_iff.mpr ⟨by omega, by omega⟩

/-! ## Drawing -/

theorem drawString_always (h : sampler.InRange) (limits : Limits) :
    Always (drawString sampler limits) (Typeable limits) := by
  refine (h.count limits.maxStringLength).bind fun length hlength => ?_
  have hbyte : Always (sampler.byte 0x20 0x7e) fun b => 0x20 ≤ b ∧ b ≤ 0x7e :=
    h.byte 0x20 0x7e (by decide)
  refine (hbyte.several length).mono fun payload hpayload => ⟨?_, hpayload.2⟩
  rw [hpayload.1]
  exact hlength

/-- A value that is drawn with an allowance has no more levels than that. -/
theorem drawValue_always (h : sampler.InRange) (limits : Limits) (allowance : Nat) :
    Always (drawValue sampler limits allowance) (Obeys limits allowance) := by
  have hint : ∀ levels,
      Always (do return Bencode.int (← drawInt sampler)) (Obeys limits levels) :=
    fun levels => Always.bind_any fun n => Always.pure .int
  have hbytes : ∀ levels,
      Always (do return Bencode.bytes (← drawString sampler limits)) (Obeys limits levels) :=
    fun levels => (drawString_always h limits).bind fun payload hpayload =>
      Always.pure (.bytes hpayload)
  induction allowance with
  | zero =>
      rw [drawValue]
      refine Always.bind_any fun kind => ?_
      split
      · exact hint 0
      · exact hbytes 0
  | succ allowance ih =>
      rw [drawValue]
      refine Always.bind_any fun kind => ?_
      split
      · exact hint _
      · exact hbytes _
      · refine (h.count limits.maxItems).bind fun count hcount => ?_
        refine (ih.several count).bind fun items hitems => Always.pure (.list ?_ hitems.2)
        rw [hitems.1]
        exact hcount
      · refine (h.count limits.maxItems).bind fun count hcount => ?_
        have hentry : Always (do
            let key ← drawString sampler limits
            let value ← drawValue sampler limits allowance
            return (key, value)) fun entry : List UInt8 × Bencode =>
              Typeable limits entry.1 ∧ Obeys limits allowance entry.2 :=
          (drawString_always h limits).bind fun key hkey =>
            ih.bind fun value hvalue => Always.pure ⟨hkey, hvalue⟩
        refine (hentry.several count).bind fun entries hentries => Always.pure (.dict ?_ ?_ ?_)
        · rw [hentries.1]
          exact hcount
        · exact fun entry hentry => (hentries.2 entry hentry).1
        · exact fun entry hentry => (hentries.2 entry hentry).2

/-! ## Documents -/

/-- A value within the limits, and a document that it can be read back from if there are
at most fifty levels. A document is a byte string in memory, so its length is a 64-bit
number. -/
structure WithinLimits (limits : Limits) (v : Bencode) (doc : List UInt8) : Prop where
  obeys : Obeys limits limits.maxDepth v
  decodes : limits.maxDepth ≤ 50 → doc.length < UInt64.size → decode doc = .ok v

theorem Obeys.withinLimits {v : Bencode} (h : Obeys limits limits.maxDepth v) :
    WithinLimits limits v v.encode where
  obeys := h
  decodes hdepth hsize := by
    have hcost := h.cost_le
    exact (decode_encode v hsize).1 (by omega)

/-- From every sampler that stays in its ranges, and so on every stream and from every seed, a
random value is within its limits, and up to fifty levels its document can be read back. -/
theorem generated_within_limits (limits : Limits) :
    (∀ {σ : Type} (sampler : Sampler σ), sampler.InRange → ∀ start,
      WithinLimits limits (generateWith sampler start limits)
        (generateWith sampler start limits).encode) ∧
    (∀ stream, WithinLimits limits (generateFrom stream limits)
      (generateFrom stream limits).encode) ∧
    ∀ seed, WithinLimits limits (generate seed limits) (generateDocument seed limits) := by
  have hsampler : ∀ {σ : Type} (sampler : Sampler σ), sampler.InRange → ∀ start,
      WithinLimits limits (generateWith sampler start limits)
        (generateWith sampler start limits).encode :=
    fun sampler h start => (drawValue_always h limits limits.maxDepth start).withinLimits
  have hstream : ∀ stream, WithinLimits limits (generateFrom stream limits)
      (generateFrom stream limits).encode :=
    hsampler ofWords ofWords_inRange
  exact ⟨hsampler, hstream, fun seed => hstream (ofSeed seed)⟩

/-- Words that make up a dictionary inside a list, with the greatest allowance that the
documents can be read back from. -/
def fewWords : Stream where
  word i := if i ∈ [0, 2, 5, 7] then 0x80000000 else if i = 3 then 0xc0000000 else 0
  position := 0

theorem generated_within_limits_nested :
    ofWords.InRange ∧ generateWith ofWords fewWords ⟨50, 1, 1⟩ = .list [.dict [([0x20], .int 0)]] ∧
      decode (generateWith ofWords fewWords ⟨50, 1, 1⟩).encode =
        .ok (.list [.dict [([0x20], .int 0)]]) := by
  have hvalue : generateWith ofWords fewWords ⟨50, 1, 1⟩ = .list [.dict [([0x20], .int 0)]] := rfl
  have hdecodes :=
    ((generated_within_limits ⟨50, 1, 1⟩).1 ofWords ofWords_inRange fewWords).decodes (by decide)
  rw [hvalue] at hdecodes ⊢
  exact ⟨ofWords_inRange, rfl, hdecodes (by decide)⟩

end Packrat.Bencode
