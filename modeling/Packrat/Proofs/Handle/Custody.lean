import Packrat.Handle.Store
import Packrat.Proofs.Handle.Ledger

/-!
# Owners, their handles and their blocks

What a store does to the ledger follows from three things that can be seen from
outside: how many handles of an owner are held, whether it was asked to release,
and which of the blocks that belong to no owner were given back. They make an
`Account`. A block is due for every owner that is held and was never asked, and for
every other block that was not given back.

`Balanced` says that a store agrees with an account. Each operation of the store
has a lemma that says what it does to the account. A new handle is counted before
it is put somewhere, and a dropped one is counted until it is gone, so the number
of handles before an operation is the number after it with one more, or the other
way round, and no difference is ever taken.
-/

namespace Packrat

/-! ## Accounts -/

/-- What a block is charged for. -/
inductive Source where
  | owner (k : Nat)
  /-- A block that belongs to no owner. -/
  | block (k : Nat)

/-- How many handles of each owner are held, which owners were asked to release,
and which blocks of no owner were given back, newest first. -/
structure Account where
  held : Nat → Nat
  asked : Nat → Prop
  freed : List Nat

/-- The block for this must be live. -/
def Account.Due (acc : Account) : Source → Prop
  | .owner k => 0 < acc.held k ∧ ¬ acc.asked k
  | .block k => k ∉ acc.freed

/-- How many entries of a list stand in it further back as well. -/
def repeats : List Nat → Nat
  | [] => 0
  | k :: earlier => (if k ∈ earlier then 1 else 0) + repeats earlier

def Handle.counts (h : Handle) (k : Nat) : Nat := if h.owner = some k then 1 else 0

/-- One more handle is held. -/
def Account.hold (acc : Account) (h : Handle) : Account :=
  { acc with held := fun k => h.counts k + acc.held k }

/-- The owner of a handle was asked to release. -/
def Account.ask (acc : Account) (h : Handle) : Account :=
  { acc with asked := fun k => h.owner = some k ∨ acc.asked k }

theorem Handle.counts_self {h : Handle} {k : Nat} (hk : h.owner = some k) : h.counts k = 1 :=
  if_pos hk

theorem Handle.counts_other {h : Handle} {k : Nat} (hk : h.owner ≠ some k) : h.counts k = 0 :=
  if_neg hk

/-! ## Charges -/

/-- Every source has a block of its own, and the ledger has the due ones live. -/
structure Charges (id? : Source → Option Nat) (due : Source → Prop) (l : Ledger) : Prop where
  lt_nextId : ∀ {source id}, id? source = some id → id < l.nextId
  unique : ∀ {source source' id}, id? source = some id → id? source' = some id →
    source = source'
  keeps : l.Keeps fun id => ∃ source, id? source = some id ∧ due source

namespace Charges

variable {id? id?' : Source → Option Nat} {due due' : Source → Prop} {l : Ledger}

theorem congr (h : Charges id? due l) (hdue : ∀ source, due' source ↔ due source) :
    Charges id? due' l := by
  have heq : due' = due := funext fun source => propext (hdue source)
  rw [heq]
  exact h

theorem allocate (h : Charges id? due l) {new : Source} (hnew : id? new = none)
    (hid : id?' new = some l.nextId) (hdue : due' new)
    (hother : ∀ source, source ≠ new → id?' source = id? source ∧ (due' source ↔ due source))
    (bytes : Nat) : Charges id?' due' (l.allocate bytes).2 := by
  have hcases : ∀ {source id}, id?' source = some id →
      (source = new ∧ id = l.nextId) ∨ (source ≠ new ∧ id? source = some id) := by
    intro source id hsource
    by_cases heq : source = new
    · rw [heq, hid] at hsource
      exact .inl ⟨heq, (Option.some.inj hsource).symm⟩
    · rw [(hother source heq).1] at hsource
      exact .inr ⟨heq, hsource⟩
  refine ⟨fun {source id} hsource => ?_, fun {source source' id} hsource hsource' => ?_, ?_⟩
  · show id < l.nextId + 1
    rcases hcases hsource with ⟨_, rfl⟩ | ⟨_, hold⟩
    · exact Nat.lt_succ_self _
    · exact Nat.lt_succ_of_lt (h.lt_nextId hold)
  · rcases hcases hsource with ⟨rfl, rfl⟩ | ⟨_, hold⟩
    · rcases hcases hsource' with ⟨rfl, _⟩ | ⟨_, hold'⟩
      · rfl
      · exact absurd (h.lt_nextId hold') (Nat.lt_irrefl _)
    · rcases hcases hsource' with ⟨rfl, rfl⟩ | ⟨_, hold'⟩
      · exact absurd (h.lt_nextId hold) (Nat.lt_irrefl _)
      · exact h.unique hold hold'
  · refine (h.keeps.allocate bytes).congr fun id => ⟨?_, ?_⟩
    · rintro (rfl | ⟨source, hsource, hs⟩)
      · exact ⟨new, hid, hdue⟩
      · have hne : source ≠ new := by
          rintro rfl
          rw [hnew] at hsource
          cases hsource
        obtain ⟨hid', hdue'⟩ := hother source hne
        exact ⟨source, hid'.trans hsource, hdue'.mpr hs⟩
    · rintro ⟨source, hsource, hs⟩
      rcases hcases hsource with ⟨_, rfl⟩ | ⟨hne, hold⟩
      · exact .inl rfl
      · exact .inr ⟨source, hold, (hother source hne).2.mp hs⟩

theorem release (h : Charges id? due l) {source : Source} {a : Allocation}
    (hid : id? source = some a.id) (hdue : due source)
    (hdue' : ∀ other, due' other ↔ other ≠ source ∧ due other) :
    Charges id? due' (l.release a) ∧
      (l.release a).doubleReleases = l.doubleReleases := by
  obtain ⟨hkeeps, hnext, hdouble⟩ := h.keeps.release ⟨source, hid, hdue⟩
  refine ⟨⟨fun hother => ?_, h.unique, hkeeps.congr fun id => ⟨?_, ?_⟩⟩, hdouble⟩
  · rw [hnext]
    exact h.lt_nextId hother
  · rintro ⟨hne, other, hother, hs⟩
    refine ⟨other, hother, (hdue' other).mpr ⟨?_, hs⟩⟩
    rintro rfl
    rw [hid] at hother
    exact hne (Option.some.inj hother).symm
  · rintro ⟨other, hother, hs⟩
    obtain ⟨hne, hs⟩ := (hdue' other).mp hs
    refine ⟨?_, other, hother, hs⟩
    rintro rfl
    exact hne (h.unique hother hid)

theorem release_again (h : Charges id? due l) {source : Source} {a : Allocation}
    (hid : id? source = some a.id) (hdue : ¬ due source) :
    Charges id? due (l.release a) ∧
      (l.release a).doubleReleases = l.doubleReleases + 1 := by
  rw [h.keeps.release_again]
  · exact ⟨⟨h.lt_nextId, h.unique, { h.keeps with }⟩, rfl⟩
  · rintro ⟨other, hother, hs⟩
    rw [h.unique hother hid] at hs
    exact hdue hs

end Charges

/-! ## Owners of an account -/

/-- The id of a source's block, as long as there is such an owner or block. -/
def Source.id? (owners : Array Owner) (blocks : Array Allocation) : Source → Option Nat
  | .owner k => owners[k]?.map (·.allocation.id)
  | .block k => blocks[k]?.map Allocation.id

/-- Two accounts say the same of all owners but one. -/
def Account.AgreeBut (k : Nat) (acc acc' : Account) : Prop :=
  ∀ j, j ≠ k → acc'.held j = acc.held j ∧ (acc'.asked j ↔ acc.asked j)

/-- An owner has a share for each of its handles, and its outcome as long as its
block is due. -/
structure Tally (acc : Account) (owners : Array Owner) : Prop where
  shares : ∀ {k o}, owners[k]? = some o → o.shares = acc.held k
  outcome : ∀ {k o}, owners[k]? = some o → (o.outcome.isSome ↔ acc.Due (.owner k))
  beyond : ∀ {k}, owners.size ≤ k → acc.held k = 0 ∧ ¬ acc.asked k

section

variable {acc acc' : Account} {owners : Array Owner} {blocks : Array Allocation} {k : Nat}
  {o o' : Owner} {h : Handle}

theorem Account.AgreeBut.due (hagree : acc.AgreeBut k acc') (hfreed : acc'.freed = acc.freed)
    {source : Source} (hne : source ≠ .owner k) : acc'.Due source ↔ acc.Due source := by
  cases source with
  | owner j =>
    obtain ⟨hheld, hasked⟩ := hagree j (by rintro rfl; exact hne rfl)
    simp only [Account.Due, hheld, hasked]
  | block j => simp only [Account.Due, hfreed]

theorem Account.agreeBut_hold (acc : Account) (hk : h.owner = some k) :
    acc.AgreeBut k (acc.hold h) := by
  intro j hj
  have hne : h.owner ≠ some j := fun h' => hj (Option.some.inj (h'.symm.trans hk))
  exact ⟨by simp only [Account.hold, Handle.counts_other hne, Nat.zero_add], Iff.rfl⟩

theorem Account.agreeBut_ask (acc : Account) (hk : h.owner = some k) :
    acc.AgreeBut k (acc.ask h) := by
  intro j hj
  have hne : h.owner ≠ some j := fun h' => hj (Option.some.inj (h'.symm.trans hk))
  exact ⟨rfl, or_iff_right hne⟩

theorem Account.AgreeBut.symm (hagree : acc.AgreeBut k acc') : acc'.AgreeBut k acc :=
  fun j hj => ⟨(hagree j hj).1.symm, (hagree j hj).2.symm⟩

theorem Account.hold_empty (acc : Account) (hh : h.owner = none) : acc.hold h = acc := by
  have hcounts : ∀ k, h.counts k = 0 := fun k => Handle.counts_other (by rw [hh]; exact nofun)
  simp only [Account.hold, hcounts, Nat.zero_add]

theorem Account.hold_hold (acc : Account) (h h' : Handle) :
    (acc.hold h).hold h' = (acc.hold h').hold h := by
  simp only [Account.hold, Nat.add_left_comm]

theorem Account.ask_again (acc : Account) (hh : ∀ k, h.owner = some k → acc.asked k) :
    acc.ask h = acc := by
  have hasked : (acc.ask h).asked = acc.asked :=
    funext fun k => propext (or_iff_right_of_imp (hh k))
  show { acc with asked := (acc.ask h).asked } = acc
  rw [hasked]

theorem Source.id?_set (hk : owners[k]? = some o) (ha : o'.allocation = o.allocation) :
    Source.id? (owners.setIfInBounds k o') blocks = Source.id? owners blocks := by
  funext source
  cases source with
  | block j => rfl
  | owner j =>
    by_cases hj : k = j
    · subst hj
      obtain ⟨hlt, _⟩ := Array.getElem?_eq_some_iff.mp hk
      simp only [Source.id?, Array.getElem?_setIfInBounds_self_of_lt hlt, hk, Option.map_some, ha]
    · simp only [Source.id?, Array.getElem?_setIfInBounds_ne hj]

theorem Tally.set (ht : Tally acc owners) (hagree : acc.AgreeBut k acc')
    (hk : owners[k]? = some o) (hshares : o'.shares = acc'.held k)
    (houtcome : o'.outcome.isSome ↔ acc'.Due (.owner k)) :
    Tally acc' (owners.setIfInBounds k o') := by
  obtain ⟨hlt, _⟩ := Array.getElem?_eq_some_iff.mp hk
  have hcases : ∀ {j x}, (owners.setIfInBounds k o')[j]? = some x →
      (j = k ∧ x = o') ∨ (j ≠ k ∧ owners[j]? = some x) := by
    intro j x hx
    by_cases hj : k = j
    · subst hj
      rw [Array.getElem?_setIfInBounds_self_of_lt hlt] at hx
      exact .inl ⟨rfl, (Option.some.inj hx).symm⟩
    · rw [Array.getElem?_setIfInBounds_ne hj] at hx
      exact .inr ⟨Ne.symm hj, hx⟩
  refine ⟨fun hx => ?_, fun hx => ?_, fun {j} hj => ?_⟩
  · rcases hcases hx with ⟨rfl, rfl⟩ | ⟨hne, hx⟩
    · exact hshares
    · rw [ht.shares hx, (hagree _ hne).1]
  · rcases hcases hx with ⟨rfl, rfl⟩ | ⟨hne, hx⟩
    · exact houtcome
    · rw [ht.outcome hx]
      simp only [Account.Due, hagree _ hne]
  · rw [Array.size_setIfInBounds] at hj
    obtain ⟨hheld, hasked⟩ := hagree j (by omega)
    rw [hheld, hasked]
    exact ht.beyond hj

/-- A new owner has one handle and was not asked yet. -/
theorem Tally.push (ht : Tally acc owners) (hshares : o.shares = 1)
    (houtcome : o.outcome.isSome) :
    Tally (acc.hold ⟨some owners.size⟩) (owners.push o) := by
  have hagree := acc.agreeBut_hold (h := ⟨some owners.size⟩) rfl
  obtain ⟨hheld, hasked⟩ := ht.beyond (Nat.le_refl owners.size)
  have hone : (acc.hold ⟨some owners.size⟩).held owners.size = 1 := by
    show Handle.counts _ _ + acc.held owners.size = 1
    rw [hheld, Handle.counts_self rfl]
  have hcases : ∀ {j x}, (owners.push o)[j]? = some x →
      (j = owners.size ∧ x = o) ∨ (j ≠ owners.size ∧ owners[j]? = some x) := by
    intro j x hx
    rw [Array.getElem?_push] at hx
    by_cases hj : j = owners.size
    · rw [if_pos hj] at hx
      exact .inl ⟨hj, (Option.some.inj hx).symm⟩
    · rw [if_neg hj] at hx
      exact .inr ⟨hj, hx⟩
  refine ⟨fun hx => ?_, fun hx => ?_, fun {j} hj => ?_⟩
  · rcases hcases hx with ⟨rfl, rfl⟩ | ⟨hne, hx⟩
    · rw [hshares, hone]
    · rw [ht.shares hx, (hagree _ hne).1]
  · rcases hcases hx with ⟨rfl, rfl⟩ | ⟨hne, hx⟩
    · refine iff_of_true houtcome ⟨?_, hasked⟩
      rw [hone]
      exact Nat.one_pos
    · rw [ht.outcome hx]
      simp only [Account.Due, hagree _ hne]
  · rw [Array.size_push] at hj
    obtain ⟨hheld', hasked'⟩ := hagree j (by omega)
    rw [hheld', hasked']
    exact ht.beyond (by omega)

end

/-! ## Stores -/

/-- A store and the blocks without an owner agree with an account. -/
structure Balanced (acc : Account) (s : Store) (blocks : Array Allocation) : Prop where
  tally : Tally acc s.owners
  charges : Charges (Source.id? s.owners blocks) acc.Due s.ledger
  given : ∀ k ∈ acc.freed, k < blocks.size
  again : s.ledger.doubleReleases = repeats acc.freed

/-- A handle that the account counts. -/
def Handle.Held (h : Handle) (acc : Account) : Prop := ∀ k, h.owner = some k → 0 < acc.held k

namespace Balanced

variable {acc acc' : Account} {s : Store} {blocks : Array Allocation} {h : Handle} {k : Nat}
  {o o' : Owner}

/-- A handle that is held is empty, or its owner exists. -/
theorem owner_cases (hb : Balanced acc s blocks) (hh : h.Held acc) :
    (h.owner = none ∧ s.owner? h = none) ∨
      ∃ k o, h.owner = some k ∧ s.owners[k]? = some o ∧ s.owner? h = some o := by
  cases hk : h.owner with
  | none => exact .inl ⟨rfl, by simp only [Store.owner?, hk, Option.bind_none]⟩
  | some k =>
    have hlt : k < s.owners.size := Nat.lt_of_not_ge fun hge =>
      Nat.ne_of_gt (hh k hk) (hb.tally.beyond hge).1
    have ho : s.owners[k]? = some s.owners[k] := Array.getElem?_eq_getElem hlt
    exact .inr ⟨k, _, rfl, ho, by simp only [Store.owner?, hk, Option.bind_some, ho]⟩

/-- Something happened to an owner that leaves the charge for it as it is. -/
theorem keep (hb : Balanced acc s blocks) (hagree : acc.AgreeBut k acc')
    (hfreed : acc'.freed = acc.freed) (hk : s.owners[k]? = some o)
    (ha : o'.allocation = o.allocation) (hshares : o'.shares = acc'.held k)
    (houtcome : o'.outcome.isSome ↔ acc'.Due (.owner k))
    (hdue : acc'.Due (.owner k) ↔ acc.Due (.owner k)) :
    Balanced acc' { s with owners := s.owners.setIfInBounds k o' } blocks where
  tally := hb.tally.set hagree hk hshares houtcome
  charges := by
    show Charges (Source.id? (s.owners.setIfInBounds k o') blocks) _ s.ledger
    rw [Source.id?_set hk ha]
    refine hb.charges.congr fun source => ?_
    by_cases hsource : source = .owner k
    · rw [hsource, hdue]
    · exact hagree.due hfreed hsource
  given := hfreed ▸ hb.given
  again := hfreed ▸ hb.again

/-- Something happened to an owner that ends the charge for it. -/
theorem settle (hb : Balanced acc s blocks) (hagree : acc.AgreeBut k acc')
    (hfreed : acc'.freed = acc.freed) (hk : s.owners[k]? = some o)
    (ha : o'.allocation = o.allocation) (hshares : o'.shares = acc'.held k)
    (hnone : o'.outcome = none) (hdue : acc.Due (.owner k)) (hdue' : ¬ acc'.Due (.owner k)) :
    Balanced acc' ⟨s.owners.setIfInBounds k o', s.ledger.release o.allocation⟩ blocks := by
  have hid : Source.id? s.owners blocks (.owner k) = some o.allocation.id := by
    simp only [Source.id?, hk, Option.map_some]
  have hrest : ∀ source, acc'.Due source ↔ source ≠ .owner k ∧ acc.Due source := by
    intro source
    by_cases hsource : source = .owner k
    · rw [hsource]
      exact iff_of_false hdue' fun h => h.1 rfl
    · rw [hagree.due hfreed hsource]
      exact (and_iff_right hsource).symm
  obtain ⟨hcharges, hdouble⟩ := hb.charges.release hid hdue hrest
  refine ⟨hb.tally.set hagree hk hshares ?_, ?_, hfreed ▸ hb.given, ?_⟩
  · rw [hnone]
    exact iff_of_false nofun hdue'
  · show Charges (Source.id? (s.owners.setIfInBounds k o') blocks) _ _
    rw [Source.id?_set hk ha]
    exact hcharges
  · rw [hfreed, ← hb.again]
    exact hdouble

/-! ### Operations on handles -/

theorem hold (hb : Balanced acc s blocks) (outcome : Outcome) :
    Balanced (acc.hold (s.hold outcome).1) (s.hold outcome).2 blocks := by
  have hsize : s.owners[s.owners.size]? = none := Array.getElem?_size
  have hagree := acc.agreeBut_hold (h := ⟨some s.owners.size⟩) rfl
  have ht := hb.tally.push (o := ⟨(s.ledger.allocate (Store.charge outcome)).1, some outcome, 1⟩)
    rfl rfl
  refine ⟨ht, ?_, hb.given, hb.again⟩
  have hnew : Source.id? s.owners blocks (.owner s.owners.size) = none := by
    simp only [Source.id?, hsize, Option.map_none]
  refine hb.charges.allocate hnew ?_ ?_ ?_ (Store.charge outcome)
  · simp only [Source.id?, Store.hold, Array.getElem?_push_size, Option.map_some,
      Ledger.allocate]
  · exact (ht.outcome Array.getElem?_push_size).mp rfl
  · intro source hne
    refine ⟨?_, hagree.due rfl hne⟩
    cases source with
    | block j => rfl
    | owner j =>
      have hj : j ≠ s.owners.size := fun hj => hne (hj ▸ rfl)
      simp only [Source.id?, Store.hold, Array.getElem?_push, if_neg hj]

theorem share (hb : Balanced acc s blocks) (hh : h.Held acc) :
    Balanced (acc.hold h) (s.share h) blocks := by
  rcases hb.owner_cases hh with ⟨hnone, ho⟩ | ⟨k, o, hk, hget, ho⟩
  · rw [acc.hold_empty hnone, Store.share, ho]
    exact hb
  have hpos : 0 < acc.held k := hh k hk
  have hheld : (acc.hold h).held k = 1 + acc.held k := by
    simp only [Account.hold, Handle.counts_self hk]
  have hdue : (acc.hold h).Due (.owner k) ↔ acc.Due (.owner k) := by
    simp only [Account.Due, hheld]
    exact and_congr_left fun _ => iff_of_true (by omega) hpos
  simp only [Store.share, ho, Store.setOwner, hk]
  refine hb.keep (acc.agreeBut_hold hk) rfl hget rfl ?_ ?_ hdue
  · show o.shares + 1 = _
    rw [hb.tally.shares hget, hheld, Nat.add_comm]
  · exact (hb.tally.outcome hget).trans hdue.symm

theorem drop (hb : Balanced (acc.hold h) s blocks) : Balanced acc (s.drop h) blocks := by
  have hh : h.Held (acc.hold h) := fun k hk => by
    simp only [Account.hold, Handle.counts_self hk]
    omega
  rcases hb.owner_cases hh with ⟨hnone, ho⟩ | ⟨k, o, hk, hget, ho⟩
  · rw [acc.hold_empty hnone] at hb
    rw [Store.drop, ho]
    exact hb
  have hheld : (acc.hold h).held k = 1 + acc.held k := by
    simp only [Account.hold, Handle.counts_self hk]
  have hshares : o.shares - 1 = acc.held k := by
    rw [hb.tally.shares hget, hheld, Nat.add_sub_cancel_left]
  have hagree := (acc.agreeBut_hold hk).symm
  have houtcome := hb.tally.outcome hget
  simp only [Store.drop, ho, Store.setOwner, hk]
  by_cases hlast : acc.held k = 0
  · -- the last handle releases, unless that was asked for before
    have hgone : ¬ acc.Due (.owner k) := fun h => absurd h.1 (by omega)
    obtain ⟨hlt, _⟩ := Array.getElem?_eq_some_iff.mp hget
    rw [if_pos (by omega)]
    simp only [Store.release, Store.owner?, hk, Option.bind_some,
      Array.getElem?_setIfInBounds_self_of_lt hlt]
    cases hout : o.outcome with
    | none =>
      rw [hout] at houtcome
      have hnot : ¬ (acc.hold h).Due (.owner k) := fun h => nomatch houtcome.mpr h
      exact hb.keep hagree rfl hget rfl hshares (iff_of_false nofun hgone)
        (iff_of_false hgone hnot)
    | some _ =>
      rw [hout] at houtcome
      simp only [Store.setOwner, hk, Array.setIfInBounds_setIfInBounds]
      exact hb.settle hagree rfl hget rfl hshares rfl (houtcome.mp rfl) hgone
  · have hdue : acc.Due (.owner k) ↔ (acc.hold h).Due (.owner k) := by
      simp only [Account.Due, hheld]
      exact and_congr_left fun _ => iff_of_true (by omega) (by omega)
    rw [if_neg (by omega)]
    exact hb.keep hagree rfl hget rfl hshares (houtcome.trans hdue.symm) hdue

/-- A release is the first of its owner or does nothing, and tells which. -/
theorem release (hb : Balanced acc s blocks) (hh : h.Held acc) :
    Balanced (acc.ask h) (s.release h).2 blocks ∧
      ((s.release h).1 = true ↔ ∃ k, h.owner = some k ∧ ¬ acc.asked k) := by
  rcases hb.owner_cases hh with ⟨hnone, ho⟩ | ⟨k, o, hk, hget, ho⟩
  · rw [acc.ask_again (by rw [hnone]; exact nofun), Store.release, ho]
    exact ⟨hb, iff_of_false nofun fun ⟨k, hk, _⟩ => nomatch hnone.symm.trans hk⟩
  have houtcome := hb.tally.outcome hget
  have hpos : 0 < acc.held k := hh k hk
  cases hout : o.outcome with
  | none =>
    rw [hout] at houtcome
    have hasked : acc.asked k := Classical.byContradiction fun hnot =>
      nomatch houtcome.mpr ⟨hpos, hnot⟩
    have hall : ∀ j, h.owner = some j → acc.asked j := by
      intro j hj
      rwa [← Option.some.inj (hk.symm.trans hj)]
    simp only [acc.ask_again hall, Store.release, ho, hout]
    exact ⟨hb, iff_of_false nofun fun ⟨j, hj, hnot⟩ => hnot (hall j hj)⟩
  | some _ =>
    rw [hout] at houtcome
    have hdue : acc.Due (.owner k) := houtcome.mp rfl
    have hshares : o.shares = (acc.ask h).held k := hb.tally.shares hget
    simp only [Store.release, ho, hout, Store.setOwner, hk]
    refine ⟨?_, iff_of_true trivial ⟨k, rfl, hdue.2⟩⟩
    exact hb.settle (acc.agreeBut_ask hk) rfl hget rfl hshares rfl hdue
      fun hdue' => hdue'.2 (.inl hk)

/-! ### Blocks without an owner -/

theorem allocate (hb : Balanced acc s blocks) (bytes : Nat) :
    Balanced acc { s with ledger := (s.ledger.allocate bytes).2 }
      (blocks.push (s.ledger.allocate bytes).1) := by
  have hsize : blocks[blocks.size]? = none := Array.getElem?_size
  have hnew : Source.id? s.owners blocks (.block blocks.size) = none := by
    simp only [Source.id?, hsize, Option.map_none]
  have hdue : acc.Due (.block blocks.size) := fun hmem => Nat.lt_irrefl _ (hb.given _ hmem)
  refine ⟨hb.tally, ?_, fun k hk => ?_, hb.again⟩
  · refine hb.charges.allocate hnew ?_ hdue ?_ bytes
    · simp only [Source.id?, Array.getElem?_push_size, Option.map_some, Ledger.allocate]
    · intro source hne
      refine ⟨?_, Iff.rfl⟩
      cases source with
      | owner j => rfl
      | block j =>
        have hj : j ≠ blocks.size := fun hj => hne (hj ▸ rfl)
        simp only [Source.id?, Array.getElem?_push, if_neg hj]
  · rw [Array.size_push]
    exact Nat.lt_succ_of_lt (hb.given k hk)

theorem free (hb : Balanced acc s blocks) {a : Allocation} (hk : blocks[k]? = some a) :
    Balanced { acc with freed := k :: acc.freed }
      { s with ledger := s.ledger.release a } blocks := by
  obtain ⟨hlt, _⟩ := Array.getElem?_eq_some_iff.mp hk
  have hid : Source.id? s.owners blocks (.block k) = some a.id := by
    simp only [Source.id?, hk, Option.map_some]
  have ht : Tally { acc with freed := k :: acc.freed } s.owners := { hb.tally with }
  have hgiven : ∀ j ∈ k :: acc.freed, j < blocks.size := by
    intro j hj
    rcases List.mem_cons.mp hj with rfl | hj
    · exact hlt
    · exact hb.given j hj
  by_cases hfreed : k ∈ acc.freed
  · obtain ⟨hcharges, hdouble⟩ := hb.charges.release_again hid fun h => h hfreed
    refine ⟨ht, hcharges.congr fun source => ?_, hgiven, ?_⟩
    · cases source with
      | owner j => exact Iff.rfl
      | block j =>
        show j ∉ k :: acc.freed ↔ j ∉ acc.freed
        rw [List.mem_cons, or_iff_right_of_imp fun hj => hj ▸ hfreed]
    · show (s.ledger.release a).doubleReleases = repeats (k :: acc.freed)
      rw [hdouble, hb.again, repeats, if_pos hfreed, Nat.add_comm]
  · have hrest : ∀ source, Account.Due { acc with freed := k :: acc.freed } source ↔
        source ≠ .block k ∧ acc.Due source := by
      intro source
      cases source with
      | owner j => exact (and_iff_right nofun).symm
      | block j =>
        show j ∉ k :: acc.freed ↔ Source.block j ≠ .block k ∧ j ∉ acc.freed
        rw [List.mem_cons, not_or, Ne, Source.block.injEq]
    obtain ⟨hcharges, hdouble⟩ := hb.charges.release hid hfreed hrest
    refine ⟨ht, hcharges, hgiven, ?_⟩
    show (s.ledger.release a).doubleReleases = repeats (k :: acc.freed)
    rw [hdouble, hb.again, repeats, if_neg hfreed, Nat.zero_add]

end Balanced

end Packrat
