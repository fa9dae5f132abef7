import Packrat.Handle.Shelf
import Packrat.Proofs.Handle.Custody

/-!
# Release-once accounting

Whatever is done with a shelf, the ledger can be read off its history. A block is
live for every owner that some place still holds and that was never released, and
for every block charged directly and not given back, and for nothing else. What is
given back too often was given back directly. And of all releases of an owner,
through whichever handle, the first says that it was the first, and no other does.

The history is kept newest first, as it grows. `Sound` ties it to the shelf by the
account it makes: the handles are those in the places, and what was asked and given
back is what the history tells. Every command keeps it, so every run does.
-/

namespace Packrat.Shelf

/-! ## Histories -/

/-- A command with the shelf on which it was carried out. -/
structure Entry where
  before : Shelf
  command : Command

namespace Entry

def answer (e : Entry) : Answer := (e.before.step e.command).2

/-- The owner that was asked to release, through whichever handle. -/
def asked? (e : Entry) : Option Nat :=
  match e.command with
  | .release slot => (e.before.handle slot).owner
  | _ => none

/-- The block that was given back directly. -/
def freed? (e : Entry) : Option Nat :=
  match e.command with
  | .free k => if k < e.before.blocks.size then some k else none
  | _ => none

end Entry

/-- What happened by the end of some commands, newest first. -/
def record (s : Shelf) (past : List Entry) : List Command → List Entry
  | [] => past
  | c :: rest => (s.step c).1.record (⟨s, c⟩ :: past) rest

/-- What the releases of an owner answered, newest first. -/
def releases (past : List Entry) (k : Nat) : List Answer :=
  (past.filter (·.asked? == some k)).map Entry.answer

def frees (past : List Entry) : List Nat := past.filterMap Entry.freed?

/-! ## A ledger that its history accounts for -/

/-- The id of the block that an owner is charged for, or that was charged directly. -/
def id? (s : Shelf) (source : Source) : Option Nat :=
  source.id? s.store.owners s.blocks

/-- Nobody has given this up yet. -/
def Outstanding (past : List Entry) (s : Shelf) : Source → Prop
  | .owner k => (∃ place ∈ s.slots, place.2.owner = some k) ∧ releases past k = []
  | .block k => k ∉ frees past

/-- Only the oldest answer says that its release was the first. -/
def FirstOnly (answers : List Answer) : Prop :=
  answers = [] ∨ ∃ n, answers = List.replicate n (.flag false) ++ [.flag true]

/-- The ledger of a shelf is as its history says. -/
structure Accounted (past : List Entry) (s : Shelf) : Prop where
  balance : s.store.ledger.allocated = s.store.ledger.released + s.store.ledger.live.length
  nodup : s.store.ledger.live.Nodup
  mem_live : ∀ id, id ∈ s.store.ledger.live ↔
    ∃ source, s.id? source = some id ∧ Outstanding past s source
  /-- No two share a block. -/
  unique : ∀ {source source' id}, s.id? source = some id → s.id? source' = some id →
    source = source'
  doubleReleases : s.store.ledger.doubleReleases = repeats (frees past)
  first_only : ∀ k, FirstOnly (releases past k)
  /-- The block of an owner goes with its last handle. -/
  dropped : ∀ {k id}, (∀ place ∈ s.slots, place.2.owner ≠ some k) →
    s.id? (.owner k) = some id → id ∉ s.store.ledger.live

/-! ## The account of a history -/

/-- How many places hold a handle of an owner. -/
def handles (slots : List (Nat × Handle)) (k : Nat) : Nat :=
  slots.countP (·.2.owner == some k)

def account (past : List Entry) (slots : List (Nat × Handle)) : Account where
  held := handles slots
  asked k := releases past k ≠ []
  freed := frees past

section

variable {past : List Entry} {e : Entry} {s : Shelf} {slots : List (Nat × Handle)}
  {slot : Nat} {h : Handle}

theorem releases_cons (past : List Entry) (e : Entry) (k : Nat) :
    releases (e :: past) k =
      if e.asked? = some k then e.answer :: releases past k else releases past k := by
  by_cases hk : e.asked? = some k
  · simp only [releases, List.filter_cons, hk, beq_self_eq_true, if_true, List.map_cons]
  · simp only [releases, List.filter_cons, beq_iff_eq, hk, if_false]

theorem handles_cons (slot : Nat) (h : Handle) (slots : List (Nat × Handle)) (k : Nat) :
    handles ((slot, h) :: slots) k = h.counts k + handles slots k := by
  simp only [handles, Handle.counts, List.countP_cons, beq_iff_eq]
  exact Nat.add_comm _ _

theorem handles_pos_iff {k : Nat} :
    0 < handles slots k ↔ ∃ place ∈ slots, place.2.owner = some k := by
  simp only [handles, List.countP_pos_iff, beq_iff_eq]

theorem perm_of_lookup (hslots : (slots.map Prod.fst).Nodup)
    (hlookup : slots.lookup slot = some h) :
    slots.Perm ((slot, h) :: slots.filter (·.1 != slot)) := by
  obtain ⟨front, back, rfl, hfront⟩ := List.lookup_eq_some_iff.mp hlookup
  have hback : ∀ place ∈ back, place.1 ≠ slot := by
    rw [List.map_append, List.map_cons] at hslots
    have hnot := (List.nodup_cons.mp (List.nodup_append.mp hslots).2.1).1
    intro place hplace heq
    exact hnot (List.mem_map.mpr ⟨place, hplace, heq⟩)
  have hkept : (front ++ (slot, h) :: back).filter (·.1 != slot) = front ++ back := by
    rw [List.filter_append, List.filter_cons_of_neg (by simp)]
    congr 1
    · exact List.filter_eq_self.mpr fun place hplace => by
        simpa [bne_iff_ne, ne_comm] using hfront place hplace
    · exact List.filter_eq_self.mpr fun place hplace => bne_iff_ne.mpr (hback place hplace)
  rw [hkept]
  exact List.perm_middle

theorem filter_of_lookup_none (hlookup : slots.lookup slot = none) :
    slots.filter (·.1 != slot) = slots := by
  refine List.filter_eq_self.mpr fun place hplace => bne_iff_ne.mpr fun heq => ?_
  exact absurd (List.lookup_eq_none_iff.mp hlookup place hplace) (by simp [heq])

theorem account_cons (past : List Entry) (slot : Nat) (h : Handle)
    (slots : List (Nat × Handle)) :
    account past ((slot, h) :: slots) = (account past slots).hold h := by
  have hhandles : handles ((slot, h) :: slots) = fun k => h.counts k + handles slots k :=
    funext (handles_cons slot h slots)
  rw [account, hhandles]
  rfl

theorem account_lookup (hslots : (slots.map Prod.fst).Nodup)
    (hlookup : slots.lookup slot = some h) :
    account past slots = (account past (slots.filter (·.1 != slot))).hold h := by
  have hhandles : handles slots = handles ((slot, h) :: slots.filter (·.1 != slot)) :=
    funext fun k => (perm_of_lookup hslots hlookup).countP_eq _
  rw [← account_cons past slot]
  simp only [account, hhandles]

theorem handle_held (past : List Entry) (s : Shelf) (slot : Nat) :
    (s.handle slot).Held (account past s.slots) := by
  intro k hk
  refine handles_pos_iff.mpr ?_
  cases hlookup : s.slots.lookup slot with
  | none =>
    rw [handle, hlookup] at hk
    cases hk
  | some h =>
    rw [handle, hlookup] at hk
    obtain ⟨front, back, hslots, _⟩ := List.lookup_eq_some_iff.mp hlookup
    exact ⟨(slot, h), by rw [hslots]; simp, hk⟩

/-! ## Soundness -/

/-- The shelf agrees with the account of its history. -/
structure Sound (past : List Entry) (s : Shelf) : Prop where
  balanced : Balanced (account past s.slots) s.store s.blocks
  nodup : (s.slots.map Prod.fst).Nodup
  first_only : ∀ k, FirstOnly (releases past k)

theorem sound_empty : Sound [] empty := by
  refine ⟨⟨⟨nofun, nofun, fun _ => ⟨rfl, fun h => h rfl⟩⟩, ?_, nofun, rfl⟩, List.nodup_nil,
    fun _ => .inl rfl⟩
  have hnone : ∀ source id, Source.id? #[] #[] source ≠ some id := by
    rintro (k | k) id <;> exact nofun
  refine ⟨fun h => absurd h (hnone _ _), fun h => absurd h (hnone _ _), ?_⟩
  exact Ledger.keeps_empty.congr fun id =>
    iff_of_false not_false fun ⟨source, h, _⟩ => hnone source id h

/-- A command that neither releases nor gives a block back changes no account. -/
theorem Sound.quiet (hs : Sound past s) (hasked : e.asked? = none) (hfreed : e.freed? = none) :
    Sound (e :: past) s := by
  have hreleases : releases (e :: past) = releases past := by
    funext k
    rw [releases_cons, hasked, if_neg nofun]
  have haccount : account (e :: past) s.slots = account past s.slots := by
    simp only [account, hreleases, frees, List.filterMap_cons_none hfreed]
  exact ⟨haccount ▸ hs.balanced, hs.nodup, hreleases ▸ hs.first_only⟩

theorem nodup_filter (hslots : (slots.map Prod.fst).Nodup) :
    ((slots.filter (·.1 != slot)).map Prod.fst).Nodup :=
  hslots.sublist (List.filter_sublist.map Prod.fst)

/-- A new handle, already counted, comes to its place. -/
theorem Sound.put {store : Store} (hs : Sound past s)
    (hb : Balanced ((account past s.slots).hold h) store s.blocks) :
    Sound past ({ s with store := store }.put slot h) := by
  refine ⟨?_, ?_, hs.first_only⟩
  · show Balanced (account past ((slot, h) :: s.slots.filter (·.1 != slot))) _ s.blocks
    rw [account_cons]
    cases hlookup : s.slots.lookup slot with
    | none =>
      simp only [Shelf.put, hlookup, filter_of_lookup_none hlookup]
      exact hb
    | some old =>
      simp only [Shelf.put, hlookup]
      rw [account_lookup hs.nodup hlookup, Account.hold_hold] at hb
      exact hb.drop
  · show (slot :: (s.slots.filter (·.1 != slot)).map Prod.fst).Nodup
    refine List.nodup_cons.mpr ⟨fun hmem => ?_, nodup_filter hs.nodup⟩
    obtain ⟨place, hplace, heq⟩ := List.mem_map.mp hmem
    exact bne_iff_ne.mp (List.mem_filter.mp hplace).2 heq

theorem Sound.drop (hs : Sound past s) (hlookup : s.slots.lookup slot = some h) :
    Sound past { s with
      store := s.store.drop h
      slots := s.slots.filter (·.1 != slot) } := by
  refine ⟨?_, nodup_filter hs.nodup, hs.first_only⟩
  have hb := hs.balanced
  rw [account_lookup hs.nodup hlookup] at hb
  exact hb.drop

theorem Sound.release (hs : Sound past s) (slot : Nat) :
    Sound (⟨s, .release slot⟩ :: past)
      { s with store := (s.store.release (s.handle slot)).2 } := by
  obtain ⟨hb, hfirst⟩ := hs.balanced.release (handle_held past s slot)
  have hreleases : ∀ k, releases (⟨s, .release slot⟩ :: past) k =
      if (s.handle slot).owner = some k
      then .flag (s.store.release (s.handle slot)).1 :: releases past k
      else releases past k := releases_cons past _
  refine ⟨?_, hs.nodup, fun k => ?_⟩
  · have haccount : account (⟨s, .release slot⟩ :: past) s.slots =
        (account past s.slots).ask (s.handle slot) := by
      have hasked : ∀ k, releases (⟨s, .release slot⟩ :: past) k ≠ [] ↔
          (s.handle slot).owner = some k ∨ releases past k ≠ [] := by
        intro k
        rw [hreleases]
        split
        · next hk => exact iff_of_true nofun (.inl hk)
        · next hk => exact (or_iff_right hk).symm
      simp only [account, Account.ask, hasked]
      rfl
    rw [haccount]
    exact hb
  · rw [hreleases]
    split
    · next hk =>
      rcases hs.first_only k with hnone | ⟨n, hn⟩
      · have htrue := hfirst.mpr ⟨k, hk, fun h => h hnone⟩
        rw [htrue, hnone]
        exact .inr ⟨0, rfl⟩
      · have hfalse : (s.store.release (s.handle slot)).1 = false := by
          rw [← Bool.not_eq_true, hfirst]
          rintro ⟨j, hj, hnot⟩
          rw [← Option.some.inj (hk.symm.trans hj)] at hnot
          exact hnot (by show releases past k ≠ []; rw [hn]; simp)
        rw [hfalse, hn]
        exact .inr ⟨n + 1, rfl⟩
    · exact hs.first_only k

theorem Sound.free (hs : Sound past s) {k : Nat} {a : Allocation}
    (hk : s.blocks[k]? = some a) :
    Sound (⟨s, .free k⟩ :: past)
      { s with store := { s.store with ledger := s.store.ledger.release a } } := by
  obtain ⟨hlt, _⟩ := Array.getElem?_eq_some_iff.mp hk
  have hfreed : Entry.freed? ⟨s, .free k⟩ = some k := if_pos hlt
  have hreleases : releases (⟨s, .free k⟩ :: past) = releases past := by
    funext j
    rw [releases_cons]
    exact if_neg nofun
  have haccount : account (⟨s, .free k⟩ :: past) s.slots =
      { account past s.slots with freed := k :: frees past } := by
    simp only [account, hreleases, frees, List.filterMap_cons_some hfreed]
  refine ⟨?_, hs.nodup, hreleases ▸ hs.first_only⟩
  rw [haccount]
  exact hs.balanced.free hk

theorem Sound.step (hs : Sound past s) (c : Command) :
    Sound (⟨s, c⟩ :: past) (s.step c).1 := by
  cases c with
  | hold slot outcome => exact (hs.put (hs.balanced.hold outcome)).quiet rfl rfl
  | holdEmpty slot =>
    have hnothing : (account past s.slots).hold Handle.empty = account past s.slots :=
      Account.hold_empty _ rfl
    refine Sound.quiet (hs.put ?_) rfl rfl
    rw [hnothing]
    exact hs.balanced
  | copy source target =>
    exact (hs.put (hs.balanced.share (handle_held past s source))).quiet rfl rfl
  | drop slot =>
    refine Sound.quiet ?_ rfl rfl
    cases hlookup : s.slots.lookup slot with
    | none =>
      simp only [Shelf.step, hlookup]
      exact hs
    | some h =>
      simp only [Shelf.step, hlookup]
      exact hs.drop hlookup
  | release slot => exact hs.release slot
  | outcome slot => exact hs.quiet rfl rfl
  | token slot => exact hs.quiet rfl rfl
  | isSuccess slot => exact hs.quiet rfl rfl
  | inspect slot => exact hs.quiet rfl rfl
  | allocate bytes =>
    refine Sound.quiet ?_ rfl rfl
    exact ⟨hs.balanced.allocate bytes, hs.nodup, hs.first_only⟩
  | free k =>
    cases hk : s.blocks[k]? with
    | none =>
      have hge := Array.getElem?_eq_none_iff.mp hk
      simp only [Shelf.step, hk]
      exact hs.quiet rfl (if_neg (Nat.not_lt_of_le hge))
    | some a =>
      simp only [Shelf.step, hk]
      exact hs.free hk

theorem Sound.run (hs : Sound past s) (cs : List Command) :
    Sound (s.record past cs) (s.run cs).1 := by
  induction cs generalizing past s with
  | nil => exact hs
  | cons c rest ih => exact ih (hs.step c)

theorem Sound.accounted (hs : Sound past s) : Accounted past s := by
  have hcharges := hs.balanced.charges
  have hdue : ∀ source, (account past s.slots).Due source ↔ Outstanding past s source := by
    intro source
    cases source with
    | owner k => exact and_congr handles_pos_iff Classical.not_not
    | block k => exact Iff.rfl
  have hlive : ∀ id, id ∈ s.store.ledger.live ↔
      ∃ source, s.id? source = some id ∧ Outstanding past s source := by
    intro id
    simp only [hcharges.keeps.mem_live, hdue]
    rfl
  refine ⟨hcharges.keeps.balance, hcharges.keeps.nodup, hlive, hcharges.unique,
    hs.balanced.again, hs.first_only, fun hgone hid hmem => ?_⟩
  obtain ⟨source, hsource, hout⟩ := (hlive _).mp hmem
  rw [hcharges.unique hsource hid] at hout
  obtain ⟨⟨place, hplace, howner⟩, _⟩ := hout
  exact hgone place hplace howner

end

/-- The history has the answers that were given. -/
theorem answers_record (s : Shelf) (past : List Entry) (cs : List Command) :
    ((s.record past cs).map Entry.answer).reverse =
      (past.map Entry.answer).reverse ++ (s.run cs).2 := by
  induction cs generalizing s past with
  | nil => exact (List.append_nil _).symm
  | cons c rest ih =>
    rw [record, ih, List.map_cons, List.reverse_cons, List.append_assoc]
    rfl

end Packrat.Shelf
