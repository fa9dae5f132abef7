import Packrat.Proofs.Handle.Accounting

/-!
# What a handle reads

A handle reads what its original was made with, until some copy of that original
is released. This file says so without a store. A `Lineage` follows the commands
and keeps three things: what each original was made with, which originals were
released through some copy, and of which original the handle in each place is a
copy. There are no owners in it, no shares and no ledger, and dropping a handle
does nothing but empty its place.

`Traced` ties a shelf to a lineage. The one thing it needs of the store beyond what
the accounts already say is that no operation puts an outcome anywhere: an owner
has what it was made with or nothing (`Inherits`). Everything else a handle can be
asked then follows from the account of the history.

That a command leaves other owners alone is not read off the lineage. It is a
matter of the store, where each operation touches the owner of one handle only.
-/

namespace Packrat

/-! ## Lineages -/

/-- Where handles come from. An original is numbered by when it was made. -/
structure Lineage where
  originals : Array Outcome
  /-- The originals that were released, through whichever copy. -/
  released : List Nat
  /-- The original of the handle in each place; an empty handle has none. -/
  places : List (Nat × Option Nat)

namespace Lineage

open Packrat.Shelf (Command)

def empty : Lineage := ⟨#[], [], []⟩

/-- The original of the handle in a place. -/
def origin (l : Lineage) (slot : Nat) : Option Nat := (l.places.lookup slot).getD none

def put (l : Lineage) (slot : Nat) (origin : Option Nat) : Lineage :=
  { l with places := (slot, origin) :: l.places.filter (·.1 != slot) }

def release (l : Lineage) (slot : Nat) : Lineage :=
  match l.origin slot with
  | none => l
  | some k => { l with released := k :: l.released }

/-- What a command does. Whatever reads, or charges blocks directly, does nothing. -/
def step (l : Lineage) : Command → Lineage
  | .hold slot outcome =>
    { l with originals := l.originals.push outcome }.put slot (some l.originals.size)
  | .holdEmpty slot => l.put slot none
  | .copy source target => l.put target (l.origin source)
  | .drop slot => { l with places := l.places.filter (·.1 != slot) }
  | .release slot => l.release slot
  | .outcome _ | .token _ | .isSuccess _ | .inspect _ | .allocate _ | .free _ => l

def run (l : Lineage) (cs : List Command) : Lineage := cs.foldl step l

/-- How many copies of an original are in some place, itself included. -/
def copies (l : Lineage) (k : Nat) : Nat := l.places.countP (·.2 == some k)

/-- What the original of a handle was made with. -/
def madeWith (l : Lineage) (slot : Nat) : Option Outcome :=
  (l.origin slot).bind (l.originals[·]?)

/-- A command handles a copy of this original, or takes the place of one. -/
def Concerns (l : Lineage) (k : Nat) : Command → Prop
  | .hold slot _ | .holdEmpty slot | .drop slot | .release slot | .outcome slot | .token slot
  | .isSuccess slot | .inspect slot => l.origin slot = some k
  | .copy source target => l.origin source = some k ∨ l.origin target = some k
  | .allocate _ | .free _ => False

end Lineage

/-! ## Readings -/

/-- All that a handle can be asked. -/
structure Reading where
  outcome : Outcome
  token : Except Error Token
  success : Except Error Bool
  shares : Nat

def Store.reading (s : Store) (h : Handle) : Reading :=
  ⟨s.outcome h, s.token h, s.isSuccess h, s.shareCount h⟩

def Shelf.reading (s : Shelf) (slot : Nat) : Reading := s.store.reading (s.handle slot)

/-- A handle that has nothing to read answers everything with one error. -/
def Reading.unreadable (kind : Error.Kind) (shares : Nat) : Reading :=
  ⟨.error (.plain kind), .error (.plain kind), .error (.plain kind), shares⟩

/-- The reading of an outcome that is there. -/
def Reading.ofOutcome (outcome : Outcome) (shares : Nat) : Reading :=
  ⟨outcome, outcome.map Parsed.token, .ok outcome.isOk, shares⟩

/-- The handle in a place reads as its lineage says. -/
structure Lineage.Reads (l : Lineage) (slot : Nat) (r : Reading) : Prop where
  empty : l.origin slot = none → r = .unreadable .emptyResult 0
  released : ∀ k, l.origin slot = some k → k ∈ l.released →
    r = .unreadable .resultReleased (l.copies k)
  kept : ∀ k, l.origin slot = some k → k ∉ l.released →
    ∃ outcome, l.originals[k]? = some outcome ∧ r = .ofOutcome outcome (l.copies k)

section

variable {l : Lineage} {slot : Nat} {r : Reading}

theorem Lineage.madeWith_eq {k : Nat} (hk : l.origin slot = some k) :
    l.madeWith slot = l.originals[k]? := by
  rw [madeWith, hk, Option.bind_some]

theorem Lineage.Reads.success_empty_iff (h : l.Reads slot r) :
    r.success = .error (.plain .emptyResult) ↔ l.origin slot = none := by
  cases hk : l.origin slot with
  | none =>
      rw [h.empty hk]
      exact iff_of_true rfl rfl
  | some k =>
      refine iff_of_false ?_ nofun
      by_cases hreleased : k ∈ l.released
      · rw [h.released k hk hreleased]
        exact nofun
      · obtain ⟨outcome, _, hr⟩ := h.kept k hk hreleased
        rw [hr]
        exact nofun

theorem Lineage.Reads.success_released_iff (h : l.Reads slot r) :
    r.success = .error (.plain .resultReleased) ↔
      ∃ k, l.origin slot = some k ∧ k ∈ l.released := by
  cases hk : l.origin slot with
  | none =>
      rw [h.empty hk]
      exact iff_of_false nofun fun ⟨k, hk', _⟩ => nomatch hk'
  | some k =>
      by_cases hreleased : k ∈ l.released
      · rw [h.released k hk hreleased]
        exact iff_of_true rfl ⟨k, rfl, hreleased⟩
      · obtain ⟨outcome, _, hr⟩ := h.kept k hk hreleased
        rw [hr]
        refine iff_of_false nofun ?_
        rintro ⟨j, hj, hmem⟩
        cases hj
        exact hreleased hmem

/-- The outcome tells as much as whether there was a success, unless the original was
made with that very error. -/
theorem Lineage.Reads.outcome_iff_success (h : l.Reads slot r) {kind : Error.Kind}
    (hmade : l.madeWith slot ≠ some (.error (.plain kind))) :
    r.outcome = .error (.plain kind) ↔ r.success = .error (.plain kind) := by
  have hunreadable : ∀ kind' shares, r = .unreadable kind' shares →
      (r.outcome = .error (.plain kind) ↔ r.success = .error (.plain kind)) := by
    rintro kind' shares rfl
    simp only [Reading.unreadable, Except.error.injEq]
  cases hk : l.origin slot with
  | none => exact hunreadable _ _ (h.empty hk)
  | some k =>
      by_cases hreleased : k ∈ l.released
      · exact hunreadable _ _ (h.released k hk hreleased)
      · obtain ⟨outcome, hout, hr⟩ := h.kept k hk hreleased
        rw [hr]
        refine iff_of_false ?_ nofun
        rintro rfl
        exact hmade ((madeWith_eq hk).trans hout)

end

/-! ## What the operations of a store leave alone -/

namespace Store

variable {s s' : Store} {h h' : Handle} {o : Owner}

theorem reading_of_none (ho : s.owner? h = none) :
    s.reading h = .unreadable .emptyResult 0 := by
  simp only [reading, outcome, token, isSuccess, shareCount, ho, Option.map_none,
    Option.getD_none]
  rfl

theorem reading_of_gone (ho : s.owner? h = some o) (hgone : o.outcome = none) :
    s.reading h = .unreadable .resultReleased o.shares := by
  simp only [reading, outcome, token, isSuccess, shareCount, ho, hgone, Option.map_some,
    Option.getD_some, Option.getD_none]
  rfl

theorem reading_of_kept {x : Outcome} (ho : s.owner? h = some o) (hx : o.outcome = some x) :
    s.reading h = .ofOutcome x o.shares := by
  simp only [reading, outcome, token, isSuccess, shareCount, ho, hx, Option.map_some,
    Option.getD_some]
  cases x <;> rfl

theorem reading_congr (ho : s'.owner? h = s.owner? h) : s'.reading h = s.reading h := by
  simp only [reading, outcome, token, isSuccess, shareCount, ho]

theorem owner?_setOwner_ne (hne : h.owner ≠ h'.owner) :
    (s.setOwner h' o).owner? h = s.owner? h := by
  cases h' with
  | mk owner' =>
      cases owner' with
      | none => rfl
      | some j =>
          cases hk : h.owner with
          | none => simp only [owner?, hk, Option.bind_none]
          | some k =>
              have hj : j ≠ k := fun hj => hne (by rw [hk, hj])
              simp only [owner?, setOwner, hk, Option.bind_some,
                Array.getElem?_setIfInBounds_ne hj]

theorem owner?_share_ne (hne : h.owner ≠ h'.owner) : (s.share h').owner? h = s.owner? h := by
  unfold share
  cases s.owner? h' with
  | none => rfl
  | some o => exact owner?_setOwner_ne hne

theorem owner?_release_ne (hne : h.owner ≠ h'.owner) :
    (s.release h').2.owner? h = s.owner? h := by
  unfold release
  cases s.owner? h' with
  | none => rfl
  | some o =>
      simp only []
      cases o.outcome with
      | none => rfl
      | some x =>
          show (s.setOwner h' { o with outcome := none }).owner? h = _
          exact owner?_setOwner_ne hne

theorem owner?_drop_ne (hne : h.owner ≠ h'.owner) : (s.drop h').owner? h = s.owner? h := by
  unfold drop
  cases s.owner? h' with
  | none => rfl
  | some o =>
      simp only []
      split
      · rw [owner?_release_ne hne, owner?_setOwner_ne hne]
      · exact owner?_setOwner_ne hne

theorem owner?_hold (x : Outcome) (ho : s.owner? h = some o) :
    (s.hold x).2.owner? h = some o := by
  cases hk : h.owner with
  | none => rw [owner?, hk] at ho; cases ho
  | some k =>
      rw [owner?, hk, Option.bind_some] at ho
      obtain ⟨hlt, _⟩ := Array.getElem?_eq_some_iff.mp ho
      simp only [owner?, hk, Option.bind_some, hold, Array.getElem?_push_lt hlt]
      rw [← ho, Array.getElem?_eq_getElem hlt]

/-- The owners are the same ones, and none has come to an outcome. -/
structure Inherits (s s' : Store) : Prop where
  size : s'.owners.size = s.owners.size
  outcome : ∀ {k : Nat} {o' : Owner} {x : Outcome}, s'.owners[k]? = some o' →
    o'.outcome = some x → ∃ o, s.owners[k]? = some o ∧ o.outcome = some x

theorem Inherits.refl (s : Store) : Inherits s s :=
  ⟨rfl, fun ho hx => ⟨_, ho, hx⟩⟩

theorem Inherits.trans {s'' : Store} (h : Inherits s s') (h' : Inherits s' s'') :
    Inherits s s'' where
  size := h'.size.trans h.size
  outcome ho hx := by
    obtain ⟨o', ho', hx'⟩ := h'.outcome ho hx
    exact h.outcome ho' hx'

theorem Inherits.setOwner {o' : Owner} (ho : s.owner? h = some o)
    (hx : ∀ x, o'.outcome = some x → o.outcome = some x) : Inherits s (s.setOwner h o') := by
  cases hk : h.owner with
  | none => rw [owner?, hk] at ho; cases ho
  | some k =>
      rw [owner?, hk, Option.bind_some] at ho
      obtain ⟨hlt, _⟩ := Array.getElem?_eq_some_iff.mp ho
      simp only [Store.setOwner, hk]
      refine ⟨Array.size_setIfInBounds, fun {j} {o''} {x} hj hx'' => ?_⟩
      by_cases hjk : k = j
      · subst hjk
        rw [Array.getElem?_setIfInBounds_self_of_lt hlt] at hj
        cases hj
        exact ⟨o, ho, hx x hx''⟩
      · rw [Array.getElem?_setIfInBounds_ne hjk] at hj
        exact ⟨o'', hj, hx''⟩

theorem inherits_share (s : Store) (h : Handle) : Inherits s (s.share h) := by
  unfold share
  cases ho : s.owner? h with
  | none => exact .refl s
  | some o => exact .setOwner ho fun _ hx => hx

theorem inherits_release (s : Store) (h : Handle) : Inherits s (s.release h).2 := by
  unfold release
  cases ho : s.owner? h with
  | none => exact .refl s
  | some o =>
      simp only []
      cases o.outcome with
      | none => exact .refl s
      | some x =>
          have hset : Inherits s (s.setOwner h { o with outcome := none }) :=
            .setOwner ho nofun
          exact ⟨hset.size, hset.outcome⟩

theorem inherits_drop (s : Store) (h : Handle) : Inherits s (s.drop h) := by
  unfold drop
  cases ho : s.owner? h with
  | none => exact .refl s
  | some o =>
      have hset : Inherits s (s.setOwner h { o with shares := o.shares - 1 }) :=
        .setOwner ho fun _ hx => hx
      simp only []
      split
      · exact hset.trans (inherits_release _ h)
      · exact hset

end Store

/-! ## A shelf and its lineage -/

section Places

variable {α β : Type}

theorem lookup_filter_ne {other slot : Nat} (hne : other ≠ slot) (places : List (Nat × α)) :
    (places.filter (·.1 != slot)).lookup other = places.lookup other := by
  induction places with
  | nil => rfl
  | cons place rest ih =>
      obtain ⟨first, x⟩ := place
      rw [List.filter_cons, List.lookup_cons]
      by_cases hfirst : first = slot
      · subst hfirst
        simp only [bne_self_eq_false, Bool.false_eq_true, if_false, beq_false_of_ne hne]
        exact ih
      · rw [if_pos (bne_iff_ne.mpr hfirst), List.lookup_cons, ih]

theorem lookup_map_snd (f : α → β) (slot : Nat) (places : List (Nat × α)) :
    (places.map fun place => (place.1, f place.2)).lookup slot =
      (places.lookup slot).map f := by
  induction places with
  | nil => rfl
  | cons place rest ih =>
      obtain ⟨first, x⟩ := place
      rw [List.map_cons, List.lookup_cons, List.lookup_cons]
      cases slot == first with
      | true => rfl
      | false => exact ih

end Places

namespace Shelf

variable {l : Lineage} {past : List Entry} {s : Shelf} {slot : Nat}

/-- Every handle is of the original that the lineage says, and what an owner still
has is what it was made with. -/
structure Follows (l : Lineage) (s : Shelf) : Prop where
  slots : s.slots = l.places.map fun place => (place.1, Handle.mk place.2)
  size : s.store.owners.size = l.originals.size
  kept : ∀ {k : Nat} {o : Owner} {x : Outcome}, s.store.owners[k]? = some o →
    o.outcome = some x → l.originals[k]? = some x

theorem Follows.handle (hf : Follows l s) (slot : Nat) : s.handle slot = ⟨l.origin slot⟩ := by
  rw [Shelf.handle, hf.slots, lookup_map_snd, Lineage.origin]
  cases l.places.lookup slot <;> rfl

theorem Follows.handles (hf : Follows l s) (k : Nat) : handles s.slots k = l.copies k := by
  rw [Shelf.handles, hf.slots, List.countP_map]
  rfl

theorem Follows.inherits (hf : Follows l s) {store : Store} (hi : s.store.Inherits store) :
    Follows l { s with store := store } where
  slots := hf.slots
  size := hi.size.trans hf.size
  kept ho hx := by
    obtain ⟨o, ho', hx'⟩ := hi.outcome ho hx
    exact hf.kept ho' hx'

theorem Follows.hold (hf : Follows l s) (x : Outcome) :
    Follows { l with originals := l.originals.push x }
      { s with store := (s.store.hold x).2 } where
  slots := hf.slots
  size := by
    show (s.store.owners.push _).size = _
    rw [Array.size_push, Array.size_push, hf.size]
  kept {k o y} ho hy := by
    change (s.store.owners.push _)[k]? = some o at ho
    rw [Array.getElem?_push] at ho
    rw [Array.getElem?_push, ← hf.size]
    split at ho
    · next hk =>
        cases ho
        cases hy
        rw [if_pos hk]
    · next hk =>
        rw [if_neg hk]
        exact hf.kept ho hy

theorem filter_places (l : Lineage) (slot : Nat) :
    (l.places.map fun place => (place.1, Handle.mk place.2)).filter (·.1 != slot) =
      (l.places.filter (·.1 != slot)).map fun place => (place.1, Handle.mk place.2) :=
  List.filter_map

theorem Follows.put (hf : Follows l s) (slot : Nat) (origin : Option Nat) :
    Follows (l.put slot origin) (s.put slot ⟨origin⟩) := by
  have hslots : (s.put slot ⟨origin⟩).slots =
      (l.put slot origin).places.map fun place => (place.1, Handle.mk place.2) := by
    show (slot, Handle.mk origin) :: s.slots.filter (·.1 != slot) = _
    rw [hf.slots, filter_places]
    rfl
  have hinherits : s.store.Inherits (s.put slot ⟨origin⟩).store := by
    simp only [Shelf.put]
    cases s.slots.lookup slot with
    | none => exact .refl _
    | some old => exact Store.inherits_drop _ _
  exact ⟨hslots, (hf.inherits hinherits).size, (hf.inherits hinherits).kept⟩

theorem Follows.step (hf : Follows l s) (c : Command) : Follows (l.step c) (s.step c).1 := by
  cases c with
  | hold slot outcome =>
      have hput := (hf.hold outcome).put slot (some s.store.owners.size)
      rw [hf.size] at hput
      simp only [Shelf.step, Store.hold]
      rw [hf.size]
      exact hput
  | holdEmpty slot => exact hf.put slot none
  | copy source target =>
      have hput := (hf.inherits (Store.inherits_share s.store (s.handle source))).put target
        (l.origin source)
      rw [← hf.handle source] at hput
      exact hput
  | drop slot =>
      have hplaces : s.slots.filter (·.1 != slot) =
          (l.step (.drop slot)).places.map fun place => (place.1, Handle.mk place.2) := by
        rw [hf.slots, filter_places]
        rfl
      cases hlookup : s.slots.lookup slot with
      | none =>
          simp only [Shelf.step, hlookup]
          rw [filter_of_lookup_none hlookup] at hplaces
          exact ⟨hplaces, hf.size, hf.kept⟩
      | some h =>
          have hdrop := hf.inherits (Store.inherits_drop s.store h)
          simp only [Shelf.step, hlookup]
          exact ⟨hplaces, hdrop.size, hdrop.kept⟩
  | release slot =>
      have hrelease := hf.inherits (Store.inherits_release s.store (s.handle slot))
      have hsame : (l.release slot).places = l.places ∧
          (l.release slot).originals = l.originals := by
        unfold Lineage.release
        cases l.origin slot <;> exact ⟨rfl, rfl⟩
      refine ⟨?_, ?_, ?_⟩
      · exact hsame.1 ▸ hrelease.slots
      · exact hsame.2 ▸ hrelease.size
      · exact hsame.2 ▸ hrelease.kept
  | outcome slot | token slot | isSuccess slot | inspect slot => exact hf
  | allocate bytes => exact ⟨hf.slots, hf.size, hf.kept⟩
  | free k =>
      cases hk : s.blocks[k]? with
      | none =>
          simp only [Shelf.step, hk]
          exact hf
      | some a =>
          simp only [Shelf.step, hk]
          exact ⟨hf.slots, hf.size, hf.kept⟩

/-! ## What was asked, and by whom -/

/-- The originals that some copy was asked to release are those the history has
answers for. -/
def Asked (l : Lineage) (past : List Entry) : Prop :=
  ∀ k, releases past k ≠ [] ↔ k ∈ l.released

theorem Asked.quiet (ha : Asked l past) {e : Entry} (he : e.asked? = none) {l' : Lineage}
    (hl : l'.released = l.released) : Asked l' (e :: past) := by
  intro k
  rw [releases_cons, he, if_neg nofun, hl]
  exact ha k

theorem Asked.release (ha : Asked l past) (hf : Follows l s) (slot : Nat) :
    Asked (l.release slot) (⟨s, .release slot⟩ :: past) := by
  have howner : Entry.asked? ⟨s, .release slot⟩ = l.origin slot := by
    show (s.handle slot).owner = _
    rw [hf.handle slot]
  intro k
  rw [releases_cons, howner, Lineage.release]
  cases hslot : l.origin slot with
  | none => exact ha k
  | some j =>
      by_cases hj : j = k
      · subst hj
        rw [if_pos rfl]
        exact iff_of_true nofun List.mem_cons_self
      · rw [if_neg fun h => hj (Option.some.inj h), ha k]
        exact ⟨List.mem_cons_of_mem j, fun h => (List.mem_cons.mp h).resolve_left (Ne.symm hj)⟩

theorem Asked.step (ha : Asked l past) (hf : Follows l s) (c : Command) :
    Asked (l.step c) (⟨s, c⟩ :: past) := by
  cases c with
  | release slot => exact ha.release hf slot
  | _ => exact ha.quiet rfl rfl

/-- The shelf agrees with its history and with its lineage. -/
structure Traced (l : Lineage) (past : List Entry) (s : Shelf) : Prop where
  sound : Sound past s
  follows : Follows l s
  asked : Asked l past

theorem traced_empty : Traced .empty [] empty where
  sound := sound_empty
  follows := ⟨rfl, rfl, nofun⟩
  asked _ := iff_of_false (fun h => h rfl) List.not_mem_nil

theorem Traced.run (ht : Traced l past s) (cs : List Command) :
    Traced (l.run cs) (s.record past cs) (s.run cs).1 := by
  induction cs generalizing l past s with
  | nil => exact ht
  | cons c rest ih => exact ih ⟨ht.sound.step c, ht.follows.step c, ht.asked.step ht.follows c⟩

/-! ## Readings follow from the lineage -/

theorem Traced.reads (ht : Traced l past s) (slot : Nat) : l.Reads slot (s.reading slot) := by
  have howner : (s.handle slot).owner = l.origin slot := by rw [ht.follows.handle]
  rcases ht.sound.balanced.owner_cases (handle_held past s slot) with
    ⟨hnone, ho⟩ | ⟨k, o, hk, hget, ho⟩
  · have horigin : l.origin slot = none := howner.symm.trans hnone
    refine ⟨fun _ => Store.reading_of_none ho, fun k hk => ?_, fun k hk => ?_⟩
    · rw [horigin] at hk; cases hk
    · rw [horigin] at hk; cases hk
  · have horigin : l.origin slot = some k := howner.symm.trans hk
    have hshares : o.shares = l.copies k := by
      rw [← ht.follows.handles]
      exact ht.sound.balanced.tally.shares hget
    -- the handle itself is held, so only a release can have taken the outcome
    have hdue : o.outcome.isSome ↔ k ∉ l.released := by
      rw [ht.sound.balanced.tally.outcome hget, ← ht.asked]
      exact and_iff_right (handle_held past s slot k hk)
    refine ⟨fun hnone => ?_, fun j hj hmem => ?_, fun j hj hmem => ?_⟩
    · rw [horigin] at hnone; cases hnone
    · rw [horigin] at hj
      cases hj
      have hgone : o.outcome = none := Option.not_isSome_iff_eq_none.mp
        fun hsome => hdue.mp hsome hmem
      rw [← hshares]
      exact Store.reading_of_gone ho hgone
    · rw [horigin] at hj
      cases hj
      obtain ⟨x, hx⟩ := Option.isSome_iff_exists.mp (hdue.mpr hmem)
      rw [← hshares]
      exact ⟨x, ht.follows.kept hget hx, Store.reading_of_kept ho hx⟩

/-! ## Other owners -/

/-- A place whose handle is of another owner than `h` reads the same as before. -/
def Undisturbed (h : Handle) (s s' : Shelf) : Prop :=
  ∀ slot, h.owner ≠ (s.handle slot).owner → s'.handle slot = s.handle slot ∧
    s'.store.owner? (s.handle slot) = s.store.owner? (s.handle slot)

theorem reading_eq {s' : Shelf} (h : s'.handle slot = s.handle slot ∧
    s'.store.owner? (s.handle slot) = s.store.owner? (s.handle slot)) :
    s'.reading slot = s.reading slot := by
  rw [Shelf.reading, h.1]
  exact Store.reading_congr h.2

theorem undisturbed_put (s : Shelf) (target : Nat) (h : Handle) :
    Undisturbed (s.handle target) s (s.put target h) := by
  intro slot hne
  have hslot : slot ≠ target := fun heq => hne (heq ▸ rfl)
  constructor
  · show (((target, h) :: s.slots.filter (·.1 != target)).lookup slot).getD Handle.empty = _
    rw [List.lookup_cons, beq_false_of_ne hslot]
    simp only [lookup_filter_ne hslot]
    rfl
  · cases hlookup : s.slots.lookup target with
    | none => simp only [Shelf.put, hlookup]
    | some old =>
        have hold : s.handle target = old := by rw [handle, hlookup, Option.getD_some]
        simp only [Shelf.put, hlookup]
        exact Store.owner?_drop_ne (hold ▸ hne.symm)

theorem undisturbed_drop (s : Shelf) (target : Nat) :
    Undisturbed (s.handle target) s (s.step (.drop target)).1 := by
  intro slot hne
  have hslot : slot ≠ target := fun heq => hne (heq ▸ rfl)
  cases hlookup : s.slots.lookup target with
  | none =>
      have hstep : (s.step (.drop target)).1 = s := by simp only [Shelf.step, hlookup]
      rw [hstep]
      exact ⟨rfl, rfl⟩
  | some old =>
      have hold : s.handle target = old := by rw [handle, hlookup, Option.getD_some]
      simp only [Shelf.step, hlookup]
      refine ⟨?_, Store.owner?_drop_ne (hold ▸ hne.symm)⟩
      simp only [handle, lookup_filter_ne hslot]

theorem Traced.undisturbed (ht : Traced l past s) {k : Nat} (hk : l.origin slot = some k)
    {c : Command} (hc : ¬ l.Concerns k c) :
    (s.step c).1.reading slot = s.reading slot := by
  have howner : ∀ other, (s.handle other).owner = l.origin other :=
    fun other => by rw [ht.follows.handle]
  have hne : ∀ {other}, l.origin other ≠ some k →
      (s.handle other).owner ≠ (s.handle slot).owner := by
    intro other hother
    rw [howner, howner, hk]
    exact hother
  cases c with
  | hold target outcome =>
      have hput := undisturbed_put { s with store := (s.store.hold outcome).2 } target
        (s.store.hold outcome).1 slot (hne hc)
      refine (reading_eq hput).trans (Store.reading_congr ?_)
      rcases ht.sound.balanced.owner_cases (handle_held past s slot) with
        ⟨hnone, _⟩ | ⟨_, o, _, _, ho⟩
      · rw [howner, hk] at hnone; cases hnone
      · exact (Store.owner?_hold outcome ho).trans ho.symm
  | holdEmpty target => exact reading_eq (undisturbed_put s target _ slot (hne hc))
  | copy source target =>
      have hput := undisturbed_put { s with store := s.store.share (s.handle source) } target
        (s.handle source) slot (hne fun h => hc (.inr h))
      refine (reading_eq hput).trans (Store.reading_congr ?_)
      exact Store.owner?_share_ne (hne fun h => hc (.inl h)).symm
  | drop target => exact reading_eq (undisturbed_drop s target slot (hne hc))
  | release target => exact Store.reading_congr (Store.owner?_release_ne (hne hc).symm)
  | outcome target | token target | isSuccess target | inspect target => rfl
  | allocate bytes => rfl
  | free j =>
      simp only [Shelf.step]
      cases s.blocks[j]? <;> rfl

/-! ## Runs -/

/-- Whatever commands are carried out, in whichever order, the places that hold a
handle are those of the lineage, and each handle reads as its lineage says: an empty
one that it is empty, a copy of an original that was released through any of its
copies that it was released, and any other one what the original was made with. The
two errors are told apart from an outcome by asking for success; the outcome itself
tells them too, but for an original that was made with one of them. No command changes
what a handle reads whose original it does not concern. -/
theorem run_reads (cs : List Command) :
    (empty.run cs).1.slots.map Prod.fst = (Lineage.empty.run cs).places.map Prod.fst ∧
    (∀ slot, (Lineage.empty.run cs).Reads slot ((empty.run cs).1.reading slot)) ∧
    (∀ slot, ((empty.run cs).1.reading slot).success = .error (.plain .emptyResult) ↔
      (Lineage.empty.run cs).origin slot = none) ∧
    (∀ slot, ((empty.run cs).1.reading slot).success = .error (.plain .resultReleased) ↔
      ∃ k, (Lineage.empty.run cs).origin slot = some k ∧
        k ∈ (Lineage.empty.run cs).released) ∧
    (∀ slot, (Lineage.empty.run cs).madeWith slot ≠ some (.error (.plain .emptyResult)) →
      (((empty.run cs).1.reading slot).outcome = .error (.plain .emptyResult) ↔
        (Lineage.empty.run cs).origin slot = none)) ∧
    (∀ slot, (Lineage.empty.run cs).madeWith slot ≠ some (.error (.plain .resultReleased)) →
      (((empty.run cs).1.reading slot).outcome = .error (.plain .resultReleased) ↔
        ∃ k, (Lineage.empty.run cs).origin slot = some k ∧
          k ∈ (Lineage.empty.run cs).released)) ∧
    ∀ c slot k, (Lineage.empty.run cs).origin slot = some k →
      ¬ (Lineage.empty.run cs).Concerns k c →
      ((empty.run cs).1.step c).1.reading slot = (empty.run cs).1.reading slot := by
  have ht := traced_empty.run cs
  have hempty := fun slot => (ht.reads slot).success_empty_iff
  have hreleased := fun slot => (ht.reads slot).success_released_iff
  refine ⟨?_, ht.reads, hempty, hreleased, ?_, ?_, fun c slot k hk hc => ht.undisturbed hk hc⟩
  · rw [ht.follows.slots, List.map_map]
    rfl
  · exact fun slot hmade => ((ht.reads slot).outcome_iff_success hmade).trans (hempty slot)
  · exact fun slot hmade => ((ht.reads slot).outcome_iff_success hmade).trans (hreleased slot)

/-- A success with a copy, a failure, and an empty handle. The success is dropped
where it was made and released through its copy. -/
def releasedCopy : List Command :=
  [.hold 0 (.ok ⟨.uint 1, 3⟩), .copy 0 1, .hold 2 (.error (.located .noMatch 0)),
    .holdEmpty 3, .drop 0, .release 1]

/-- The copy was released, and dropping it as well leaves the failure readable. -/
theorem run_reads_released_copy :
    (empty.run releasedCopy).1.reading 1 = .unreadable .resultReleased 1 ∧
    ((empty.run releasedCopy).1.reading 1).outcome = .error (.plain .resultReleased) ∧
    (empty.run releasedCopy).1.reading 2 = .ofOutcome (.error (.located .noMatch 0)) 1 ∧
    ((empty.run releasedCopy).1.reading 3).outcome = .error (.plain .emptyResult) ∧
    ((empty.run releasedCopy).1.step (.drop 1)).1.reading 2 =
      .ofOutcome (.error (.located .noMatch 0)) 1 := by
  obtain ⟨_, hreads, _, _, hempty, hreleased, hother⟩ := run_reads releasedCopy
  have hcopy : (empty.run releasedCopy).1.reading 1 = .unreadable .resultReleased 1 :=
    (hreads 1).released 0 rfl (by decide)
  have hfirst : ((empty.run releasedCopy).1.reading 1).outcome =
      .error (.plain .resultReleased) := (hreleased 1 nofun).mpr ⟨0, rfl, by decide⟩
  obtain ⟨outcome, hmade, hfailure⟩ := (hreads 2).kept 1 rfl (by decide)
  cases hmade
  have hthird : ((empty.run releasedCopy).1.reading 3).outcome =
      .error (.plain .emptyResult) := (hempty 3 nofun).mpr rfl
  have hdrop : ((empty.run releasedCopy).1.step (.drop 1)).1.reading 2 =
      (empty.run releasedCopy).1.reading 2 := hother (.drop 1) 2 1 rfl nofun
  exact ⟨hcopy, hfirst, hfailure, hthird, hdrop.trans hfailure⟩

end Shelf

end Packrat
