import Packrat.Proofs.Handle.Lineage

/-!
# What blocks are charged for

The account of a shelf speaks of the owners and the blocks that the shelf has. Which ones
it must have is said here by the commands alone. Each command that makes an original and
each one that charges a block directly has a block of its own, and blocks are numbered in
the order of the charges. A `Bill` lists the charges, so the number of a block is its
place in the list. Which of the blocks are live is then known from the bill and the
lineage, without a store or a ledger.

`Billed` ties a shelf to its bill. Operations on handles that are there charge nothing:
owners keep the blocks they have, and the ledger makes no new ones (`ChargesNothing`). So
two commands are left that charge, and both put one block at the end.
-/

namespace Packrat

open Packrat.Shelf (Command Answer)

/-! ## Bills -/

/-- What was charged, and what was given back directly. -/
structure Bill where
  /-- What the blocks were charged for, in order. -/
  charges : List Source
  /-- How many originals were made. -/
  originals : Nat
  /-- The blocks that were charged directly, in order. -/
  blocks : List Allocation
  /-- Which of those were given back, newest first. -/
  freed : List Nat

namespace Bill

def empty : Bill := ⟨[], 0, [], []⟩

/-- What a command does. Giving back a block that was never charged does nothing. -/
def step (b : Bill) : Command → Bill
  | .hold _ _ =>
    { b with charges := b.charges ++ [.owner b.originals], originals := b.originals + 1 }
  | .allocate bytes =>
    { b with
      charges := b.charges ++ [.block b.blocks.length]
      blocks := b.blocks ++ [⟨b.charges.length, bytes⟩] }
  | .free k => if k < b.blocks.length then { b with freed := k :: b.freed } else b
  | .holdEmpty _ | .copy _ _ | .drop _ | .release _ | .outcome _ | .token _ | .isSuccess _
  | .inspect _ => b

def run (b : Bill) (cs : List Command) : Bill := cs.foldl step b

/-- A block is owed for an original with a copy in some place that was never released, and
for a block charged directly that was not given back. -/
def Owes (b : Bill) (l : Lineage) : Source → Prop
  | .owner k => (∃ place ∈ l.places, place.2 = some k) ∧ k ∉ l.released
  | .block k => k ∉ b.freed

end Bill

/-- The commands that charge. -/
def Shelf.Command.isCharge : Command → Bool
  | .hold _ _ | .allocate _ => true
  | _ => false

/-- The block in the answer to a direct charge. -/
def Shelf.Answer.block? : Answer → Option Allocation
  | .block a => some a
  | _ => none

/-! ## Operations that charge nothing -/

namespace Store

variable {s s' s'' : Store} {h : Handle} {o o' : Owner}

/-- The owners have the blocks that they had, and there are no new ones. -/
structure ChargesNothing (s s' : Store) : Prop where
  id? : ∀ blocks, Source.id? s'.owners blocks = Source.id? s.owners blocks
  size : s'.owners.size = s.owners.size
  nextId : s'.ledger.nextId = s.ledger.nextId
  allocated : s'.ledger.allocated = s.ledger.allocated

theorem ChargesNothing.refl (s : Store) : ChargesNothing s s := ⟨fun _ => rfl, rfl, rfl, rfl⟩

theorem ChargesNothing.trans (h : ChargesNothing s s') (h' : ChargesNothing s' s'') :
    ChargesNothing s s'' where
  id? blocks := (h'.id? blocks).trans (h.id? blocks)
  size := h'.size.trans h.size
  nextId := h'.nextId.trans h.nextId
  allocated := h'.allocated.trans h.allocated

theorem chargesNothing_setOwner (ho : s.owner? h = some o) (ha : o'.allocation = o.allocation) :
    ChargesNothing s (s.setOwner h o') := by
  cases hk : h.owner with
  | none => rw [owner?, hk] at ho; cases ho
  | some k =>
      rw [owner?, hk, Option.bind_some] at ho
      simp only [Store.setOwner, hk]
      exact ⟨fun _ => Source.id?_set ho ha, Array.size_setIfInBounds, rfl, rfl⟩

theorem chargesNothing_giveBack (s : Store) (a : Allocation) :
    ChargesNothing s { s with ledger := s.ledger.release a } := by
  refine ⟨fun _ => rfl, rfl, ?_, ?_⟩ <;> simp only [Ledger.release] <;> split <;> rfl

theorem chargesNothing_share (s : Store) (h : Handle) : ChargesNothing s (s.share h) := by
  unfold share
  cases ho : s.owner? h with
  | none => exact .refl s
  | some o => exact chargesNothing_setOwner ho rfl

theorem chargesNothing_release (s : Store) (h : Handle) : ChargesNothing s (s.release h).2 := by
  unfold release
  cases ho : s.owner? h with
  | none => exact .refl s
  | some o =>
      simp only []
      cases o.outcome with
      | none => exact .refl s
      | some x =>
          have hset : ChargesNothing s (s.setOwner h { o with outcome := none }) :=
            chargesNothing_setOwner ho rfl
          exact hset.trans (chargesNothing_giveBack _ o.allocation)

theorem chargesNothing_drop (s : Store) (h : Handle) : ChargesNothing s (s.drop h) := by
  unfold drop
  cases ho : s.owner? h with
  | none => exact .refl s
  | some o =>
      have hset : ChargesNothing s (s.setOwner h { o with shares := o.shares - 1 }) :=
        chargesNothing_setOwner ho rfl
      simp only []
      split
      · exact hset.trans (chargesNothing_release _ h)
      · exact hset

end Store

namespace Shelf

variable {b : Bill} {l : Lineage} {past : List Entry} {s s' : Shelf}

theorem chargesNothing_put (s : Shelf) (slot : Nat) (h : Handle) :
    s.store.ChargesNothing (s.put slot h).store := by
  unfold put
  cases s.slots.lookup slot with
  | none => exact .refl _
  | some old => exact Store.chargesNothing_drop _ _

/-! ## A shelf and its bill -/

/-- The blocks that a history has answered with, in order. -/
def answeredBlocks (past : List Entry) : List Allocation :=
  (past.map Entry.answer).reverse.filterMap Answer.block?

theorem answeredBlocks_cons (e : Entry) (past : List Entry) :
    answeredBlocks (e :: past) = answeredBlocks past ++ e.answer.block?.toList := by
  rw [answeredBlocks, List.map_cons, List.reverse_cons, List.filterMap_append]
  cases hanswer : e.answer.block? with
  | none => rw [List.filterMap_cons_none hanswer]; rfl
  | some a => rw [List.filterMap_cons_some hanswer]; rfl

/-- Every owner and every block of the shelf is one of the charges, and the history has
answered and given back what the bill says. -/
structure Billed (b : Bill) (past : List Entry) (s : Shelf) : Prop where
  id?_iff : ∀ source id, s.id? source = some id ↔ b.charges[id]? = some source
  nextId : s.store.ledger.nextId = b.charges.length
  allocated : s.store.ledger.allocated = b.charges.length
  originals : s.store.owners.size = b.originals
  blocks : s.blocks.toList = b.blocks
  freed : frees past = b.freed
  answered : answeredBlocks past = b.blocks

theorem billed_empty : Billed .empty [] empty where
  id?_iff source id := by
    cases source <;> exact iff_of_false nofun nofun
  nextId := rfl
  allocated := rfl
  originals := rfl
  blocks := rfl
  freed := rfl
  answered := rfl

theorem Billed.keep (hb : Billed b past s) (hs : s.store.ChargesNothing s'.store)
    (hblocks : s'.blocks = s.blocks) : Billed b past s' where
  id?_iff source id := by
    have hsame : s'.id? source = s.id? source := by
      rw [Shelf.id?, hblocks, hs.id?, Shelf.id?]
    rw [hsame]
    exact hb.id?_iff source id
  nextId := hs.nextId.trans hb.nextId
  allocated := hs.allocated.trans hb.allocated
  originals := hs.size.trans hb.originals
  blocks := hblocks ▸ hb.blocks
  freed := hb.freed
  answered := hb.answered

/-- A command that answers with no block and gives none back is not on the bill. -/
theorem Billed.quiet (hb : Billed b past s) {e : Entry} (hanswer : e.answer.block? = none)
    (hfreed : e.freed? = none) : Billed b (e :: past) s where
  id?_iff := hb.id?_iff
  nextId := hb.nextId
  allocated := hb.allocated
  originals := hb.originals
  blocks := hb.blocks
  freed := by
    rw [frees, List.filterMap_cons_none hfreed]
    exact hb.freed
  answered := by
    rw [answeredBlocks_cons, hanswer, hb.answered]
    exact List.append_nil b.blocks

section Charge

variable {charges : List Source} {ids ids' : Source → Option Nat} {new : Source}

/-- A new charge has the block behind all others. -/
theorem id?_iff_concat (h : ∀ source id, ids source = some id ↔ charges[id]? = some source)
    (hnone : ids new = none) (hnew : ids' new = some charges.length)
    (hother : ∀ source, source ≠ new → ids' source = ids source) (source : Source) (id : Nat) :
    ids' source = some id ↔ (charges ++ [new])[id]? = some source := by
  have hconcat : (charges ++ [new])[id]? = some source ↔
      charges[id]? = some source ∨ id = charges.length ∧ new = source := by
    rw [List.getElem?_append]
    split
    · next hlt => exact (or_iff_left fun hlast => Nat.ne_of_lt hlt hlast.1).symm
    · next hge =>
        rw [List.getElem?_eq_none (Nat.le_of_not_lt hge), List.getElem?_singleton]
        split <;> simp <;> omega
  rw [hconcat]
  by_cases hsource : source = new
  · subst hsource
    rw [hnew, ← h, hnone, or_iff_right nofun, Option.some.injEq, eq_comm]
    exact (and_iff_left rfl).symm
  · rw [hother source hsource, h, or_iff_left fun hlast => hsource hlast.2.symm]

end Charge

theorem Billed.hold (hb : Billed b past s) (slot : Nat) (outcome : Outcome) :
    Billed (b.step (.hold slot outcome)) past { s with store := (s.store.hold outcome).2 } where
  id?_iff := by
    have hsize : s.store.owners[s.store.owners.size]? = none := Array.getElem?_size
    rw [Bill.step, ← hb.originals]
    refine id?_iff_concat hb.id?_iff ?_ ?_ fun source hne => ?_
    · simp only [Shelf.id?, Source.id?, hsize, Option.map_none]
    · simp only [Shelf.id?, Source.id?, Store.hold, Array.getElem?_push_size, Option.map_some,
        Ledger.allocate, hb.nextId]
    · cases source with
      | block k => rfl
      | owner k =>
          have hk : k ≠ s.store.owners.size := fun hk => hne (hk ▸ rfl)
          simp only [Shelf.id?, Source.id?, Store.hold, Array.getElem?_push, if_neg hk]
  nextId := by
    rw [Bill.step, List.length_append, ← hb.nextId]
    rfl
  allocated := by
    rw [Bill.step, List.length_append, ← hb.allocated]
    rfl
  originals := by
    show (s.store.owners.push _).size = _
    rw [Array.size_push, hb.originals]
    rfl
  blocks := hb.blocks
  freed := hb.freed
  answered := hb.answered

theorem Billed.allocate (hb : Billed b past s) (bytes : Nat) :
    Billed (b.step (.allocate bytes)) (⟨s, .allocate bytes⟩ :: past)
      (s.step (.allocate bytes)).1 where
  id?_iff := by
    have hsize : s.blocks[s.blocks.size]? = none := Array.getElem?_size
    rw [Bill.step, ← hb.blocks, Array.length_toList]
    refine id?_iff_concat hb.id?_iff ?_ ?_ fun source hne => ?_
    · simp only [Shelf.id?, Source.id?, hsize, Option.map_none]
    · simp only [Shelf.id?, Source.id?, Shelf.step, Array.getElem?_push_size, Option.map_some,
        Ledger.allocate, hb.nextId]
    · cases source with
      | owner k => rfl
      | block k =>
          have hk : k ≠ s.blocks.size := fun hk => hne (hk ▸ rfl)
          simp only [Shelf.id?, Source.id?, Shelf.step, Array.getElem?_push, if_neg hk]
  nextId := by
    rw [Bill.step, List.length_append, ← hb.nextId]
    rfl
  allocated := by
    rw [Bill.step, List.length_append, ← hb.allocated]
    rfl
  originals := hb.originals
  blocks := by
    show (s.blocks.push ⟨s.store.ledger.nextId, bytes⟩).toList = _
    rw [Array.toList_push, hb.blocks, hb.nextId]
    rfl
  freed := hb.freed
  answered := by
    have hanswer : Entry.answer ⟨s, .allocate bytes⟩ =
        .block ⟨b.charges.length, bytes⟩ := by
      rw [← hb.nextId]
      rfl
    rw [answeredBlocks_cons, hanswer, hb.answered]
    rfl

theorem Billed.free (hb : Billed b past s) (k : Nat) :
    Billed (b.step (.free k)) (⟨s, .free k⟩ :: past) (s.step (.free k)).1 := by
  have hlength : s.blocks.size = b.blocks.length := by rw [← hb.blocks, Array.length_toList]
  cases hk : s.blocks[k]? with
  | none =>
      have hge : ¬ k < b.blocks.length := by
        rw [← hlength]
        exact Nat.not_lt_of_le (Array.getElem?_eq_none_iff.mp hk)
      have hnone : (s.step (.free k)) = (s, .done) := by simp only [Shelf.step, hk]
      rw [Bill.step, if_neg hge, hnone]
      refine hb.quiet ?_ (if_neg (hlength ▸ hge))
      rw [Entry.answer, hnone]
      rfl
  | some a =>
      obtain ⟨hlt, _⟩ := Array.getElem?_eq_some_iff.mp hk
      have hsome : s.step (.free k) = ({ s with
          store := { s.store with ledger := s.store.ledger.release a } }, .done) := by
        simp only [Shelf.step, hk]
      have hkept : Billed b past (s.step (.free k)).1 := by
        rw [hsome]
        exact hb.keep (Store.chargesNothing_giveBack s.store a) rfl
      have hfreed : Entry.freed? ⟨s, .free k⟩ = some k := if_pos hlt
      have hanswer : (Entry.answer ⟨s, .free k⟩).block? = none := by
        rw [Entry.answer, hsome]
        rfl
      rw [Bill.step, if_pos (hlength ▸ hlt)]
      refine { hkept with freed := ?_, answered := ?_ }
      · rw [frees, List.filterMap_cons_some hfreed]
        exact congrArg (k :: ·) hb.freed
      · rw [answeredBlocks_cons, hanswer, hb.answered]
        exact List.append_nil b.blocks

theorem Billed.step (hb : Billed b past s) (c : Command) :
    Billed (b.step c) (⟨s, c⟩ :: past) (s.step c).1 := by
  cases c with
  | hold slot outcome =>
      have hput := (hb.hold slot outcome).keep
        (chargesNothing_put { s with store := (s.store.hold outcome).2 } slot
          (s.store.hold outcome).1) rfl
      exact hput.quiet rfl rfl
  | holdEmpty slot => exact (hb.keep (chargesNothing_put s slot _) rfl).quiet rfl rfl
  | copy source target =>
      have hshare := Store.chargesNothing_share s.store (s.handle source)
      have hput := chargesNothing_put { s with store := s.store.share (s.handle source) } target
        (s.handle source)
      have hkept : Billed b past (s.step (.copy source target)).1 :=
        hb.keep (hshare.trans hput) rfl
      exact hkept.quiet rfl rfl
  | drop slot =>
      cases hlookup : s.slots.lookup slot with
      | none =>
          have hstep : s.step (.drop slot) = (s, .flag false) := by simp only [Shelf.step, hlookup]
          rw [hstep]
          refine hb.quiet ?_ rfl
          rw [Entry.answer, hstep]
          rfl
      | some h =>
          have hdrop : s.store.ChargesNothing (s.step (.drop slot)).1.store := by
            simp only [Shelf.step, hlookup]
            exact Store.chargesNothing_drop s.store h
          have hanswer : (Entry.answer ⟨s, .drop slot⟩).block? = none := by
            simp only [Entry.answer, Shelf.step, hlookup]
            rfl
          exact (hb.keep hdrop (by simp only [Shelf.step, hlookup])).quiet hanswer rfl
  | release slot =>
      have hkept : Billed b past (s.step (.release slot)).1 :=
        hb.keep (Store.chargesNothing_release s.store (s.handle slot)) rfl
      exact hkept.quiet rfl rfl
  | outcome slot | token slot | isSuccess slot | inspect slot => exact hb.quiet rfl rfl
  | allocate bytes => exact hb.allocate bytes
  | free k => exact hb.free k

theorem Billed.run (hb : Billed b past s) (cs : List Command) :
    Billed (b.run cs) (s.record past cs) (s.run cs).1 := by
  induction cs generalizing b past s with
  | nil => exact hb
  | cons c rest ih => exact ih (hb.step c)

/-! ## The ledger by the commands alone -/

/-- Every charge of the commands has its own block, numbered by its place, and the blocks
that are owed are the live ones. -/
structure Charged (cs : List Command) (s : Shelf) (answers : List Answer) : Prop where
  id?_iff : ∀ source id, s.id? source = some id ↔ (Bill.empty.run cs).charges[id]? = some source
  allocated : s.store.ledger.allocated = (Bill.empty.run cs).charges.length
  mem_live : ∀ id, id ∈ s.store.ledger.live ↔
    ∃ source, (Bill.empty.run cs).charges[id]? = some source ∧
      (Bill.empty.run cs).Owes (Lineage.empty.run cs) source
  doubleReleases : s.store.ledger.doubleReleases = repeats (Bill.empty.run cs).freed
  /-- A direct charge is answered with its block. -/
  answered : answers.filterMap Answer.block? = (Bill.empty.run cs).blocks

/-- What is outstanding by the history is owed by the bill and the lineage. -/
theorem Billed.owes_iff (hb : Billed b past s) (ht : Traced l past s) (source : Source) :
    Outstanding past s source ↔ b.Owes l source := by
  cases source with
  | owner k =>
      have hplaces : (∃ place ∈ s.slots, place.2.owner = some k) ↔
          ∃ place ∈ l.places, place.2 = some k := by
        rw [ht.follows.slots]
        constructor
        · rintro ⟨_, hmem, howner⟩
          obtain ⟨place, hplace, rfl⟩ := List.mem_map.mp hmem
          exact ⟨place, hplace, howner⟩
        · rintro ⟨place, hplace, horigin⟩
          exact ⟨_, List.mem_map_of_mem hplace, horigin⟩
      refine and_congr hplaces ?_
      rw [← ht.asked k, Classical.not_not]
  | block k =>
      show k ∉ frees past ↔ k ∉ b.freed
      rw [hb.freed]

theorem charged_run (cs : List Command) : Charged cs (empty.run cs).1 (empty.run cs).2 := by
  have ht := traced_empty.run cs
  have hb := billed_empty.run cs
  have ha := ht.sound.accounted
  refine ⟨hb.id?_iff, hb.allocated, fun id => ?_, ?_, ?_⟩
  · rw [ha.mem_live]
    simp only [hb.owes_iff ht, hb.id?_iff]
  · rw [ha.doubleReleases, hb.freed]
  · have hanswers := answers_record empty [] cs
    rw [List.map_nil, List.reverse_nil, List.nil_append] at hanswers
    rw [← hanswers]
    exact hb.answered

/-- The block of the newest charge is live. -/
theorem owes_newest (cs : List Command) {c : Command} (hc : c.isCharge = true) :
    ∃ source, (Bill.empty.run (cs ++ [c])).charges[(Bill.empty.run cs).charges.length]? =
        some source ∧
      (Bill.empty.run (cs ++ [c])).Owes (Lineage.empty.run (cs ++ [c])) source := by
  have ht := traced_empty.run cs
  have hb := billed_empty.run cs
  have hbill : Bill.empty.run (cs ++ [c]) = (Bill.empty.run cs).step c := List.foldl_append
  have hlineage : Lineage.empty.run (cs ++ [c]) = (Lineage.empty.run cs).step c :=
    List.foldl_append
  rw [hbill, hlineage]
  cases c with
  | hold slot outcome =>
      refine ⟨_, List.getElem?_concat_length, ?_, ?_⟩
      · refine ⟨(slot, some _), List.mem_cons_self, ?_⟩
        rw [← hb.originals, ht.follows.size]
      · have hnew := (ht.sound.balanced.tally.beyond (Nat.le_refl _)).2
        rw [← hb.originals]
        exact fun hmem => hnew ((ht.asked _).mpr hmem)
  | allocate bytes =>
      refine ⟨_, List.getElem?_concat_length, fun hmem => ?_⟩
      have hlt := ht.sound.balanced.given _ (hb.freed ▸ hmem)
      rw [← hb.blocks, Array.length_toList] at hlt
      exact Nat.lt_irrefl _ hlt
  | _ => cases hc

/-- Whatever commands are carried out, in whichever order, the ledger is as their
history says, and the history has the answers that were given. Which blocks there are
and which of them are live follows from the commands alone: each charge has the next
block, which is live as long as it is owed, from the moment of the charge on. -/
theorem run_accounted (cs : List Command) :
    ((empty.record [] cs).map Entry.answer).reverse = (empty.run cs).2 ∧
      Accounted (empty.record [] cs) (empty.run cs).1 ∧
      Charged cs (empty.run cs).1 (empty.run cs).2 ∧
      (∀ slot outcome, (Bill.empty.run cs).charges.length ∈
        (empty.run (cs ++ [.hold slot outcome])).1.store.ledger.live) ∧
      ∀ bytes, (Bill.empty.run cs).charges.length ∈
        (empty.run (cs ++ [.allocate bytes])).1.store.ledger.live :=
  ⟨answers_record empty [] cs, (sound_empty.run cs).accounted, charged_run cs,
    fun _ _ => ((charged_run _).mem_live _).mpr (owes_newest cs rfl),
    fun _ => ((charged_run _).mem_live _).mpr (owes_newest cs rfl)⟩

/-- A copy releases first, and neither the handle it was made from nor the drop of
the last one gives the block back again. -/
example (outcome : Outcome) :
    (empty.run [.hold 0 outcome, .copy 0 1, .release 1, .release 0, .drop 0, .drop 1]).2 =
      [.done, .done, .flag true, .flag false, .flag true, .flag true] ∧
    (empty.run [.hold 0 outcome, .copy 0 1, .release 1, .release 0, .drop 0,
      .drop 1]).1.store.ledger = ⟨1, [], 1, 1, 0⟩ :=
  ⟨rfl, rfl⟩

end Shelf

end Packrat
