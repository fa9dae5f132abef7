import Packrat.Handle.Store

/-!
# Shelves

A shelf is a store with numbered places for handles, and a list of blocks charged without an owner.
It is what a client of handles keeps, and its commands are all that can happen to them. A place that
gets a new handle drops the old one, after the new one is there.
-/

namespace Packrat

/-- Handles in numbered places, over one store. -/
structure Shelf where
  store : Store
  slots : List (Nat × Handle)
  /-- The blocks charged directly, in order. -/
  blocks : Array Allocation

namespace Shelf

def empty : Shelf := ⟨Store.empty, [], #[]⟩

/-- What can be done with a shelf. -/
inductive Command where
  | hold (slot : Nat) (outcome : Outcome)
  | holdEmpty (slot : Nat)
  | copy (source target : Nat)
  | drop (slot : Nat)
  | release (slot : Nat)
  | outcome (slot : Nat)
  | token (slot : Nat)
  | isSuccess (slot : Nat)
  /-- Looks at the handle itself. -/
  | inspect (slot : Nat)
  /-- Charges a block without an owner. -/
  | allocate (bytes : Nat)
  /-- Gives a block back that was charged so. -/
  | free (block : Nat)

inductive Answer where
  | done
  | flag (b : Bool)
  | outcome (o : Outcome)
  | token (t : Except Error Token)
  | success (s : Except Error Bool)
  | info (empty released : Bool) (shares : Nat)
  | block (a : Allocation)

/-- The handle in a place; a place that was never used holds nothing. -/
def handle (s : Shelf) (slot : Nat) : Handle :=
  (s.slots.lookup slot).getD Handle.empty

/-- Puts a handle in a place and then drops the one that was there. -/
def put (s : Shelf) (slot : Nat) (h : Handle) : Shelf :=
  let store := match s.slots.lookup slot with
    | some old => s.store.drop old
    | none => s.store
  { s with store := store, slots := (slot, h) :: s.slots.filter (·.1 != slot) }

/-- Carries out a command. -/
def step (s : Shelf) : Command → Shelf × Answer
  | .hold slot outcome =>
    let (h, store) := s.store.hold outcome
    ({ s with store := store }.put slot h, .done)
  | .holdEmpty slot => (s.put slot Handle.empty, .done)
  | .copy source target =>
    let h := s.handle source
    ({ s with store := s.store.share h }.put target h, .done)
  | .drop slot =>
    match s.slots.lookup slot with
    | none => (s, .flag false)
    | some h =>
      ({ s with store := s.store.drop h, slots := s.slots.filter (·.1 != slot) }, .flag true)
  | .release slot =>
    let (first, store) := s.store.release (s.handle slot)
    ({ s with store := store }, .flag first)
  | .outcome slot => (s, .outcome (s.store.outcome (s.handle slot)))
  | .token slot => (s, .token (s.store.token (s.handle slot)))
  | .isSuccess slot => (s, .success (s.store.isSuccess (s.handle slot)))
  | .inspect slot =>
    let h := s.handle slot
    (s, .info h.owner.isNone (s.store.isReleased h) (s.store.shareCount h))
  | .allocate bytes =>
    let (a, ledger) := s.store.ledger.allocate bytes
    ({ s with store := { s.store with ledger := ledger }, blocks := s.blocks.push a }, .block a)
  | .free k =>
    match s.blocks[k]? with
    | none => (s, .done)
    | some a =>
      ({ s with store := { s.store with ledger := s.store.ledger.release a } }, .done)

/-- Carries out commands in order. -/
def run (s : Shelf) : List Command → Shelf × List Answer
  | [] => (s, [])
  | c :: rest =>
    let (s, answer) := s.step c
    let (s, answers) := s.run rest
    (s, answer :: answers)

end Shelf

end Packrat
