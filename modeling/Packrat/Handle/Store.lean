import Packrat.Event
import Packrat.Handle.Ledger

/-!
# Release-once handles

An outcome may be large, and those who hold it decide when it goes. A handle is a share of an owner,
and the owner has the outcome together with the memory charged for it. Both are given back exactly
once: at the first release through any share, or when the last share is dropped. Releasing again
does nothing, so handles never give a block back twice.
-/

namespace Packrat

/-! ## Owners -/

/-- An outcome with the memory charged for it, and how many handles share it. -/
structure Owner where
  allocation : Allocation
  /-- The outcome until it is released. -/
  outcome : Option Outcome
  shares : Nat

/-- A share of an owner, or an empty handle. -/
structure Handle where
  owner : Option Nat
  deriving DecidableEq

def Handle.empty : Handle := ⟨none⟩

/-- All owners with the ledger of their memory. -/
structure Store where
  owners : Array Owner
  ledger : Ledger

namespace Store

def empty : Store := ⟨#[], Ledger.empty⟩

/-- The memory an outcome takes: a unit for each token of a success, one for a failure. -/
def charge : Outcome → Nat
  | .ok parsed => parsed.token.nodeCount
  | .error _ => 1

def owner? (s : Store) (h : Handle) : Option Owner :=
  h.owner.bind (s.owners[·]?)

/-- Puts an owner in the place of a handle's owner. -/
def setOwner (s : Store) (h : Handle) (o : Owner) : Store :=
  match h.owner with
  | none => s
  | some k => { s with owners := s.owners.setIfInBounds k o }

/-- Makes an owner for an outcome, with one handle. -/
def hold (s : Store) (outcome : Outcome) : Handle × Store :=
  let (allocation, ledger) := s.ledger.allocate (charge outcome)
  (⟨some s.owners.size⟩, ⟨s.owners.push ⟨allocation, some outcome, 1⟩, ledger⟩)

/-- Adds a share, so that the handle may be held once more. -/
def share (s : Store) (h : Handle) : Store :=
  match s.owner? h with
  | none => s
  | some o => s.setOwner h { o with shares := o.shares + 1 }

/-- Gives the outcome and its memory back, and tells whether this was the first time. -/
def release (s : Store) (h : Handle) : Bool × Store :=
  match s.owner? h with
  | none => (false, s)
  | some o =>
    match o.outcome with
    | none => (false, s)
    | some _ =>
      let s := s.setOwner h { o with outcome := none }
      (true, { s with ledger := s.ledger.release o.allocation })

/-- Gives up a share. The last one releases. -/
def drop (s : Store) (h : Handle) : Store :=
  match s.owner? h with
  | none => s
  | some o =>
    let s := s.setOwner h { o with shares := o.shares - 1 }
    if o.shares ≤ 1 then (s.release h).2 else s

/-- What a handle holds. -/
def outcome (s : Store) (h : Handle) : Outcome :=
  match s.owner? h with
  | none => .error (.plain .emptyResult)
  | some o => o.outcome.getD (.error (.plain .resultReleased))

def token (s : Store) (h : Handle) : Except Error Token :=
  (s.outcome h).map Parsed.token

def isSuccess (s : Store) (h : Handle) : Except Error Bool :=
  match s.owner? h with
  | none => .error (.plain .emptyResult)
  | some o =>
    match o.outcome with
    | none => .error (.plain .resultReleased)
    | some (.ok _) => .ok true
    | some (.error _) => .ok false

def isReleased (s : Store) (h : Handle) : Bool :=
  (s.owner? h).any (·.outcome.isNone)

/-- How many handles share the handle's owner. -/
def shareCount (s : Store) (h : Handle) : Nat :=
  ((s.owner? h).map Owner.shares).getD 0

end Store

end Packrat
