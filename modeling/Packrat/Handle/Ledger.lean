/-!
# The ledger

An account of memory: blocks are charged one after another and given back one by one. The ledger
counts both, and also attempts to give back a block that is not live.
-/

namespace Packrat

structure Allocation where
  id : Nat
  bytes : Nat
  deriving DecidableEq

/-- An account of blocks. -/
structure Ledger where
  nextId : Nat
  /-- The blocks not given back, newest first. -/
  live : List Nat
  allocated : Nat
  released : Nat
  /-- How often a block was given back that was not live. -/
  doubleReleases : Nat

namespace Ledger

def empty : Ledger := ⟨0, [], 0, 0, 0⟩

def allocate (l : Ledger) (bytes : Nat) : Allocation × Ledger :=
  (⟨l.nextId, bytes⟩,
    { l with
      nextId := l.nextId + 1
      live := l.nextId :: l.live
      allocated := l.allocated + 1 })

def release (l : Ledger) (a : Allocation) : Ledger :=
  if a.id ∈ l.live then { l with live := l.live.erase a.id, released := l.released + 1 }
  else { l with doubleReleases := l.doubleReleases + 1 }

end Ledger

end Packrat
