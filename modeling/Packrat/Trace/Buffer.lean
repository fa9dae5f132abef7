import Packrat.Trace.Record

/-!
# The ring buffer of records

A trace keeps its newest records, up to a fixed number. Numbers are given to all records in turn and
never again, also not after the buffer has been emptied; a record that makes room for a newer one is
counted as evicted, one that was cleared away is not.

Taking an evicted record out at once would move all the others. So evicted records stay in front of
the kept ones, out of sight, until there are more of them than of kept ones; then all of them are
taken out together.
-/

namespace Packrat.Trace

/-- The newest records. -/
structure Buffer where
  /-- Records, oldest first. Only the newest, as many as there is room for, count as kept. -/
  stored : Array Record
  capacity : Nat
  /-- The number of the next record. -/
  nextId : Nat
  /-- How many records made room for newer ones. -/
  evicted : Nat

structure Stats where
  recordCount : Nat
  capacity : Nat
  evicted : Nat
  oldestParse : Option Nat
  newestParse : Option Nat
  maxDepth : Nat
  /-- How many records of each type, types in the order of their first record. -/
  eventCounts : List (String × Nat)

namespace Buffer

def new (capacity : Nat) : Buffer := ⟨#[], capacity, 0, 0⟩

/-- How many records a buffer keeps if nothing else is said. -/
def standardCapacity : Nat := 10000

/-- The newest records, oldest first, without the evicted ones in front of them once those are more
than the room for kept ones. -/
def trim (capacity : Nat) (stored : Array Record) : Array Record :=
  if 2 * capacity < stored.size then stored.extract (stored.size - capacity) stored.size else stored

/-- Adds a record, and answers with its number; the oldest makes room if there is none left. -/
def push (b : Buffer) (parse depth timestamp : Nat) (note : Note) : Buffer × Nat :=
  let id := b.nextId
  let stored := b.stored.push ⟨id, parse, depth, timestamp, note⟩
  ({ b with
      stored := trim b.capacity stored
      nextId := id + 1
      evicted := if b.capacity < stored.size then b.evicted + 1 else b.evicted }, id)

def clear (b : Buffer) : Buffer := { b with stored := #[] }

def size (b : Buffer) : Nat := min b.stored.size b.capacity

/-- The records kept, oldest first. -/
def toList (b : Buffer) : List Record := b.stored.toList.drop (b.stored.size - b.capacity)

def newest? (b : Buffer) : Option Record := if b.capacity = 0 then none else b.stored.back?

def newestParse? (b : Buffer) : Option Nat := b.newest?.map Record.parse

def ofParse (b : Buffer) (parse : Nat) : List Record := b.toList.filter (·.parse == parse)

def ofType (b : Buffer) (typeName : String) : List Record :=
  b.toList.filter (·.note.typeName == typeName)

/-- The newest records, as many as asked for. -/
def recent (b : Buffer) (count : Nat) : List Record := b.toList.drop (b.size - count)

/-- Counts one more of a type. -/
def countIn (typeName : String) : List (String × Nat) → List (String × Nat)
  | [] => [(typeName, 1)]
  | (name, n) :: rest =>
    if name = typeName then (name, n + 1) :: rest else (name, n) :: countIn typeName rest

def stats (b : Buffer) : Stats where
  recordCount := b.size
  capacity := b.capacity
  evicted := b.evicted
  oldestParse := b.toList.head?.map Record.parse
  newestParse := b.newestParse?
  maxDepth := b.toList.foldl (fun depth r => max depth r.depth) 0
  eventCounts := b.toList.foldl (fun counts r => countIn r.note.typeName counts) []

end Buffer

end Packrat.Trace
