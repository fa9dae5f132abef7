import Mathlib.Algebra.GroupWithZero.Nat
import Mathlib.Data.List.ReduceOption
import Packrat.Proofs.Trace.Buffer

/-!
# The newest records, and an account of the others

A record that is pushed into a buffer is kept until a newer one takes its place or the
buffer is cleared. So at any time it is one of three: it is there, it was counted as
evicted, or a clearing has taken it out. Which ones are there is known from the commands
alone: the newest of those pushed since the last clearing, as many as there is room for.
Numbers go on across clearings.

`Follows` ties a buffer to the commands that it has obeyed. Each command keeps it, so it
holds after any run. What the queries and the statistics tell is said of the records that
are kept, however they came to be there.
-/

namespace Packrat.Trace

namespace Buffer

/-! ## Commands -/

/-- What can be done to a buffer. -/
inductive Command where
  | push (parse depth timestamp : Nat) (note : Note)
  | clear

/-- The record that a push makes, once it has its number. -/
def Command.record? : Command → Option (Nat → Record)
  | push parse depth timestamp note => some fun id => ⟨id, parse, depth, timestamp, note⟩
  | clear => none

def Command.isClear : Command → Bool
  | push .. => false
  | clear => true

/-- The records that a command takes out without evicting them. -/
def Command.clears (b : Buffer) : Command → Nat
  | push .. => 0
  | clear => b.size

/-- Carries out a command, with the answer of a push. -/
def obey (b : Buffer) : Command → Buffer × Option Nat
  | .push parse depth timestamp note =>
    let (b, id) := b.push parse depth timestamp note
    (b, some id)
  | .clear => (b.clear, none)

def run (b : Buffer) : List Command → Buffer × List (Option Nat)
  | [] => (b, [])
  | c :: rest => (((b.obey c).1.run rest).1, (b.obey c).2 :: ((b.obey c).1.run rest).2)

/-- How many records the clearings among the commands take out. -/
def removed (b : Buffer) : List Command → Nat
  | [] => 0
  | c :: rest => c.clears b + (b.obey c).1.removed rest

/-- All records that commands push, each numbered by how many were pushed before it. -/
def pushed (commands : List Command) : List Record :=
  (commands.filterMap Command.record?).zipIdx.map fun (record, id) => record id

/-- The records that were pushed since the last clearing. -/
def fresh (commands : List Command) : List Record :=
  sinceCleared Command.isClear pushed commands

/-! ## One command more -/

theorem run_append (b : Buffer) (commands : List Command) (c : Command) :
    b.run (commands ++ [c]) =
      (((b.run commands).1.obey c).1, (b.run commands).2 ++ [((b.run commands).1.obey c).2]) := by
  induction commands generalizing b with
  | nil => rfl
  | cons first rest ih => rw [List.cons_append, run, ih]; rfl

theorem removed_append (b : Buffer) (commands : List Command) (c : Command) :
    b.removed (commands ++ [c]) = b.removed commands + c.clears (b.run commands).1 := by
  induction commands generalizing b with
  | nil => exact (Nat.zero_add _).symm
  | cons first rest ih =>
      rw [List.cons_append, removed, ih, ← Nat.add_assoc]
      rfl

theorem pushed_append_clear (commands : List Command) :
    pushed (commands ++ [.clear]) = pushed commands := by
  have hnone : [Command.clear].filterMap Command.record? = [] := rfl
  rw [pushed, List.filterMap_append, hnone, List.append_nil, pushed]

theorem pushed_append_push (commands : List Command) (parse depth timestamp : Nat) (note : Note) :
    pushed (commands ++ [.push parse depth timestamp note]) =
      pushed commands ++ [⟨(pushed commands).length, parse, depth, timestamp, note⟩] := by
  simp [pushed, Command.record?, List.filterMap_append, List.zipIdx_append]

theorem id_pushed (commands : List Command) :
    (pushed commands).map Record.id = List.range (pushed commands).length := by
  induction commands using List.reverseRecOn with
  | nil => rfl
  | append_singleton commands c ih =>
      cases c with
      | clear => rw [pushed_append_clear, ih]
      | push parse depth timestamp note =>
          rw [pushed_append_push, List.map_append, ih, List.length_append, List.length_singleton,
            List.range_succ]
          rfl

theorem pushed_append_prefix (commands more : List Command) :
    pushed commands <+: pushed (commands ++ more) := by
  induction more using List.reverseRecOn with
  | nil => exact ⟨[], by rw [List.append_nil, List.append_nil]⟩
  | append_singleton more c ih =>
      rw [← List.append_assoc]
      cases c with
      | push parse depth timestamp note =>
          rw [pushed_append_push]
          exact ih.trans (List.prefix_append _ _)
      | clear =>
          rw [pushed_append_clear]
          exact ih

theorem fresh_append_clear (commands : List Command) : fresh (commands ++ [.clear]) = [] :=
  sinceCleared_append_clear rfl

theorem fresh_append_push (commands : List Command) (parse depth timestamp : Nat) (note : Note) :
    fresh (commands ++ [.push parse depth timestamp note]) =
      fresh commands ++ [⟨(pushed commands).length, parse, depth, timestamp, note⟩] :=
  sinceCleared_append pushed_append_prefix rfl (pushed_append_push ..)

/-! ## The buffer keeps up -/

theorem size_trim (capacity : Nat) (stored : Array Record) :
    min (trim capacity stored).size capacity = min stored.size capacity := by
  unfold trim
  split
  · rw [Array.size_extract]
    omega
  · rfl

/-- A new record is there, and it is there in addition unless another one was evicted. -/
theorem size_push (b : Buffer) (parse depth timestamp : Nat) (note : Note) :
    (b.push parse depth timestamp note).1.size + (b.push parse depth timestamp note).1.evicted =
      b.size + b.evicted + 1 := by
  have hsize : (b.push parse depth timestamp note).1.size =
      min (b.stored.size + 1) b.capacity := by
    simp only [push, size, size_trim, Array.size_push]
  have hevicted : (b.push parse depth timestamp note).1.evicted =
      if b.capacity < b.stored.size + 1 then b.evicted + 1 else b.evicted := by
    simp only [push, Array.size_push]
  rw [hsize, hevicted, size]
  split <;> omega

/-- A push answers with how many records were made before. -/
theorem id_push (b : Buffer) (parse depth timestamp : Nat) (note : Note) :
    (b.push parse depth timestamp note).2 = b.nextId := rfl

/-- The buffer is where the commands have taken it, and gave these answers. -/
structure Follows (room : Nat) (commands : List Command) (b : Buffer)
    (answers : List (Option Nat)) : Prop where
  capacity : b.capacity = room
  kept : b.toList = (fresh commands).rtake room
  nextId : b.nextId = (pushed commands).length
  answered : answers.reduceOption = List.range (pushed commands).length
  account : (pushed commands).length = b.size + b.evicted + (new room).removed commands

section Step

variable {room : Nat} {commands : List Command} {b : Buffer} {answers : List (Option Nat)}

theorem Follows.clear (h : Follows room commands b answers)
    (hremoved : (new room).removed (commands ++ [.clear]) =
      (new room).removed commands + b.size) :
    Follows room (commands ++ [.clear]) b.clear (answers ++ [none]) where
  capacity := h.capacity
  kept := by
    rw [fresh_append_clear, List.rtake_nil]
    exact toList_clear b
  nextId := by
    rw [pushed_append_clear]
    exact h.nextId
  answered := by
    rw [pushed_append_clear, ← h.answered, List.reduceOption_append, List.reduceOption_singleton,
      Option.toList_none, List.append_nil]
  account := by
    have hnone : b.clear.size = 0 := by
      rw [← length_toList, toList_clear, List.length_nil]
    rw [pushed_append_clear, hremoved, h.account]
    show _ = b.clear.size + b.evicted + (_ + b.size)
    omega

theorem Follows.push {parse depth timestamp : Nat} {note : Note}
    (h : Follows room commands b answers)
    (hremoved : (new room).removed (commands ++ [.push parse depth timestamp note]) =
      (new room).removed commands) :
    Follows room (commands ++ [.push parse depth timestamp note])
      (b.push parse depth timestamp note).1
      (answers ++ [some (b.push parse depth timestamp note).2]) where
  capacity := h.capacity
  kept := by
    rw [toList_push, h.kept, h.capacity, h.nextId, rtake_rtake_append, fresh_append_push]
  nextId := by
    rw [pushed_append_push, List.length_append, ← h.nextId]
    rfl
  answered := by
    rw [id_push, pushed_append_push, List.length_append, List.length_singleton, List.range_succ,
      ← h.answered, ← h.nextId, List.reduceOption_append, List.reduceOption_singleton,
      Option.toList_some]
  account := by
    have hpush := size_push b parse depth timestamp note
    rw [pushed_append_push, List.length_append, List.length_singleton, hremoved, h.account]
    omega

end Step

theorem follows_run (room : Nat) (commands : List Command) :
    Follows room commands ((new room).run commands).1 ((new room).run commands).2 := by
  induction commands using List.reverseRecOn with
  | nil =>
      refine ⟨rfl, ?_, rfl, rfl, ?_⟩
      · exact (toList_new room).trans (List.rtake_nil room).symm
      · simp [pushed, run, new, size, removed]
  | append_singleton commands c ih =>
      have hremoved := removed_append (new room) commands c
      rw [run_append]
      cases c with
      | clear => exact ih.clear hremoved
      | push parse depth timestamp note => exact ih.push hremoved

/-! ## Queries -/

theorem recent_eq (b : Buffer) (count : Nat) : b.recent count = b.toList.rtake count := by
  rw [recent, List.rtake, length_toList]

/-! ## Statistics -/

theorem sum_countIn (typeName : String) (counts : List (String × Nat)) :
    ((countIn typeName counts).map Prod.snd).sum = (counts.map Prod.snd).sum + 1 := by
  induction counts with
  | nil => rfl
  | cons first rest ih =>
      obtain ⟨name, n⟩ := first
      by_cases h : name = typeName
      · rw [countIn, if_pos h]
        simp only [List.map_cons, List.sum_cons]
        omega
      · rw [countIn, if_neg h]
        simp only [List.map_cons, List.sum_cons, ih]
        omega

theorem lookup_countIn (typeName name : String) (counts : List (String × Nat)) :
    (countIn typeName counts).lookup name =
      if name = typeName then some ((counts.lookup typeName).getD 0 + 1)
      else counts.lookup name := by
  induction counts with
  | nil => by_cases hname : name = typeName <;> simp [countIn, hname]
  | cons first rest ih =>
      obtain ⟨other, n⟩ := first
      by_cases hother : other = typeName
      · rw [countIn, if_pos hother]
        by_cases hname : name = typeName
        · simp [hother, hname]
        · simp [List.lookup_cons, hother, beq_false_of_ne hname, hname]
      · rw [countIn, if_neg hother, List.lookup_cons, ih, List.lookup_cons]
        by_cases hname : name = typeName
        · subst hname
          simp [beq_false_of_ne (Ne.symm hother)]
        · rw [if_neg hname, if_neg hname, List.lookup_cons]

/-- A type is entered behind those that are there already, unless it is one of them. -/
theorem keys_countIn (typeName : String) (counts : List (String × Nat)) :
    (countIn typeName counts).map Prod.fst =
      if typeName ∈ counts.map Prod.fst then counts.map Prod.fst
      else counts.map Prod.fst ++ [typeName] := by
  induction counts with
  | nil => rfl
  | cons first rest ih =>
      obtain ⟨other, n⟩ := first
      by_cases hother : other = typeName
      · simp [countIn, hother]
      · rw [countIn, if_neg hother, List.map_cons, ih]
        by_cases hmem : typeName ∈ rest.map Prod.fst
        · have hold : typeName ∈ ((other, n) :: rest).map Prod.fst := List.mem_cons_of_mem _ hmem
          rw [if_pos hmem, if_pos hold, List.map_cons]
        · have hnew : typeName ∉ ((other, n) :: rest).map Prod.fst :=
            List.not_mem_cons_of_ne_of_not_mem (Ne.symm hother) hmem
          rw [if_neg hmem, if_neg hnew]
          rfl

/-- Each type that was met has one entry, with how often it was met. -/
structure Tallies (counts : List (String × Nat)) (met : List String) : Prop where
  nodup : (counts.map Prod.fst).Nodup
  lookup : ∀ name, counts.lookup name =
    if met.count name = 0 then none else some (met.count name)
  sum : (counts.map Prod.snd).sum = met.length

theorem Tallies.one_more {counts : List (String × Nat)} {met : List String}
    (h : Tallies counts met) (typeName : String) :
    Tallies (countIn typeName counts) (met ++ [typeName]) where
  nodup := by
    rw [keys_countIn]
    split
    · exact h.nodup
    · next hnew =>
        refine List.nodup_append.mpr
          ⟨h.nodup, List.pairwise_singleton _ _, fun other hold name hname => ?_⟩
        rintro rfl
        exact hnew (List.mem_singleton.mp hname ▸ hold)
  lookup := by
    intro name
    rw [lookup_countIn, h.lookup, h.lookup, List.count_append]
    by_cases hname : name = typeName
    · subst hname
      rw [if_pos rfl, List.count_singleton_self, if_neg (Nat.succ_ne_zero _)]
      split
      · next hnone => rw [hnone]; rfl
      · rfl
    · rw [if_neg hname, List.count_singleton, beq_false_of_ne (Ne.symm hname)]
      rfl
  sum := by rw [sum_countIn, h.sum, List.length_append, List.length_singleton]

theorem tallies_foldl (records : List Record) :
    Tallies (records.foldl (fun counts r => countIn r.note.typeName counts) [])
      (records.map fun r => r.note.typeName) := by
  induction records using List.reverseRecOn with
  | nil => exact ⟨List.nodup_nil, fun _ => rfl, rfl⟩
  | append_singleton records r ih =>
      rw [List.foldl_append, List.map_append]
      exact ih.one_more r.note.typeName

theorem count_typeName (records : List Record) (typeName : String) :
    (records.map fun r => r.note.typeName).count typeName =
      (records.filter (·.note.typeName == typeName)).length := by
  rw [List.count, List.countP_map, List.countP_eq_length_filter]
  rfl

/-- The greatest depth, or zero if there is none. -/
theorem foldl_depth (records : List Record) :
    records.foldl (fun depth r => max depth r.depth) 0 =
      ((records.map Record.depth).max?).getD 0 := by
  rw [← List.foldl_map (f := Record.depth) (g := max)]
  cases records with
  | nil => rfl
  | cons first rest => rw [List.map_cons, List.foldl_cons, Nat.zero_max, List.max?_cons']; rfl

/-- What statistics tell is true of the buffer. -/
structure Describes (stats : Stats) (b : Buffer) : Prop where
  capacity : stats.capacity = b.capacity
  evicted : stats.evicted = b.evicted
  recordCount : stats.recordCount = b.toList.length
  oldestParse : stats.oldestParse = b.toList.head?.map Record.parse
  newestParse : stats.newestParse = b.toList.getLast?.map Record.parse
  maxDepth : stats.maxDepth = ((b.toList.map Record.depth).max?).getD 0
  /-- No type has two entries. -/
  types : (stats.eventCounts.map Prod.fst).Nodup
  eventCount : ∀ typeName, stats.eventCounts.lookup typeName =
    if (b.ofType typeName).length = 0 then none else some (b.ofType typeName).length
  sum : (stats.eventCounts.map Prod.snd).sum = stats.recordCount

theorem describes_stats (b : Buffer) : Describes b.stats b := by
  obtain ⟨hnodup, hlookup, hsum⟩ := tallies_foldl b.toList
  constructor
  · rfl
  · rfl
  · exact (length_toList b).symm
  · rfl
  · exact congrArg (Option.map Record.parse) (newest?_eq b)
  · exact foldl_depth b.toList
  · exact hnodup
  · intro typeName
    rw [ofType, ← count_typeName]
    exact hlookup typeName
  · rw [List.length_map] at hsum
    exact hsum.trans (length_toList b)

/-! ## Whole runs -/

/-- A buffer has obeyed commands, and answered so. What there was room for is there, and all
else is accounted for. -/
structure Retains (room : Nat) (commands : List Command) (b : Buffer)
    (answers : List (Option Nat)) : Prop extends Follows room commands b answers where
  size : b.size = min (fresh commands).length room
  ids : (pushed commands).map Record.id = List.range (pushed commands).length
  recent : ∀ count, b.recent count = b.toList.rtake count
  length_recent : ∀ count, (b.recent count).length = min count b.size
  stats : Describes b.stats b

/-- Whatever is pushed and whenever a buffer is cleared, it keeps the newest of the records
that were pushed since the last clearing, as many as there is room for, in the order in
which they came. Each push answers with how many there were before it, and all of them are
accounted for. The newest records and the statistics are those of what is kept. -/
theorem run_retains (room : Nat) (commands : List Command) :
    Retains room commands ((new room).run commands).1 ((new room).run commands).2 := by
  have h := follows_run room commands
  refine ⟨h, ?_, id_pushed commands, recent_eq _, fun count => ?_, describes_stats _⟩
  · rw [← length_toList, h.kept, length_rtake]
  · rw [recent_eq, length_rtake, length_toList, Nat.min_comm]

/-- With room for two, three are pushed, and after a clearing one more. -/
example (note : Note) :
    ((new 2).run [.push 1 0 0 note, .push 1 1 0 note, .push 1 2 0 note, .clear,
      .push 2 0 0 note]).1.toList = [⟨3, 2, 0, 0, note⟩] ∧
    ((new 2).run [.push 1 0 0 note, .push 1 1 0 note, .push 1 2 0 note, .clear,
      .push 2 0 0 note]).2 = [some 0, some 1, some 2, none, some 3] :=
  ⟨rfl, rfl⟩

end Buffer

end Packrat.Trace
