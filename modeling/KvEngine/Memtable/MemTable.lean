import KvEngine.Memtable.SkipList

/-!
# MemTable

A `SkipList` with dual-buffer (active + immutable) semantics.  Writes go to the
active list, which is frozen into the immutable slot once its estimated size
exceeds `maxSize`.
-/

namespace KvEngine

open Foundations

/-- An in-memory write buffer backed by a skip list. -/
structure MemTable where
  active : SkipList
  immutable : Option SkipList
  maxSize : Nat
  deriving DecidableEq, Repr

namespace MemTable

/-- The height cap of every list the memtable makes. -/
def maxLevel : Nat := 16

/-- Create a new MemTable with a custom freeze threshold. -/
def withMaxSize (maxSize : Nat) : MemTable where
  active := SkipList.new maxLevel
  immutable := none
  maxSize

/-- Freeze the active list into the immutable slot; nothing happens when the slot
is taken or the list looks empty by its size.  The flag says whether it froze. -/
def freeze (m : MemTable) : MemTable × Bool :=
  if m.immutable.isSome then (m, false)
  else if m.active.size ≤ SkipList.selfSize then (m, false)
  else ({ m with active := SkipList.new maxLevel, immutable := some m.active }, true)

/-- Insert into the active list without triggering a freeze. -/
def putNoFreeze (m : MemTable) (trailing : Nat) (key value : Bytes) : Result MemTable := do
  let active ← m.active.insert (m.active.randomLevel trailing) key value
  .ok { m with active }

/-- Write a key-value pair into the active MemTable; freeze it if it has grown
beyond `maxSize`. -/
def put (m : MemTable) (trailing : Nat) (key value : Bytes) : Result MemTable := do
  let m ← m.putNoFreeze trailing key value
  .ok (if m.active.size > m.maxSize then m.freeze.1 else m)

/-- Look up a key: active list first, then the immutable list. -/
def get (m : MemTable) (key : Bytes) : Result (Option Bytes) := do
  match ← m.active.get key with
  | some v => .ok (some v)
  | none =>
      match m.immutable with
      | some imm => imm.get key
      | none => .ok none

/-- The key-value pairs in `[start, end)`; the active value of a key wins. -/
def scan (m : MemTable) (start stop : Bytes) : Result (List (Bytes × Bytes)) := do
  let older ←
    match m.immutable with
    | some imm => imm.scan start stop
    | none => .ok []
  let newer ← m.active.scan start stop
  .ok (((SortedMap.empty.insertAll older).insertAll newer).entries)

/-- Whether an immutable MemTable is awaiting flush. -/
def hasImmutable (m : MemTable) : Bool := m.immutable.isSome

/-- Take the immutable list out, leaving `none` in its place. -/
def takeImmutable (m : MemTable) : Option SkipList × MemTable :=
  (m.immutable, { m with immutable := none })

end MemTable

end KvEngine
