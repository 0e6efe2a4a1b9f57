import KvEngine.Engine.Encoding

/-!
# Reads

`get` asks the memtable and then the SSTables from the newest to the oldest;
`get_at` does the same but skips versions that are too new; `scan` overlays all
entries in the range from the oldest to the newest.
-/

namespace KvEngine

open Foundations

namespace Engine

/-- Create a point-in-time snapshot. -/
def snapshot (e : Engine) : Snapshot := ⟨e.nextSeq⟩

/-- The first of the readers that holds the key answers. -/
def getFrom (key : Bytes) : List (SSTMeta × SSTableReader) → EngineM (Option Bytes)
  | [] => pure none
  | (_, reader) :: rest => do
      match ← onCache (reader.get key) with
      | some v => onSys (unpackValue v)
      | none => getFrom key rest

/-- Look up a key. -/
def get (key : Bytes) : EngineM (Option Bytes) := do
  modifySelf (fun e => { e with metrics.reads := bump e.metrics.reads })
  let e ← self
  match ← liftResult (e.memtable.get key) with
  | some v => onSys (unpackValue v)
  | none => getFrom key e.sstReaders.reverse

/-- The value of a version that the snapshot may see. -/
def seenBy (snap : Snapshot) (v : Bytes) : Option Bytes :=
  match decodeWithSeq v with
  | some (val, seq) => if seq < snap.seq then some val else none
  | none => none

/-- The first of the readers whose version the snapshot may see answers. -/
def getAtFrom (key : Bytes) (snap : Snapshot) :
    List (SSTMeta × SSTableReader) → EngineM (Option Bytes)
  | [] => pure none
  | (_, reader) :: rest => do
      match (← onCache (reader.get key)).bind (seenBy snap) with
      | some val => onSys (unpackInner val)
      | none => getAtFrom key snap rest

/-- Look up a key at a specific snapshot. -/
def getAt (key : Bytes) (snap : Snapshot) : EngineM (Option Bytes) := do
  let e ← self
  match (← liftResult (e.memtable.get key)).bind (seenBy snap) with
  | some val => onSys (unpackInner val)
  | none => getAtFrom key snap e.sstReaders.reverse

/-- Whether a key lies in `[start, end)`. -/
def inRange (start stop key : Bytes) : Bool := start ≤ key ∧ key < stop

/-- Overlay the entries of the readers in the range, first reader first. -/
def overlay (start stop : Bytes) :
    List (SSTMeta × SSTableReader) → SortedMap Bytes Bytes → EngineM (SortedMap Bytes Bytes)
  | [], map => pure map
  | (_, reader) :: rest, map => do
      let entries ← onCache reader.iter
      overlay start stop rest
        (map.insertAll (entries.filter (fun b => inRange start stop b.1)))

/-- The value `scan` shows for a stored value. -/
def displayValue (v : Bytes) : SysM Bytes :=
  match decodeWithSeq v with
  | some (inner, _) => do return (← unpackInner inner).getD []
  | none => pure []

/-- Drop tombstones and expired entries and strip the sequence numbers. -/
def display : List (Bytes × Bytes) → SysM (List (Bytes × Bytes))
  | [] => pure []
  | (k, v) :: rest => do
      if ← isVisible true v then do
        let shown ← displayValue v
        let later ← display rest
        pure ((k, shown) :: later)
      else display rest

/-- The key-value pairs in the range `[start, end)`, sorted by key. -/
def scan (start stop : Bytes) : EngineM (List (Bytes × Bytes)) := do
  let e ← self
  let map ← overlay start stop e.sstReaders SortedMap.empty
  let recent ← liftResult (e.memtable.scan start stop)
  onSys (display (map.insertAll recent).entries)

/-- The loop of `next_key` over the first `i` bytes, from the last one down. -/
def raiseLast (next : Bytes) : Nat → Option Bytes
  | 0 => none
  | i + 1 =>
      match next[i]? with
      | some b => if b < 0xFF then some (next.set i (b + 1)) else raiseLast next i
      | none => none

/-- Compute the next lexicographic key after the prefix, the upper bound of a prefix
scan. -/
def nextKey (keyPrefix : Bytes) : Bytes :=
  match raiseLast keyPrefix keyPrefix.length with
  | some next => next
  | none => keyPrefix ++ [0x00]

/-- Scan keys with a given prefix. -/
def prefixScan (keyPrefix : Bytes) : EngineM (List (Bytes × Bytes)) :=
  scan keyPrefix (nextKey keyPrefix)

end Engine

end KvEngine
