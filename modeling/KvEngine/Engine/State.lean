import KvEngine.Manifest
import KvEngine.Memtable.MemTable
import KvEngine.Sstable.Builder
import KvEngine.Sstable.Reader
import KvEngine.Wal.Writer
import KvEngine.WriteBatch

/-!
# Engine state

The fields of the engine, its options and counters, and how the methods of its
parts run inside a method of the engine.  `World` is the engine together with
what it runs on.
-/

namespace KvEngine

open Foundations

/-- Tombstone marker written when a key is deleted. -/
def tombstone : Bytes := [0x00]

/-- Engine configuration options. -/
structure Options where
  /-- MemTable freeze threshold in bytes. -/
  memtableSize : Nat := 4 * 1024 * 1024
  /-- SSTable data block size in bytes. -/
  blockSize : Nat := 4096
  /-- L0 SSTable count that triggers compaction. -/
  l0CompactionThreshold : Nat := 4
  /-- Whether to fsync after every write. -/
  syncWal : Bool := true
  /-- Maximum number of LSM levels. -/
  maxLevels : Nat := 7
  /-- Bloom filter bits per key. -/
  bloomFilterBitsPerKey : Nat := 10
  /-- Block cache capacity in bytes; 0 = disabled. -/
  blockCacheSize : Nat := 8 * 1024 * 1024
  deriving DecidableEq, Repr

/-- Counters for engine metrics, each a wrapping `u64`. -/
structure Metrics where
  writes : Nat := 0
  reads : Nat := 0
  deletes : Nat := 0
  compactions : Nat := 0
  flushes : Nat := 0
  deriving DecidableEq, Repr

/-- The top-level key-value storage engine. -/
structure Engine where
  wal : WALWriter
  memtable : MemTable
  manifest : Manifest
  sstReaders : List (SSTMeta × SSTableReader)
  nextSstId : Nat
  /-- Monotonically increasing sequence number for MVCC. -/
  nextSeq : Nat
  opts : Options
  metrics : Metrics
  /-- Shared block cache. -/
  blockCache : Option BlockCache

/-- A point-in-time snapshot of the database. -/
structure Snapshot where
  seq : Nat
  deriving DecidableEq, Repr

/-- The engine and what it runs on. -/
structure World where
  eng : Engine
  sys : Sys

/-- A method of the engine. -/
abbrev EngineM := EStateM Failure World

/-- Run a computation on the outside world. -/
def onSys {α : Type} (x : SysM α) : EngineM α :=
  zoom World.sys (fun s w => { w with sys := s }) x

/-- Run a computation on the block cache. -/
def onCache {α : Type} (x : CacheM α) : EngineM α :=
  zoom (fun w => w.eng.blockCache) (fun c w => { w with eng := { w.eng with blockCache := c } }) x

/-- Run a method of the WAL writer. -/
def onWal {α : Type} (x : WALWriter.M α) : EngineM α :=
  zoom (fun w => (w.eng.wal, w.sys)) (fun p w => { eng := { w.eng with wal := p.1 }, sys := p.2 }) x

/-- The engine's fields. -/
def self : EngineM Engine := do return (← get).eng

/-- Change the engine's fields. -/
def modifySelf (f : Engine → Engine) : EngineM Unit :=
  modify (fun w => { w with eng := f w.eng })

theorem ends_onSys {α : Type} {x : SysM α} {w w' : World} {a : α} :
    Ends (onSys x) w a w' ↔ ∃ s, Ends x w.sys a s ∧ w' = { w with sys := s } :=
  ends_zoom

theorem ends_onCache {α : Type} {x : CacheM α} {w w' : World} {a : α} :
    Ends (onCache x) w a w' ↔
      ∃ c, Ends x w.eng.blockCache a c ∧ w' = { w with eng := { w.eng with blockCache := c } } :=
  ends_zoom

theorem ends_onWal {α : Type} {x : WALWriter.M α} {w w' : World} {a : α} :
    Ends (onWal x) w a w' ↔
      ∃ p, Ends x (w.eng.wal, w.sys) a p ∧ w' = { eng := { w.eng with wal := p.1 }, sys := p.2 } :=
  ends_zoom

theorem ends_self {w w' : World} {e : Engine} : Ends self w e w' ↔ e = w.eng ∧ w' = w := by
  simp only [self, ends_bind, ends_get, ends_pure]
  constructor
  · rintro ⟨a, w₁, ⟨rfl, rfl⟩, rfl, rfl⟩
    exact ⟨rfl, rfl⟩
  · rintro ⟨rfl, rfl⟩
    exact ⟨_, _, ⟨rfl, rfl⟩, rfl, rfl⟩

theorem ends_modifySelf {w w' : World} {f : Engine → Engine} {u : Unit} :
    Ends (modifySelf f) w u w' ↔ w' = { w with eng := f w.eng } :=
  ends_modify

/-- `counter.fetch_add(1)` -/
def bump (n : Nat) : Nat := (n + 1) % u64Limit

end KvEngine
