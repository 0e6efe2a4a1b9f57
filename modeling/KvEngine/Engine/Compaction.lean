import KvEngine.Engine.Encoding

/-!
# Flush and compaction

`maybeFlush` turns an immutable memtable into an L0 SSTable, truncates the WAL
and lets `maybeCompact` merge every level that has reached its threshold into
the next one.
-/

namespace KvEngine

open Foundations

namespace Engine

/-- `next_sst_id`, which is then advanced. -/
def takeSstId : EngineM Nat := do
  let e ← self
  let next ← liftResult (checkedAdd u64Limit e.nextSstId 1)
  modifySelf (fun e => { e with nextSstId := next })
  pure e.nextSstId

/-- Write `entries` to a new SSTable file and open it. -/
def writeSst (sstId : Nat) (entries : List (Bytes × Bytes)) : EngineM Unit := do
  let e ← self
  onSys (SSTableBuilder.build (.sst sstId) e.opts.blockSize entries)

/-- The metadata of an SSTable with the given entries. -/
def metaOf (sstId level : Nat) (entries : List (Bytes × Bytes)) : Result SSTMeta := do
  let minKey := (← orPanic entries.head?).1
  let maxKey := (← orPanic entries.getLast?).1
  .ok { id := sstId, level, minKey, maxKey }

/-- `self.manifest.save(MANIFEST)` -/
def saveManifest : EngineM Unit := do
  let e ← self
  onSys (e.manifest.save .manifest)

/-- Truncate and reopen the WAL after flushing to SSTable.  The old writer is
dropped once the new one is in place. -/
def resetWal : EngineM Unit := do
  onSys (createTruncate (.wal 1))
  let wal ← onSys (WALWriter.openWal (.wal 1))
  modify (fun w => { eng := { w.eng with wal }, sys := w.eng.wal.drop w.sys })

/-! ## Compaction -/

/-- The number of SSTables at which a level is compacted. -/
def levelThreshold (opts : Options) (level : Nat) : Result Nat :=
  if level = 0 then .ok opts.l0CompactionThreshold
  else do
    let power ← if 10 ^ (level % u32Limit) < u64Limit then .ok (10 ^ (level % u32Limit))
      else .error .panic
    checkedMul u64Limit opts.l0CompactionThreshold power

/-- `min()` of keys -/
def minKey : List Bytes → Option Bytes
  | [] => none
  | k :: ks =>
      match minKey ks with
      | some m => some (if m < k then m else k)
      | none => some k

/-- `max()` of keys -/
def maxKey : List Bytes → Option Bytes
  | [] => none
  | k :: ks =>
      match maxKey ks with
      | some m => some (if m < k then k else m)
      | none => some k

/-- Insert the entries of the tables with the given ids, first id first. -/
def mergeTables : List Nat → SortedMap Bytes Bytes → EngineM (SortedMap Bytes Bytes)
  | [], all => pure all
  | id :: ids, all => do
      let e ← self
      match e.sstReaders.find? (fun p => p.1.id = id) with
      | some (_, reader) => do
          let entries ← onCache reader.iter
          mergeTables ids (all.insertAll entries)
      | none => mergeTables ids all

/-- Keep the entries that are neither tombstones nor expired. -/
def retainVisible : List (Bytes × Bytes) → SysM (List (Bytes × Bytes))
  | [] => pure []
  | (k, v) :: rest => do
      let keep ← isVisible false v
      let later ← retainVisible rest
      pure (if keep then (k, v) :: later else later)

/-- Write the merged entries to a new SSTable at `level`. -/
def installMerged (level : Nat) (entries : List (Bytes × Bytes)) : EngineM Unit := do
  let sstId ← takeSstId
  writeSst sstId entries
  let sst ← liftResult (metaOf sstId level entries)
  let reader ← onSys (SSTableReader.openWithCache (.sst sstId) sstId)
  modifySelf (fun e => { e with manifest := e.manifest.addSst level sst })
  let e ← self
  let pushed ← liftResult (orPanic (e.manifest.sstsAtLevel level).getLast?)
  modifySelf (fun e => { e with sstReaders := e.sstReaders ++ [(pushed, reader)] })

/-- Remove the SSTables with the given ids from manifest, readers and disk. -/
def removeTables : List Nat → EngineM Unit
  | [] => pure ()
  | id :: ids => do
      modifySelf (fun e =>
        { e with
          manifest := (e.manifest.removeSst id).1
          sstReaders := e.sstReaders.filter (fun p => p.1.id ≠ id) })
      onSys (ignoring (removeFile (.sst id)))
      removeTables ids

/-- Remove the merged SSTables, save the manifest and count the compaction. -/
def finishCompaction (ids : List Nat) : EngineM Unit := do
  removeTables ids
  saveManifest
  modifySelf (fun e => { e with metrics.compactions := bump e.metrics.compactions })

/-- The SSTables of the next level that overlap the key range of `src`. -/
def overlapping (src dst : List SSTMeta) : Result (List SSTMeta) := do
  let globalMin ← orPanic (minKey (src.map SSTMeta.minKey))
  let globalMax ← orPanic (maxKey (src.map SSTMeta.maxKey))
  .ok (dst.filter (fun m => globalMin ≤ m.maxKey ∧ m.minKey ≤ globalMax))

/-- Compact SSTables from `srcLevel` into the next level. -/
def compactLevel (srcLevel : Nat) : EngineM Unit := do
  let dstLevel := srcLevel + 1
  let e ← self
  let srcMetas := e.manifest.sstsAtLevel srcLevel
  let srcIds := srcMetas.map SSTMeta.id
  let dstMetas ← liftResult (overlapping srcMetas (e.manifest.sstsAtLevel dstLevel))
  let dstIds := dstMetas.map SSTMeta.id
  let merged ← mergeTables (dstIds ++ srcIds) SortedMap.empty
  let allEntries ← onSys (retainVisible merged.entries)
  if allEntries.isEmpty then pure () else installMerged dstLevel allEntries
  finishCompaction (srcIds ++ dstIds)

/-- Compact a level if it has reached its threshold. -/
def compactIfFull (level : Nat) : EngineM Unit := do
  let e ← self
  let threshold ← liftResult (levelThreshold e.opts level)
  if (e.manifest.sstsAtLevel level).length < threshold then pure () else compactLevel level

/-- Go through `n` levels from `level` upward. -/
def compactFrom : Nat → Nat → EngineM Unit
  | 0, _ => pure ()
  | n + 1, level => do
      compactIfFull level
      compactFrom n (level + 1)

/-- Trigger compaction when any level exceeds its capacity. -/
def maybeCompact : EngineM Unit := do
  let e ← self
  compactFrom (e.opts.maxLevels - 1) 0

/-! ## Flush -/

/-- Write the entries of a frozen list to a new L0 SSTable and truncate the WAL. -/
def flushEntries (sstId : Nat) (entries : List (Bytes × Bytes)) : EngineM Unit := do
  writeSst sstId entries
  let sst ← liftResult (metaOf sstId 0 entries)
  let reader ← onSys (SSTableReader.openWithCache (.sst sstId) sstId)
  modifySelf (fun e =>
    { e with
      manifest := e.manifest.addSst 0 sst
      sstReaders := e.sstReaders ++ [(sst, reader)] })
  saveManifest
  resetWal
  modifySelf (fun e => { e with metrics.flushes := bump e.metrics.flushes })

/-- Flush a frozen list that was taken out of the memtable. -/
def flushImmutable (immutable : SkipList) : EngineM Unit := do
  let sstId ← takeSstId
  let entries ← liftResult immutable.iter
  if entries.isEmpty then pure ()
  else do
    flushEntries sstId entries
    maybeCompact

/-- Flush the immutable MemTable to an SSTable if one exists. -/
def maybeFlush : EngineM Unit := do
  let e ← self
  match e.memtable.takeImmutable with
  | (none, _) => pure ()
  | (some immutable, memtable) => do
      modifySelf (fun e => { e with memtable })
      flushImmutable immutable

end Engine

end KvEngine
