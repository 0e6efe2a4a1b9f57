import KvEngine.Engine.Write

/-!
# Opening and closing
-/

namespace KvEngine

open Foundations

namespace Engine

/-- Find an existing `.wal` file or return the default path. -/
def walPathForDir : SysM FileName := do
  match ← nextFault with
  | some _ => throw ioError
  | none =>
      let files := (← MonadState.get).dir.keys
      pure ((files.find? (fun f => f matches .wal _)).getD (.wal 1))

/-- `if meta.id >= next_sst_id { next_sst_id = meta.id + 1; }` -/
def nextFreeId (id nextSstId : Nat) : Result Nat :=
  if id ≥ nextSstId then checkedAdd u64Limit id 1 else .ok nextSstId

/-- Open the readers of one level: the files that exist, in manifest order,
together with the next free id. -/
def openLevel : List SSTMeta → Nat → SysM (List (SSTMeta × SSTableReader) × Nat)
  | [], nextSstId => pure ([], nextSstId)
  | sst :: rest, nextSstId => do
      if ← fileExists (.sst sst.id) then do
        let reader ← SSTableReader.openWithCache (.sst sst.id) sst.id
        let nextSstId ← liftResult (nextFreeId sst.id nextSstId)
        let (readers, nextSstId) ← openLevel rest nextSstId
        pure ((sst, reader) :: readers, nextSstId)
      else openLevel rest nextSstId

/-- Open the readers of all levels, level by level. -/
def openLevels : List (List SSTMeta) → Nat → SysM (List (SSTMeta × SSTableReader) × Nat)
  | [], nextSstId => pure ([], nextSstId)
  | level :: rest, nextSstId => do
      let (readers, nextSstId) ← openLevel level nextSstId
      let (later, nextSstId) ← openLevels rest nextSstId
      pure (readers ++ later, nextSstId)

/-- The value a replayed record puts into the memtable. -/
def replayValue (r : Record) : Bytes :=
  match r.op with
  | .put => r.value
  | .delete => tombstone

/-- Put records into the memtable, without freezing it. -/
def applyRecords : List Record → MemTable → SysM MemTable
  | [], memtable => pure memtable
  | r :: rest, memtable => do
      let trailing ← drawTrailing
      let memtable ← liftResult (memtable.putNoFreeze trailing r.key (replayValue r))
      applyRecords rest memtable

/-- Replay a WAL file into a fresh MemTable. -/
def replayWal (walPath : FileName) (memtableSize : Nat) : SysM MemTable := do
  let memtable := MemTable.withMaxSize memtableSize
  if ← fileExists walPath then do
    let data ← readFile walPath
    let crc := (← MonadState.get).env.crc
    let records ← liftResult (WALReader.collect (WALReader.items crc data))
    applyRecords records memtable
  else pure memtable

/-- Open (or create) a database with custom options. -/
def openWithOptions (opts : Options) : SysM Engine := do
  syncFile
  let manifest ← Manifest.load .manifest
  let blockCache :=
    if opts.blockCacheSize > 0 then some (BlockCache.new opts.blockCacheSize) else none
  let (sstReaders, nextSstId) ← openLevels manifest.levels 1
  let walPath ← walPathForDir
  let memtable ← replayWal walPath opts.memtableSize
  let wal ← WALWriter.openWal walPath
  pure
    { wal, memtable, manifest, sstReaders, nextSstId, nextSeq := 1, opts, metrics := {}
      blockCache }

/-- `self.memtable.freeze()` -/
def freezeMemtable : EngineM Unit :=
  modifySelf (fun e => { e with memtable := e.memtable.freeze.1 })

/-- Flush all in-memory data to disk and close the engine. -/
def close : EngineM Unit := do
  maybeFlush
  freezeMemtable
  maybeFlush
  onWal WALWriter.flush
  saveManifest

/-- What dropping the engine leaves: the WAL writer writes out its buffer. -/
def drop (w : World) : Sys := w.eng.wal.drop w.sys

end Engine

end KvEngine
