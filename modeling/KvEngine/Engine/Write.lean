import KvEngine.Engine.Compaction

/-!
# Writes
-/

namespace KvEngine

open Foundations

namespace Engine

/-- `next_seq`, which is then advanced. -/
def takeSeq : EngineM Nat := do
  let e ← self
  let next ← liftResult (checkedAdd u64Limit e.nextSeq 1)
  modifySelf (fun e => { e with nextSeq := next })
  pure e.nextSeq

/-- `if self.opts.sync_wal { self.wal.flush()?; }` -/
def syncWal : EngineM Unit := do
  let e ← self
  if e.opts.syncWal then onWal WALWriter.flush else pure ()

/-- `self.memtable.put(key, value)` -/
def memtablePut (key value : Bytes) : EngineM Unit := do
  let e ← self
  let trailing ← onSys drawTrailing
  let memtable ← liftResult (e.memtable.put trailing key value)
  modifySelf (fun e => { e with memtable })

/-- Log a record, apply its value to the memtable under `key` and count. -/
def logAndApply (record : Record) (count : Metrics → Metrics) : EngineM Unit := do
  onWal (WALWriter.appendRecord record)
  syncWal
  memtablePut record.key record.value
  modifySelf (fun e => { e with metrics := count e.metrics })

/-- Count a write. -/
def countWrite (m : Metrics) : Metrics := { m with writes := bump m.writes }

/-- Count a delete. -/
def countDelete (m : Metrics) : Metrics := { m with deletes := bump m.deletes }

/-- `put`, up to the flush at its end. -/
def storePut (key value : Bytes) : EngineM Unit := do
  let seq ← takeSeq
  let encoded := encodeWithSeq value seq
  logAndApply { op := .put, key, value := encoded } countWrite

/-- Write a key-value pair. -/
def put (key value : Bytes) : EngineM Unit := do
  storePut key value
  maybeFlush

/-- `delete`, up to the flush at its end. -/
def storeDelete (key : Bytes) : EngineM Unit := do
  let seq ← takeSeq
  let encoded := encodeWithSeq tombstone seq
  logAndApply { op := .delete, key, value := encoded } countDelete

/-- Delete a key by writing a tombstone. -/
def delete (key : Bytes) : EngineM Unit := do
  storeDelete key
  maybeFlush

/-- `put_with_ttl`, up to the flush at its end. -/
def storeWithTtl (key value : Bytes) (ttl : Nat) : EngineM Unit := do
  let t ← onSys now
  let expiry ← liftResult (checkedAdd u64Limit t ttl)
  let seq ← takeSeq
  let encoded := encodeWithSeq (encodeTtl expiry value) seq
  logAndApply { op := .put, key, value := encoded } countWrite

/-- Write a key-value pair with a TTL, given in whole seconds. -/
def putWithTtl (key value : Bytes) (ttl : Nat) : EngineM Unit := do
  storeWithTtl key value ttl
  maybeFlush

/-- The WAL record of a batch operation. -/
def batchRecord : BatchOp → Record
  | .put key value => { op := .put, key, value }
  | .delete key => { op := .delete, key, value := [] }

/-- The value a batch operation puts into the memtable. -/
def batchValue : BatchOp → Bytes
  | .put _ value => value
  | .delete _ => tombstone

/-- Write each operation of a batch to the WAL. -/
def logBatch : List BatchOp → EngineM Unit
  | [] => pure ()
  | op :: ops => do
      onWal (WALWriter.appendRecord (batchRecord op))
      logBatch ops

/-- Apply each operation of a batch to the memtable. -/
def applyBatch : List BatchOp → EngineM Unit
  | [] => pure ()
  | op :: ops => do
      memtablePut op.key (batchValue op)
      applyBatch ops

/-- `write_batch` of operations, up to the flush at its end. -/
def storeBatch (ops : List BatchOp) : EngineM Unit := do
  logBatch ops
  onWal WALWriter.flush
  applyBatch ops

/-- Execute a batch of operations. -/
def writeBatch (batch : WriteBatch) : EngineM Unit :=
  if batch.isEmpty then pure ()
  else do
    storeBatch batch.ops
    maybeFlush

end Engine

end KvEngine
