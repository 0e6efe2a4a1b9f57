import KvEngine.Engine.Cascade
import KvEngine.Wal.Recovery

/-!
# What writes do

A call that writes is a list of `Store`s, each a log record together with the
value it puts into the memtable.  `Accepted` says what happens before the call
looks for something to flush: the log grows by the records and the memtable by
the values.  `Flushed` says what `maybeFlush` then does.
-/

namespace KvEngine

open Foundations

/-- A call of a client that writes. -/
inductive Call
  | put (key value : Bytes)
  | delete (key : Bytes)
  | putWithTtl (key value : Bytes) (ttl : Nat)
  | writeBatch (batch : WriteBatch)
  deriving DecidableEq, Repr

/-- A log record and the value that goes into the memtable with it. -/
structure Store where
  record : Record
  value : Bytes
  deriving DecidableEq, Repr

namespace Store

/-- What the memtable gets. -/
def binding (s : Store) : Bytes × Bytes := (s.record.key, s.value)

end Store

namespace Call

/-- The method that serves the call. -/
def run : Call → EngineM Unit
  | .put key value => Engine.put key value
  | .delete key => Engine.delete key
  | .putWithTtl key value ttl => Engine.putWithTtl key value ttl
  | .writeBatch batch => Engine.writeBatch batch

/-- The call up to the flush at its end. -/
def store : Call → EngineM Unit
  | .put key value => Engine.storePut key value
  | .delete key => Engine.storeDelete key
  | .putWithTtl key value ttl => Engine.storeWithTtl key value ttl
  | .writeBatch batch => if batch.isEmpty then pure () else Engine.storeBatch batch.ops

/-- What the call stores when it is given the sequence number `seq` and its clock
reads `t`. -/
def stores (seq t : Nat) : Call → List Store
  | .put key value =>
      [⟨{ op := .put, key, value := encodeWithSeq value seq }, encodeWithSeq value seq⟩]
  | .delete key =>
      [⟨{ op := .delete, key, value := encodeWithSeq tombstone seq }, encodeWithSeq tombstone seq⟩]
  | .putWithTtl key value ttl =>
      let encoded := encodeWithSeq (encodeTtl (t + ttl) value) seq
      [⟨{ op := .put, key, value := encoded }, encoded⟩]
  | .writeBatch batch => batch.ops.map (fun op => ⟨Engine.batchRecord op, Engine.batchValue op⟩)

/-- How many sequence numbers the call takes. -/
def seqs : Call → Nat
  | .writeBatch _ => 0
  | _ => 1

/-- The keys the call writes. -/
def keys : Call → List Bytes
  | .put key _ => [key]
  | .delete key => [key]
  | .putWithTtl key _ _ => [key]
  | .writeBatch batch => batch.ops.map BatchOp.key

theorem keys_stores (call : Call) (seq t : Nat) :
    (call.stores seq t).map (fun s => s.record.key) = call.keys := by
  cases call with
  | writeBatch batch =>
      simp only [stores, keys, List.map_map]
      refine List.map_congr_left fun op _ => ?_
      cases op <;> rfl
  | _ => rfl

/-- Whatever a call stores, it stores under one of its keys. -/
theorem key_mem_keys {call : Call} {seq t : Nat} {s : Store} (member : s ∈ call.stores seq t) :
    s.record.key ∈ call.keys := by
  rw [← call.keys_stores seq t]
  exact List.mem_map_of_mem member

end Call

/-- From `w` to `w'` the log grew by `data`; everything else may have changed too. -/
abbrev Logs (w : World) (data : Bytes) (w' : World) : Prop :=
  BufWriter.Wrote (w.eng.wal.file, w.sys) data (w'.eng.wal.file, w'.sys)

/-- What a call does before it looks for something to flush. -/
structure Accepted (w : World) (stores : List Store) (seqs : Nat) (w' : World) : Prop where
  eng : ∃ wal memtable metrics,
    w'.eng = { w.eng with wal, memtable, metrics, nextSeq := w.eng.nextSeq + seqs }
  memtable : MemTable.Puts w.eng.memtable (stores.map Store.binding) w'.eng.memtable
  logs : Logs w (encodeLog w.sys.env.crc (stores.map Store.record)) w'
  synced : w.eng.opts.syncWal → w.eng.wal.file.buf = [] → w'.eng.wal.file.buf = []

namespace Engine

variable {w w₁ w' : World} {u : Unit}

/-! ## The log -/

theorem Logs.of_sys {data : Bytes} (w' w'' : World) (logs : Logs w data w')
    (did : w'.sys.Did [] w''.sys) (wal : w''.eng.wal = w'.eng.wal) : Logs w data w'' := by
  obtain ⟨path, ⟨ops, did₁, appends⟩, content⟩ := logs
  refine ⟨by rw [wal]; exact path, ⟨ops, by simpa using did₁.trans did, appends⟩,
    fun old present => ?_⟩
  obtain ⟨new, presentNew, total⟩ := content old present
  refine ⟨new, ?_, by rw [wal]; exact total⟩
  rw [did.lookup_of_ne (by simp)]
  exact presentNew

theorem ends_appendRecord {record : Record}
    (run : Ends (onWal (WALWriter.appendRecord record)) w u w') :
    Logs w (record.encode w.sys.env.crc) w' ∧ ∃ wal, w'.eng = { w.eng with wal } := by
  simp only [ends_onWal, WALWriter.appendRecord, WALWriter.onFile, ends_bind, ends_get,
    ends_zoom] at run
  obtain ⟨p, ⟨a, p₁, ⟨rfl, rfl⟩, q, written, rfl⟩, rfl⟩ := run
  exact ⟨BufWriter.wrote_writeAll written, _, rfl⟩

theorem ends_walFlush (run : Ends (onWal WALWriter.flush) w u w') :
    Logs w [] w' ∧ w'.eng.wal.file.buf = [] ∧ ∃ wal, w'.eng = { w.eng with wal } := by
  simp only [ends_onWal, WALWriter.flush, WALWriter.onFile, ends_bind, ends_zoom] at run
  obtain ⟨p, ⟨u₁, p₁, ⟨q, flushed, rfl⟩, s, synced, rfl⟩, rfl⟩ := run
  obtain ⟨wrote, empty⟩ := BufWriter.wrote_flushBuf flushed
  refine ⟨?_, empty, _, rfl⟩
  exact Logs.of_sys ⟨{ w.eng with wal := ⟨q.1⟩ }, q.2⟩ _ wrote (ends_syncFile synced) rfl

theorem ends_syncWal (run : Ends syncWal w u w') :
    Logs w [] w' ∧ (w.eng.opts.syncWal → w'.eng.wal.file.buf = []) ∧
      ∃ wal, w'.eng = { w.eng with wal } := by
  simp only [syncWal, ends_bind, ends_self] at run
  obtain ⟨e, w₁, ⟨rfl, rfl⟩, rest⟩ := run
  split at rest
  · obtain ⟨logs, empty, eng⟩ := ends_walFlush rest
    exact ⟨logs, fun _ => empty, eng⟩
  · next unsynced =>
      obtain ⟨-, rfl⟩ := ends_pure.mp rest
      exact ⟨.refl _, fun synced => absurd synced unsynced, _, rfl⟩

/-! ## The memtable -/

theorem ends_memtablePut {key value : Bytes} (run : Ends (memtablePut key value) w u w') :
    (∃ trailing, w.eng.memtable.put trailing key value = .ok w'.eng.memtable) ∧
      w'.eng = { w.eng with memtable := w'.eng.memtable } ∧ w.sys.Did [] w'.sys := by
  simp only [memtablePut, ends_bind, ends_self, ends_onSys, ends_liftResult, ends_modifySelf] at run
  obtain ⟨e, w₁, ⟨rfl, rfl⟩, trailing, w₂, ⟨s, drawn, rfl⟩, memtable, w₃, ⟨puts, rfl⟩, rfl⟩ := run
  exact ⟨⟨trailing, puts⟩, rfl, ends_drawTrailing drawn⟩

theorem ends_logAndApply {record : Record} {count : Metrics → Metrics}
    (run : Ends (logAndApply record count) w u w') :
    Accepted w [⟨record, record.value⟩] 0 w' := by
  simp only [logAndApply, ends_bind, ends_modifySelf] at run
  obtain ⟨u₁, w₁, appended, u₂, w₂, synced, u₃, w₃, stored, rfl⟩ := run
  obtain ⟨logs₁, wal₁, eng₁⟩ := ends_appendRecord appended
  obtain ⟨logs₂, empty, wal₂, eng₂⟩ := ends_syncWal synced
  obtain ⟨⟨trailing, puts⟩, eng₃, did⟩ := ends_memtablePut stored
  have logs : Logs w (record.encode w.sys.env.crc ++ []) w₂ := logs₁.trans logs₂
  refine ⟨⟨wal₂, w₃.eng.memtable, count w₃.eng.metrics, ?_⟩, ?_, ?_, fun isSynced _ => ?_⟩
  · rw [eng₃, eng₂, eng₁]
    rfl
  · rw [eng₂, eng₁] at puts
    exact .cons puts (.nil _)
  · simpa [encodeLog] using Logs.of_sys w₂ w₃ logs did (by rw [eng₃])
  · rw [eng₃]
    exact empty (by rw [eng₁]; exact isSynced)

theorem ends_takeSeq {seq : Nat} (run : Ends takeSeq w seq w') :
    seq = w.eng.nextSeq ∧ w.eng.nextSeq + 1 < u64Limit ∧
      w' = { w with eng := { w.eng with nextSeq := w.eng.nextSeq + 1 } } := by
  simp only [takeSeq, ends_bind, ends_self, ends_liftResult, checkedAdd_eq_ok, ends_modifySelf,
    ends_pure] at run
  obtain ⟨e, w₁, ⟨rfl, rfl⟩, next, w₂, ⟨⟨small, rfl⟩, rfl⟩, u₁, w₃, rfl, rfl, rfl⟩ := run
  exact ⟨rfl, small, rfl⟩

/-- A write with a sequence number of its own. -/
theorem Accepted.of_logAndApply {v : World} {record : Record} {count : Metrics → Metrics}
    (waited : w.sys.Did [] v.sys)
    (eng : v.eng = { w.eng with nextSeq := w.eng.nextSeq + 1 })
    (run : Ends (logAndApply record count) v u w') :
    Accepted w [⟨record, record.value⟩] 1 w' := by
  obtain ⟨⟨wal, memtable, metrics, eng'⟩, puts, logs, synced⟩ := ends_logAndApply run
  refine ⟨⟨wal, memtable, metrics, ?_⟩, ?_, ?_, ?_⟩
  · rw [eng', eng]
  · rw [eng] at puts
    exact puts
  · have first : Logs w [] v := Logs.of_sys w v (.refl _) waited (by rw [eng])
    rw [waited.env] at logs
    exact first.trans logs
  · rw [eng] at synced
    exact synced

/-! ## Batches -/

theorem ends_logBatch {ops : List BatchOp} (run : Ends (logBatch ops) w u w') :
    Logs w (encodeLog w.sys.env.crc (ops.map batchRecord)) w' ∧ ∃ wal, w'.eng = { w.eng with wal } := by
  induction ops generalizing w with
  | nil =>
      obtain ⟨-, rfl⟩ := ends_pure.mp run
      exact ⟨.refl _, _, rfl⟩
  | cons op ops inductionHypothesis =>
      obtain ⟨u₁, w₁, appended, later⟩ := ends_bind.mp run
      obtain ⟨logs₁, wal₁, eng₁⟩ := ends_appendRecord appended
      obtain ⟨logs₂, wal₂, eng₂⟩ := inductionHypothesis later
      obtain ⟨ops₁, did, -⟩ := logs₁.did
      rw [did.env] at logs₂
      refine ⟨logs₁.trans logs₂, wal₂, ?_⟩
      rw [eng₂, eng₁]

theorem ends_applyBatch {ops : List BatchOp} (run : Ends (applyBatch ops) w u w') :
    MemTable.Puts w.eng.memtable (ops.map (fun op => (op.key, batchValue op))) w'.eng.memtable ∧
      w.sys.Did [] w'.sys ∧ ∃ memtable, w'.eng = { w.eng with memtable } := by
  induction ops generalizing w with
  | nil =>
      obtain ⟨-, rfl⟩ := ends_pure.mp run
      exact ⟨.nil _, .refl _, _, rfl⟩
  | cons op ops inductionHypothesis =>
      obtain ⟨u₁, w₁, stored, later⟩ := ends_bind.mp run
      obtain ⟨⟨trailing, puts⟩, eng₁, did₁⟩ := ends_memtablePut stored
      obtain ⟨putsLater, did₂, memtable, eng₂⟩ := inductionHypothesis later
      refine ⟨.cons puts putsLater, did₁.trans did₂, memtable, ?_⟩
      rw [eng₂, eng₁]

/-- What a batch stores. -/
def batchStores (ops : List BatchOp) : List Store :=
  ops.map (fun op => ⟨batchRecord op, batchValue op⟩)

theorem Accepted.of_batch {ops : List BatchOp}
    {w₂ : World} {u₁ u₂ : Unit} (logged : Ends (logBatch ops) w u₁ w₁)
    (flushed : Ends (onWal WALWriter.flush) w₁ u₂ w₂) (applied : Ends (applyBatch ops) w₂ u w') :
    Accepted w (batchStores ops) 0 w' ∧ w'.eng.wal.file.buf = [] := by
  obtain ⟨logs₁, wal₁, eng₁⟩ := ends_logBatch logged
  obtain ⟨logs₂, empty, wal₂, eng₂⟩ := ends_walFlush flushed
  obtain ⟨puts, did, memtable, eng₃⟩ := ends_applyBatch applied
  have logs : Logs w (encodeLog w.sys.env.crc (ops.map batchRecord) ++ []) w₂ := logs₁.trans logs₂
  have stillEmpty : w'.eng.wal.file.buf = [] := by
    rw [eng₃]
    exact empty
  refine ⟨⟨⟨wal₂, memtable, w.eng.metrics, ?_⟩, ?_, ?_, fun _ _ => stillEmpty⟩, stillEmpty⟩
  · rw [eng₃, eng₂, eng₁]
    rfl
  · rw [eng₂, eng₁] at puts
    rw [batchStores, List.map_map]
    refine (List.map_congr_left fun op _ => ?_) ▸ puts
    cases op <;> rfl
  · rw [batchStores, List.map_map]
    simpa [Function.comp_def] using Logs.of_sys w₂ w' logs did (by rw [eng₃])

/-! ## Calls -/

/-- A call stores and then flushes, unless it is an empty batch, which does nothing. -/
theorem ends_call {call : Call} (run : Ends call.run w u w') :
    ∃ w₁, Ends call.store w () w₁ ∧ (Ends maybeFlush w₁ u w' ∨ (w₁ = w ∧ w' = w)) := by
  cases call with
  | writeBatch batch =>
      simp only [Call.run, writeBatch] at run
      simp only [Call.store]
      split at run
      · next empty =>
          obtain ⟨-, rfl⟩ := ends_pure.mp run
          rw [if_pos empty]
          exact ⟨w, ends_pure.mpr ⟨rfl, rfl⟩, Or.inr ⟨rfl, rfl⟩⟩
      · next nonempty =>
          obtain ⟨u₁, w₁, stored, flushes⟩ := ends_bind.mp run
          rw [if_neg nonempty]
          exact ⟨w₁, stored, Or.inl flushes⟩
  | _ =>
      obtain ⟨u₁, w₁, stored, flushes⟩ := ends_bind.mp run
      exact ⟨w₁, stored, Or.inl flushes⟩

/-- **What storing does**: the clock is read at once. -/
theorem ends_store_now {call : Call} (run : Ends call.store w u w') :
    Accepted w (call.stores w.eng.nextSeq w.sys.time) call.seqs w' ∧
      (call.seqs = 1 → w.eng.nextSeq + 1 < u64Limit) := by
  cases call with
  | put key value =>
      obtain ⟨seq, w₁, took, applied⟩ := ends_bind.mp run
      obtain ⟨rfl, small, rfl⟩ := ends_takeSeq took
      exact ⟨Accepted.of_logAndApply
        (v := ⟨{ w.eng with nextSeq := w.eng.nextSeq + 1 }, w.sys⟩) (.refl _) rfl applied,
        fun _ => small⟩
  | delete key =>
      obtain ⟨seq, w₁, took, applied⟩ := ends_bind.mp run
      obtain ⟨rfl, small, rfl⟩ := ends_takeSeq took
      exact ⟨Accepted.of_logAndApply
        (v := ⟨{ w.eng with nextSeq := w.eng.nextSeq + 1 }, w.sys⟩) (.refl _) rfl applied,
        fun _ => small⟩
  | putWithTtl key value ttl =>
      simp only [Call.store, storeWithTtl, ends_bind, ends_onSys, ends_liftResult,
        checkedAdd_eq_ok] at run
      obtain ⟨t, w₁, ⟨s, read, rfl⟩, expiry, w₂, ⟨⟨-, rfl⟩, rfl⟩, seq, w₃, took, applied⟩ := run
      obtain ⟨rfl, small, rfl⟩ := ends_takeSeq took
      obtain ⟨rfl, rfl⟩ := Ends.unique read (now_run w.sys)
      exact ⟨Accepted.of_logAndApply
        (v := ⟨{ w.eng with nextSeq := w.eng.nextSeq + 1 }, w.sys.later 1⟩)
        (w.sys.did_later 1) rfl applied, fun _ => small⟩
  | writeBatch batch =>
      simp only [Call.store] at run
      split at run
      · next empty =>
          obtain ⟨-, rfl⟩ := ends_pure.mp run
          have none : batch.ops = [] := by simpa [WriteBatch.isEmpty] using empty
          refine ⟨⟨⟨_, _, _, rfl⟩, ?_, ?_, fun _ same => same⟩,
            by simp [Call.seqs]⟩
          · simpa [Call.stores, none] using MemTable.Puts.nil _
          · simpa [Call.stores, none, encodeLog] using BufWriter.Wrote.refl (w.eng.wal.file, w.sys)
      · simp only [storeBatch, ends_bind] at run
        obtain ⟨u₁, w₁, logged, u₂, w₂, flushed, applied⟩ := run
        exact ⟨(Accepted.of_batch logged flushed applied).1,
          by simp [Call.seqs]⟩

/-- The sum of clock reading and lifetime fits. -/
theorem expiry_fits {key value : Bytes} {ttl : Nat} (run : Ends (storeWithTtl key value ttl) w u w') :
    w.sys.time + ttl < u64Limit := by
  simp only [storeWithTtl, ends_bind, ends_onSys, ends_liftResult, checkedAdd_eq_ok] at run
  obtain ⟨t, w₁, ⟨s, read, rfl⟩, expiry, w₂, ⟨⟨fits, rfl⟩, rfl⟩, -⟩ := run
  obtain ⟨rfl, -⟩ := Ends.unique read (now_run w.sys)
  exact fits

theorem ends_store {call : Call} (run : Ends call.store w u w') :
    ∃ t, w.sys.Reads t ∧ Accepted w (call.stores w.eng.nextSeq t) call.seqs w' ∧
      (call.seqs = 1 → w.eng.nextSeq + 1 < u64Limit) := by
  obtain ⟨accepted, small⟩ := ends_store_now run
  exact ⟨w.sys.time, w.sys.reads_time, accepted, small⟩

/-! ## Flushing -/

/-- The world once the frozen list is taken out of the memtable. -/
def thawed (w : World) : World :=
  { w with eng := { w.eng with memtable := w.eng.memtable.takeImmutable.2 } }

/-- What `maybeFlush` does: nothing without a frozen list, otherwise a flush and the
compactions that follow from it. -/
inductive Flushed (w w' : World) : Prop
  | nothing (free : w.eng.memtable.immutable = none) (same : w' = w) : Flushed w w'
  | flush {imm : SkipList} {p : Table} {w₁ : World} (frozen : w.eng.memtable.immutable = some imm)
      (invThawed : Inv (thawed w)) (flush : Flush (thawed w) p w₁) (map : p.map = imm.contents)
      (cascade : Cascade 0 w₁ w') : Flushed w w'

/-- A flush leaves the levels from 1 on as they are. -/
theorem Flush.carried {p : Table} (flush : Flush w p w') (settled : AllSettled w.eng) :
    Carried w'.eng 0 := by
  obtain ⟨metrics, eng⟩ := flush.eng
  refine ⟨fun l above => absurd above (Nat.not_lt_zero l), fun l positive within => ?_⟩
  rw [eng] at within ⊢
  have before := settled l within
  unfold Settled at before ⊢
  rwa [Manifest.sstsAtLevel_addSst, if_neg (by omega)]

theorem inv_thawed (inv : Inv w) : Inv (thawed w) where
  tables := inv.tables
  listed := inv.listed
  apart := inv.apart
  memtable := inv.memtable.takeImmutable
  memKeys map hm b hb := by
    refine inv.memKeys map ?_ b hb
    obtain rfl : map = w.eng.memtable.active.contents := by
      simpa [thawed, MemTable.takeImmutable, MemTable.layers] using hm
    exact List.mem_cons_self
  history := inv.history

/-- The steps of `maybeFlush`, unless nothing is frozen. -/
theorem ends_maybeFlush_steps (valid : w.eng.memtable.Valid) (run : Ends maybeFlush w u w') :
    (w.eng.memtable.immutable = none ∧ w' = w) ∨
      ∃ imm id w₁ w₂, w.eng.memtable.immutable = some imm ∧ Ends takeSstId (thawed w) id w₁ ∧
        Ends (flushEntries id imm.contents.entries) w₁ () w₂ ∧ Ends maybeCompact w₂ u w' := by
  simp only [maybeFlush, ends_bind, ends_self] at run
  obtain ⟨e, w₁, ⟨rfl, rfl⟩, rest⟩ := run
  cases frozen : w₁.eng.memtable.immutable with
  | none =>
      simp only [MemTable.takeImmutable, frozen] at rest
      obtain ⟨-, rfl⟩ := ends_pure.mp rest
      exact Or.inl ⟨rfl, rfl⟩
  | some imm =>
      simp only [MemTable.takeImmutable, frozen, ends_bind, ends_modifySelf] at rest
      obtain ⟨u₁, w₂, rfl, flushes⟩ := rest
      change Ends (flushImmutable imm) (thawed w₁) u w' at flushes
      obtain ⟨id, w₂, w₃, steps⟩ :=
        ends_flushImmutable (valid.immutable imm frozen) (valid.frozen imm frozen) flushes
      exact Or.inr ⟨imm, id, w₂, w₃, rfl, steps⟩

/-- **What `maybeFlush` does** up to its compactions. -/
theorem ends_maybeFlush_cases (inv : Inv w) (limits : WithinLimits w'.sys)
    (run : Ends maybeFlush w u w') :
    (w.eng.memtable.immutable = none ∧ w' = w) ∨
      ∃ imm p w₁, w.eng.memtable.immutable = some imm ∧ Inv (thawed w) ∧ Flush (thawed w) p w₁ ∧
        p.map = imm.contents ∧ Ends maybeCompact w₁ u w' := by
  rcases ends_maybeFlush_steps inv.memtable run with
    nothing | ⟨imm, id, w₁, w₂, frozen, took, flushed, compacts⟩
  · exact Or.inl nothing
  · have keys : ∀ b ∈ imm.contents.entries, b.1.length < 2 ^ 16 :=
      inv.memKeys imm.contents (by simp [MemTable.layers, frozen])
    have invThawed := inv_thawed inv
    have limits₂ : WithinLimits w₂.sys :=
      limits.of_extends (extending_maybeCompact _ _ _ compacts).sys
    obtain ⟨p, flush, map⟩ := ends_flushEntries keys invThawed.history limits₂ took flushed
    exact Or.inr ⟨imm, p, w₂, frozen, invThawed, flush, map, compacts⟩

/-- **What `maybeFlush` does** when everything is settled, and that everything is
settled afterwards. -/
theorem ends_maybeFlush (inv : Inv w) (settled : AllSettled w.eng) (limits : WithinLimits w'.sys)
    (run : Ends maybeFlush w u w') : Flushed w w' ∧ AllSettled w'.eng := by
  rcases ends_maybeFlush_cases inv limits run with
    ⟨free, rfl⟩ | ⟨imm, p, w₁, frozen, invThawed, flush, map, compacts⟩
  · exact ⟨.nothing free rfl, settled⟩
  · obtain ⟨cascade, all⟩ := ends_maybeCompact (flush.inv invThawed) (flush.carried settled) limits
      compacts
    exact ⟨.flush frozen invThawed flush map cascade, all⟩

/-- What `maybeFlush` does in any state: nothing without a frozen list, otherwise a
flush and some compactions. -/
inductive Flushing (w w' : World) : Prop
  | nothing (free : w.eng.memtable.immutable = none) (same : w' = w) : Flushing w w'
  | flush {imm : SkipList} {p : Table} {w₁ : World} (frozen : w.eng.memtable.immutable = some imm)
      (invThawed : Inv (thawed w)) (flush : Flush (thawed w) p w₁) (map : p.map = imm.contents)
      (compactions : Compactions w₁ w') : Flushing w w'

theorem Flushed.flushing (flushed : Flushed w w') : Flushing w w' := by
  cases flushed with
  | nothing free same => exact .nothing free same
  | flush frozen invThawed flush map cascade =>
      exact .flush frozen invThawed flush map cascade.compactions

theorem flushing_of_maybeFlush (inv : Inv w) (limits : WithinLimits w'.sys)
    (run : Ends maybeFlush w u w') : Flushing w w' := by
  rcases ends_maybeFlush_cases inv limits run with
    ⟨free, rfl⟩ | ⟨imm, p, w₁, frozen, invThawed, flush, map, compacts⟩
  · exact .nothing free rfl
  · exact .flush frozen invThawed flush map
      (compactions_of_maybeCompact (flush.inv invThawed) limits compacts)

/-- A flush moves the frozen versions from the memtable to the newest table. -/
theorem Flush.versionsOf_eq {imm : SkipList} {p : Table}
    (flush : Flush (thawed w) p w') (frozen : w.eng.memtable.immutable = some imm)
    (map : p.map = imm.contents) (key : Bytes) :
    w'.eng.versionsOf key = w.eng.versionsOf key := by
  have tables := flush.versionsIn_eq key
  obtain ⟨metrics, eng⟩ := flush.eng
  rw [map] at tables
  rw [Engine.versionsOf, tables, Engine.versionsOf, MemTable.versionsOf_some frozen, eng]
  simp [thawed, MemTable.takeImmutable, MemTable.versionsOf, MemTable.layers, versions_cons]

namespace Flushing

theorem inv (flushing : Flushing w w') (inv : Inv w) : Inv w' := by
  cases flushing with
  | nothing _ same => exact same ▸ inv
  | flush _ invThawed flush _ compactions => exact compactions.inv (flush.inv invThawed)

theorem immutable_eq (flushing : Flushing w w') : w'.eng.memtable.immutable = none := by
  cases flushing with
  | nothing free same => rw [same, free]
  | flush _ _ flush _ compactions =>
      obtain ⟨metrics, eng⟩ := flush.eng
      rw [compactions.kept.1, eng]
      rfl

/-- The active list is not flushed. -/
theorem active_eq (flushing : Flushing w w') :
    w'.eng.memtable.active = w.eng.memtable.active := by
  cases flushing with
  | nothing _ same => rw [same]
  | flush _ _ flush _ compactions =>
      obtain ⟨metrics, eng⟩ := flush.eng
      rw [compactions.kept.1, eng]
      rfl

theorem kept (flushing : Flushing w w') :
    w'.eng.nextSeq = w.eng.nextSeq ∧ w'.eng.opts = w.eng.opts := by
  cases flushing with
  | nothing _ same => exact ⟨by rw [same], by rw [same]⟩
  | flush _ _ flush _ compactions =>
      obtain ⟨metrics, eng⟩ := flush.eng
      obtain ⟨-, nextSeq, -, opts⟩ := compactions.kept
      rw [nextSeq, opts, eng]
      exact ⟨rfl, rfl⟩

end Flushing

namespace Flushed

theorem inv (flushed : Flushed w w') (inv : Inv w) : Inv w' := flushed.flushing.inv inv

theorem ordered (flushed : Flushed w w')
    (ordered : Ordered w.eng.manifest w.eng.sstReaders) :
    Ordered w'.eng.manifest w'.eng.sstReaders := by
  cases flushed with
  | nothing _ same => exact same ▸ ordered
  | flush _ invThawed flush _ cascade => exact cascade.ordered (flush.ordered invThawed ordered)

theorem immutable_eq (flushed : Flushed w w') : w'.eng.memtable.immutable = none :=
  flushed.flushing.immutable_eq

end Flushed

end Engine

end KvEngine
