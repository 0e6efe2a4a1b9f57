import KvEngine.Engine.Logged

/-!
# The log and the memtable

With `sync_wal` every acknowledged write is in the log file.  The log is truncated as a
whole when the frozen list is flushed, so it covers the memtable as long as the active
list is empty at that moment: a batch may only freeze the list at its last operation.
-/

namespace KvEngine

open Foundations Engine

variable {w w₁ w' : World} {u : Unit}

/-- Every key of the first map is in the second one, with a value that shows the same. -/
def Covers (m m' : SortedMap Bytes Bytes) : Prop :=
  ∀ key v, m.lookup key = some v → ∃ v', m'.lookup key = some v' ∧ ∀ t, shown t v' = shown t v

namespace Covers

theorem refl (m : SortedMap Bytes Bytes) : Covers m m := fun _ v found => ⟨v, found, fun _ => rfl⟩

theorem empty (m : SortedMap Bytes Bytes) : Covers SortedMap.empty m := by
  intro key v found
  rw [SortedMap.lookup_empty] at found
  cases found

theorem insert {m m' : SortedMap Bytes Bytes} (covers : Covers m m') {v v' : Bytes}
    (same : ∀ t, shown t v' = shown t v) (key : Bytes) :
    Covers (m.insert key v) (m'.insert key v') := by
  intro k x found
  rw [SortedMap.lookup_insert] at found ⊢
  split at found
  · next isKey =>
      cases found
      exact ⟨v', if_pos isKey, same⟩
  · next other =>
      rw [if_neg other]
      exact covers k x found

/-- Replaying the records of some stores covers what they put into the memtable. -/
theorem insertAll {m m' : SortedMap Bytes Bytes} (covers : Covers m m') {stores : List Store}
    (faithful : ∀ s ∈ stores, ∀ t, shown t (replayValue s.record) = shown t s.value) :
    Covers (m.insertAll (stores.map Store.binding))
      (m'.insertAll ((stores.map Store.record).map Record.binding)) := by
  induction stores generalizing m m' with
  | nil => exact covers
  | cons s stores inductionHypothesis =>
      simp only [List.map_cons, SortedMap.insertAll_cons]
      exact inductionHypothesis (covers.insert (faithful s List.mem_cons_self) s.record.key)
        fun s' hs => faithful s' (List.mem_cons_of_mem _ hs)

end Covers

/-- What is replayed of a record shows what the memtable got. -/
theorem Call.shown_replayValue (call : Call) (seq t : Nat) :
    ∀ s ∈ call.stores seq t, ∀ t', shown t' (replayValue s.record) = shown t' s.value := by
  intro s member t'
  cases call with
  | put key value =>
      rw [List.mem_singleton.mp member]
      rfl
  | delete key =>
      rw [List.mem_singleton.mp member]
      exact (shown_encodeWithSeq_tombstone t' seq).symm
  | putWithTtl key value ttl =>
      rw [List.mem_singleton.mp member]
      rfl
  | writeBatch batch =>
      obtain ⟨op, -, rfl⟩ := List.mem_map.mp member
      cases op <;> rfl

/-! ## The property -/

/-- Replaying the log where no file operation fails rebuilds every key of the memtable,
with a value that shows the same. -/
def LogCovers (w : World) : Prop :=
  ∀ s : Sys, s.dir = w.sys.dir → s.env.crc = w.sys.env.crc → s.env.Faultless → ∀ memtableSize,
    ∃ m s', Ends (replayWal w.eng.wal.file.path memtableSize) s m s' ∧
      ∀ key v, w.eng.memtable.get key = .ok (some v) →
        ∃ v', m.get key = .ok (some v') ∧ ∀ t, shown t v' = shown t v

/-- The memtable after some operations of a batch, with the towers drawn from `draws` on. -/
def putOps (towers : Nat → Nat) : Nat → List BatchOp → MemTable → Result MemTable
  | _, [], m => .ok m
  | draws, op :: ops, m => do
      let m ← m.put (towers draws) op.key (batchValue op)
      putOps towers (draws + 1) ops m

/-- The operations before the last one already freeze the memtable. -/
def FreezesEarly (w : World) (ops : List BatchOp) : Prop :=
  ∃ m, putOps w.sys.env.towers w.sys.draws ops.dropLast w.eng.memtable = .ok m ∧
    m.immutable.isSome

instance (w : World) (ops : List BatchOp) : Decidable (FreezesEarly w ops) :=
  match run : putOps w.sys.env.towers w.sys.draws ops.dropLast w.eng.memtable with
  | .ok m => decidable_of_iff (m.immutable.isSome) <| by simp [FreezesEarly, run]
  | .error _ => isFalse <| by simp [FreezesEarly, run]

/-- The log is synced with every write, and no batch freezes the memtable early. -/
def SyncedLate (w : World) (request : Request) : Prop :=
  w.eng.opts.syncWal = true ∧
    ∀ batch, request = .write (.writeBatch batch) → ¬ FreezesEarly w batch.ops

/-! ## The draws of a batch -/

/-- No tower is drawn. -/
def SameDraws (s s' : Sys) : Prop := s'.draws = s.draws

theorem SameDraws.trans {s s' s'' : Sys} (h₁ : SameDraws s s') (h₂ : SameDraws s' s'') :
    SameDraws s s'' := Eq.trans h₂ h₁

theorem sameDraws_writeFile (f : FileName) (data : Bytes) :
    Advances SameDraws (writeFile f data) := by
  intro s u s' run
  simp only [writeFile, ends_bind, ends_nextFault] at run
  obtain ⟨r, s₁, ⟨rfl, rfl⟩, rest⟩ := run
  split at rest
  · simp [ends_bind] at rest
  · rw [ends_modify] at rest
    exact rest ▸ rfl

theorem sameDraws_syncFile : Advances SameDraws syncFile := by
  intro s u s' run
  simp only [syncFile, ends_bind, ends_nextFault] at run
  obtain ⟨r, s₁, ⟨rfl, rfl⟩, rest⟩ := run
  split at rest
  · simp at rest
  · obtain ⟨-, rfl⟩ := ends_pure.mp rest
    rfl

namespace BufWriter

/-- A method of the writer draws no tower. -/
def DrawsNone (p p' : BufWriter × Sys) : Prop := SameDraws p.2 p'.2

theorem drawsNone_flushBuf : Advances DrawsNone flushBuf := by
  rintro ⟨file, s⟩ u p' run
  unfold Ends flushBuf at run
  simp only [nextFault] at run
  split at run
  · cases run
    rfl
  · cases fault : s.env.ioFault s.ioCount with
    | some n => simp [fault] at run
    | none =>
        simp only [fault] at run
        cases run
        rfl

theorem drawsNone_writeAll (data : Bytes) : Advances DrawsNone (writeAll data) := by
  refine advances_bind (R := DrawsNone) SameDraws.trans (fun p u p' run => ?_)
    fun _ p u p' run => ?_
  · simp only [makeRoom, ends_bind, ends_get] at run
    obtain ⟨q, p₁, ⟨rfl, rfl⟩, run⟩ := run
    split at run
    · exact drawsNone_flushBuf _ _ _ run
    · obtain ⟨-, rfl⟩ := ends_pure.mp run
      rfl
  · simp only [bufferOrWrite, ends_bind, ends_get] at run
    obtain ⟨q, p₁, ⟨rfl, rfl⟩, run⟩ := run
    split at run
    · obtain ⟨s, written, rfl⟩ := ends_zoom.mp run
      exact sameDraws_writeFile _ _ _ _ _ written
    · rw [ends_modify] at run
      exact run ▸ rfl

end BufWriter

theorem sameDraws_walFlush (run : Ends (onWal WALWriter.flush) w u w') :
    SameDraws w.sys w'.sys := by
  simp only [ends_onWal, WALWriter.flush, WALWriter.onFile, ends_bind, ends_zoom] at run
  obtain ⟨p, ⟨u₁, p₁, ⟨q, flushed, rfl⟩, s, synced, rfl⟩, rfl⟩ := run
  exact (BufWriter.drawsNone_flushBuf _ _ _ flushed).trans (sameDraws_syncFile _ _ _ synced)

theorem sameDraws_logBatch {ops : List BatchOp} (run : Ends (logBatch ops) w u w') :
    SameDraws w.sys w'.sys := by
  induction ops generalizing w with
  | nil =>
      obtain ⟨-, rfl⟩ := ends_pure.mp run
      rfl
  | cons op ops inductionHypothesis =>
      obtain ⟨u₁, w₁, appended, later⟩ := ends_bind.mp run
      simp only [ends_onWal, WALWriter.appendRecord, WALWriter.onFile, ends_bind, ends_get,
        ends_zoom] at appended
      obtain ⟨p, ⟨a, p₁, ⟨rfl, rfl⟩, q, written, rfl⟩, rfl⟩ := appended
      exact (BufWriter.drawsNone_writeAll _ _ _ _ written).trans (inductionHypothesis later)

/-- What applying a batch makes of the memtable. -/
theorem putOps_of_applyBatch {ops : List BatchOp} (run : Ends (applyBatch ops) w u w') :
    putOps w.sys.env.towers w.sys.draws ops w.eng.memtable = .ok w'.eng.memtable := by
  induction ops generalizing w with
  | nil =>
      obtain ⟨-, rfl⟩ := ends_pure.mp run
      rfl
  | cons op ops inductionHypothesis =>
      obtain ⟨u₁, w₁, stored, later⟩ := ends_bind.mp run
      simp only [memtablePut, ends_bind, ends_self, ends_onSys, ends_liftResult,
        ends_modifySelf] at stored
      obtain ⟨e, w₂, ⟨rfl, rfl⟩, trailing, w₃, ⟨s, drawn, rfl⟩, memtable, w₄, ⟨puts, rfl⟩, rfl⟩ :=
        stored
      cases drawn
      rw [putOps, puts, Result.ok_bind]
      exact inductionHypothesis later

theorem putOps_append (towers : Nat → Nat) (draws : Nat) (ops₁ ops₂ : List BatchOp) (m : MemTable) :
    putOps towers draws (ops₁ ++ ops₂) m =
      (putOps towers draws ops₁ m >>= putOps towers (draws + ops₁.length) ops₂) := by
  induction ops₁ generalizing draws m with
  | nil => rfl
  | cons op ops₁ inductionHypothesis =>
      simp only [List.cons_append, putOps, List.length_cons]
      cases m.put (towers draws) op.key (batchValue op) with
      | error e => rfl
      | ok m₁ =>
          simp only [Result.ok_bind]
          rw [inductionHypothesis, Nat.add_right_comm, Nat.add_assoc]

theorem puts_of_putOps {towers : Nat → Nat} {draws : Nat} {ops : List BatchOp} {m m' : MemTable}
    (run : putOps towers draws ops m = .ok m') :
    MemTable.Puts m (ops.map (fun op => (op.key, batchValue op))) m' := by
  induction ops generalizing draws m with
  | nil =>
      cases run
      exact .nil _
  | cons op ops inductionHypothesis =>
      rw [putOps] at run
      cases first : m.put (towers draws) op.key (batchValue op) with
      | error e =>
          rw [first] at run
          cases run
      | ok m₁ =>
          rw [first, Result.ok_bind] at run
          exact .cons first (inductionHypothesis run)

/-! ## One write -/

/-- The last write into a memtable that holds nothing frozen either stays in the active
list or freezes it, so that the new active list is empty. -/
theorem MemTable.Puts.last {m m' : MemTable} {b : Bytes × Bytes} (puts : Puts m [b] m')
    (valid : m.Valid) (free : m.immutable = none) :
    (m'.immutable = none ∧ m'.active.contents = m.active.contents.insertAll [b]) ∨
      m'.active.contents = SortedMap.empty := by
  cases found : m'.immutable with
  | none => exact Or.inl ⟨rfl, puts.contents_of_free valid found⟩
  | some imm =>
      cases puts with
      | cons first later =>
          cases later
          obtain ⟨m₁, run, -, -, effect⟩ := valid.put_ok _ _ _
          rw [first] at run
          cases run
          rcases effect with ⟨-, immutable⟩ | ⟨-, empty, -⟩
          · rw [immutable, free] at found
            cases found
          · exact Or.inr empty

/-- A batch that does not freeze the memtable early is a single write in this respect. -/
theorem last_of_batch {towers : Nat → Nat} {draws : Nat} {ops : List BatchOp} {m m' : MemTable}
    (valid : m.Valid) (free : m.immutable = none)
    (late : ¬ ∃ m₁, putOps towers draws ops.dropLast m = .ok m₁ ∧ m₁.immutable.isSome)
    (run : putOps towers draws ops m = .ok m') :
    (m'.immutable = none ∧ m'.active.contents =
        m.active.contents.insertAll (ops.map (fun op => (op.key, batchValue op)))) ∨
      m'.active.contents = SortedMap.empty := by
  rcases List.eq_nil_or_concat' ops with rfl | ⟨before, op, rfl⟩
  · cases run
    exact Or.inl ⟨free, rfl⟩
  · rw [List.dropLast_concat] at late
    rw [putOps_append] at run
    cases early : putOps towers draws before m with
    | error e =>
        rw [early] at run
        cases run
    | ok m₁ =>
        rw [early, Result.ok_bind] at run
        have free₁ : m₁.immutable = none := by
          cases frozen : m₁.immutable with
          | none => rfl
          | some imm => exact absurd ⟨m₁, early, by rw [frozen]; rfl⟩ late
        have puts := puts_of_putOps early
        rcases (puts_of_putOps run).last (puts.valid valid).1 free₁ with ⟨free', contents⟩ | empty
        · refine Or.inl ⟨free', ?_⟩
          rw [contents, puts.contents_of_free valid free₁, List.map_append,
            SortedMap.insertAll_append]
          rfl
        · exact Or.inr empty

/-- **Storing** puts every value into the active list, or the list is frozen with all of
them in it. -/
theorem ends_store_active (resting : Resting w) {call : Call}
    (late : SyncedLate w (.write call)) (run : Ends call.store w u w') :
    (w'.eng.memtable.immutable = none ∧ w'.eng.memtable.active.contents =
        w.eng.memtable.active.contents.insertAll
          ((call.stores w.eng.nextSeq w.sys.time).map Store.binding)) ∨
      w'.eng.memtable.active.contents = SortedMap.empty := by
  have valid := resting.inv.memtable
  have puts := (ends_store_now run).1.memtable
  cases call with
  | writeBatch batch =>
      simp only [Call.store] at run
      split at run
      · next empty =>
          obtain ⟨-, rfl⟩ := ends_pure.mp run
          have none : batch.ops = [] := by simpa [WriteBatch.isEmpty] using empty
          exact Or.inl ⟨resting.free, by simp [Call.stores, none]⟩
      · simp only [storeBatch, ends_bind] at run
        obtain ⟨u₁, w₁, logs, u₂, w₂, flushed, applied⟩ := run
        obtain ⟨-, wal₁, eng₁⟩ := ends_logBatch logs
        obtain ⟨-, -, wal₂, eng₂⟩ := ends_walFlush flushed
        have env : w₂.sys.env = w.sys.env :=
          (extending_walFlush _ _ _ flushed).sys.env.trans (extending_logBatch _ _ _ _ logs).sys.env
        have draws : w₂.sys.draws = w.sys.draws :=
          ((sameDraws_logBatch logs).trans (sameDraws_walFlush flushed))
        have applied := putOps_of_applyBatch applied
        rw [env, draws, eng₂, eng₁] at applied
        have stored := last_of_batch valid resting.free (late.2 batch rfl) applied
        rw [Call.stores, List.map_map]
        refine stored.imp (fun same => ⟨same.1, same.2.trans ?_⟩) id
        refine congrArg _ (List.map_congr_left fun op _ => ?_)
        cases op <;> rfl
  | _ => exact puts.last valid resting.free

/-! ## The invariant -/

/-- The log holds records whose replay covers the memtable, and nothing is buffered. -/
def Covered (w : World) : Prop :=
  ∃ rs, Logged w rs [] ∧
    Covers w.eng.memtable.active.contents (SortedMap.empty.insertAll (rs.map Record.binding))

namespace Covered

theorem dropsAll (covered : Covered w) : DropsAll w := by
  obtain ⟨rs, logged, -⟩ := covered
  exact Or.inl logged.buf

/-- An engine that is opened recovers what it will recover again. -/
theorem opened {s s' : Sys} {opts : Options} {e : Engine} (logs : OneLog s.dir) {rs : List Record}
    (file : (s.dir.lookup (.wal 1)).getD [] = encodeLog s.env.crc rs) (fits : ∀ r ∈ rs, r.Fits)
    (run : Ends (openWithOptions opts) s e s') : Covered ⟨e, s'⟩ := by
  refine ⟨rs, .opened logs file run, ?_⟩
  obtain ⟨recovered, -⟩ := ends_openWithOptions run
  obtain ⟨records, log, contents⟩ := recovered.log
  have same : records = rs := by
    unfold logOf at log
    rw [logs.walPathOf] at log
    cases found : s.dir.lookup (.wal 1) with
    | none =>
        rw [found] at file log
        cases log
        exact (eq_nil_of_encodeLog file.symm).symm
    | some data =>
        rw [found] at file log
        rw [show data = encodeLog s.env.crc rs from file] at log
        exact Except.ok.inj (log.symm.trans (WALReader.collect_encodeLog fits))
  rw [contents, same]
  exact Covers.refl _

/-- **One call** keeps the memtable covered. -/
theorem call (covered : Covered w) (resting : Resting w) (kept : Kept w) {call : Call}
    (late : SyncedLate w (.write call)) (keys : call.KeysFit) (limits : WithinLimits w'.sys)
    (run : Ends call.run w u w') : Covered w' := by
  obtain ⟨rs, logged, covers⟩ := covered
  obtain ⟨w₁, stored, rest⟩ := ends_call run
  have accepted := (ends_store_now stored).1
  obtain ⟨rs₁, bs₁, logged₁, total⟩ := logged.store stored
  have empty : w₁.eng.wal.file.buf = [] := accepted.synced late.1 logged.buf
  have noBuffer : bs₁ = [] := eq_nil_of_encodeLog (logged₁.buf.symm.trans empty)
  subst noBuffer
  rw [List.append_nil, List.append_nil] at total
  rcases rest with flushes | ⟨rfl, rfl⟩
  · have inv₁ : Inv w₁ := accepted.inv resting.inv fun s hs => keys _ (Call.key_mem_keys hs)
    have flushing := flushing_of_maybeFlush inv₁ limits flushes
    have log := (kept.of_logs accepted.logs).log
    have active := ends_store_active resting late stored
    rw [← flushing.active_eq] at active
    rcases logged₁.flushing flushing log (Or.inl empty) with ⟨free, rfl⟩ | ⟨taken, logged'⟩
    · refine ⟨rs₁, logged₁, ?_⟩
      rcases active with ⟨-, contents⟩ | none
      · rw [contents, total, List.map_append]
        rw [SortedMap.insertAll_append]
        exact covers.insertAll (call.shown_replayValue w.eng.nextSeq w.sys.time)
      · rw [none]
        exact .empty _
    · refine ⟨[], logged', ?_⟩
      rcases active with ⟨free, -⟩ | none
      · rw [free] at taken
        cases taken
      · rw [none]
        exact .empty _
  · exact ⟨rs, logged, covers⟩

theorem observed (covered : Covered w) (observed : Observed w w') : Covered w' := by
  obtain ⟨rs, logged, covers⟩ := covered
  obtain ⟨c, m, n, rfl⟩ := observed.world
  exact ⟨rs, logged.frame rfl rfl rfl, covers⟩

/-- What is covered when the engine goes away is covered when it is opened again. -/
theorem reopened (covered : Covered w) (resting : Resting w) (kept : Kept w) {s s' : Sys}
    (left : Left w s) (fits : FilesFit s) {opts : Options} {e : Engine}
    (run : Ends (openWithOptions opts) s e s') : Covered ⟨e, s'⟩ := by
  have all := covered.dropsAll
  obtain ⟨rs, logged, -⟩ := covered
  have short := logged.fits (fits.of_extends left.extends) resting.inv.history
  obtain ⟨ts, file, logs, among⟩ := logged.left resting kept all left fits.withinLimits
  exact opened logs (by rw [file]; rfl) (fun r member => short r (among r member)) run

/-- Replaying the log gives at least what the memtable holds. -/
theorem logCovers (covered : Covered w) (resting : Resting w) (kept : Kept w)
    (fits : FilesFit w.sys) : LogCovers w := by
  obtain ⟨rs, logged, covers⟩ := covered
  intro s sameDir sameCrc faultless memtableSize
  have short := logged.fits fits resting.inv.history
  rw [List.append_nil] at short
  have file := logged.file
  have path : w.eng.wal.file.path = walPathOf s.dir := by
    rw [kept.log, sameDir, kept.logs.walPathOf]
  rw [← sameDir, ← sameCrc] at file
  have replays : WALReader.collect (WALReader.items s.env.crc (encodeLog s.env.crc rs)) = .ok rs :=
    WALReader.collect_encodeLog short
  obtain ⟨m, s', run, -⟩ := replayWal_runAt faultless file replays memtableSize
  obtain ⟨⟨records, log, contents⟩, ⟨valid, free, -⟩, -⟩ := ends_replayWal path run
  have same : records = rs := by
    rw [logOf, ← path, file] at log
    exact Except.ok.inj (log.symm.trans replays)
  refine ⟨m, s', run, fun key v found => ?_⟩
  rw [resting.inv.memtable.get_eq, MemTable.versionsOf_none resting.free] at found
  have held : w.eng.memtable.active.contents.lookup key = some v := by
    cases present : w.eng.memtable.active.contents.lookup key with
    | none =>
        rw [present] at found
        cases found
    | some v' =>
        rw [present] at found
        cases found
        rfl
  obtain ⟨v', replayed, shows⟩ := covers key v held
  refine ⟨v', ?_, shows⟩
  rw [valid.get_eq, MemTable.versionsOf_none free, contents, same, replayed]
  rfl

end Covered

/-- **The log covers the memtable** in every run that syncs each write and in which no
batch freezes the memtable before its last operation. -/
theorem log_covers_memtable {env : Env} (reached : ReachedBy env SyncedLate (fun _ => True) w)
    (fits : FilesFit w.sys) : LogCovers w := by
  have both : Kept w ∧ Covered w := by
    refine reached.induct (P := fun w => Kept w ∧ Covered w) fits (fun opts e s run => ?_)
      (fun w request response w' resting _ fits keys meets run before => ?_)
      (fun w s opts e s' resting _ left fits _ run before => ?_)
    · have none : ∀ r ∈ ([] : List Record), r.Fits := by simp
      have empty : ((Sys.initial env).dir.lookup (.wal 1)).getD [] = encodeLog env.crc [] := rfl
      refine ⟨Kept.opened (fun id data present => ?_) (fun n _ => rfl) run,
        Covered.opened (fun n _ => rfl) empty none run⟩
      cases present
    · refine ⟨before.1.request resting keys fits.withinLimits run, ?_⟩
      rcases resting.ends_request_cases run with ⟨call, rfl, ran⟩ | observed
      · exact before.2.call resting before.1 meets keys fits.withinLimits ran
      · exact before.2.observed observed
    · exact ⟨before.1.reopened resting left fits run,
        before.2.reopened resting before.1 left fits run⟩
  exact both.2.logCovers (reached.resting fits) both.1 fits

/-- A batch that overwrites and deletes, and stays in the memtable. -/
theorem log_covers_memtable_batch :
    ∃ w, ReachedBy .steady SyncedLate (fun _ => True) w ∧ LogCovers w ∧
      w.eng.memtable.get [1] = .ok (some tombstone) := by
  let ops : List BatchOp := [.put [1] [7], .put [2] [8], .delete [1]]
  have passed : passes (openWithOptions {}) (Sys.initial .steady) (fun e s =>
      decide (e.opts.syncWal = true ∧ ¬ FreezesEarly ⟨e, s⟩ ops) &&
        passes (Call.writeBatch ⟨ops⟩).run ⟨e, s⟩ (fun _ w =>
          decide ((w.sys.journal.map FsOp.added).sum < 2 ^ 32) &&
            decide (w.eng.memtable.get [1] = .ok (some tombstone)))) = true := by
    decide +kernel
  obtain ⟨e, s, opened, rest⟩ := ends_of_passes passed
  obtain ⟨late, rest⟩ := Bool.and_eq_true_iff.mp rest
  obtain ⟨u, w, ran, rest⟩ := ends_of_passes rest
  obtain ⟨few, held⟩ := Bool.and_eq_true_iff.mp rest
  obtain ⟨synced, late⟩ := of_decide_eq_true late
  have meets : SyncedLate ⟨e, s⟩ (.write (.writeBatch ⟨ops⟩)) := by
    refine ⟨synced, ?_⟩
    rintro batch ⟨⟩
    exact late
  have reached : ReachedBy .steady SyncedLate (fun _ => True) w :=
    .served (.opened opened) (by unfold Request.KeysFit Call.KeysFit; decide) meets (ends_write ran)
  have fits := filesFit_of_added (of_decide_eq_true few)
  exact ⟨w, reached, log_covers_memtable reached fits, of_decide_eq_true held⟩

/-- With `sync_wal` the log covers the memtable in every reachable state. -/
def LogAlwaysCovers : Prop :=
  ∀ env w, ReachedBy env (fun w _ => w.eng.opts.syncWal = true) (fun _ => True) w →
    FilesFit w.sys → LogCovers w

/-- **A batch that freezes the memtable early**: its first operation fills the memtable, the
flush behind it truncates the log, and the second operation is in memory only. -/
theorem not_logAlwaysCovers : ¬ LogAlwaysCovers := by
  intro always
  have passed : passes (openWithOptions { memtableSize := 0 }) (Sys.initial .steady) (fun e s =>
      decide (e.opts.syncWal = true) &&
        passes (Call.writeBatch ⟨[.put [1] [7], .put [2] [8]]⟩).run ⟨e, s⟩ (fun _ w =>
          decide ((w.sys.journal.map FsOp.added).sum < 2 ^ 32) &&
            (decide (w.eng.memtable.get [2] = .ok (some [8])) &&
              passes (replayWal w.eng.wal.file.path 0) w.sys
                (fun m _ => decide (m.get [2] = .ok none))))) = true := by
    decide +kernel
  obtain ⟨e, s, opened, rest⟩ := ends_of_passes passed
  obtain ⟨synced, rest⟩ := Bool.and_eq_true_iff.mp rest
  obtain ⟨u, w, ran, rest⟩ := ends_of_passes rest
  obtain ⟨few, rest⟩ := Bool.and_eq_true_iff.mp rest
  obtain ⟨held, rest⟩ := Bool.and_eq_true_iff.mp rest
  obtain ⟨m, s', replayed, lost⟩ := ends_of_passes rest
  have reached : ReachedBy .steady (fun w _ => w.eng.opts.syncWal = true) (fun _ => True) w :=
    .served (.opened opened) (by unfold Request.KeysFit Call.KeysFit; decide)
      (of_decide_eq_true synced) (ends_write ran)
  have faultless : w.sys.env.Faultless := by
    rw [reached.env_eq]
    exact fun _ => rfl
  obtain ⟨m', s'', replayed', covers⟩ := always _ w reached
    (filesFit_of_added (of_decide_eq_true few)) w.sys rfl rfl faultless 0
  obtain ⟨rfl, -⟩ := replayed.unique replayed'
  obtain ⟨v, found, -⟩ := covers [2] [8] (of_decide_eq_true held)
  rw [of_decide_eq_true lost] at found
  cases found

end KvEngine
