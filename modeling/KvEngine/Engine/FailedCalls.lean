import KvEngine.Engine.FailedFlush
import KvEngine.Engine.Origins
import KvEngine.Engine.Success

/-!
# Calls that fail

A call returns `Err` when a file operation fails: while its records are logged, while the
frozen list is flushed, or in one of the compactions that follow.  What it leaves behind in
memory is the state before the step that failed or the one after it.
-/

namespace KvEngine

open Foundations

/-- The log, the counters and the changes of the directory do not matter to the invariant. -/
theorem Inv.frame {w w' : World} (inv : Inv w)
    (same : ∃ wal metrics nextSeq, w'.eng = { w.eng with wal, metrics, nextSeq })
    (history : w'.sys.dir = applyOps w'.sys.journal ∅) : Inv w' := by
  obtain ⟨wal, metrics, nextSeq, eng⟩ := same
  refine ⟨?_, ?_, ?_, ?_, ?_, history⟩
  · rw [eng]
    exact inv.tables
  · rw [eng]
    exact inv.listed
  · rw [eng]
    exact inv.apart
  · rw [eng]
    exact inv.memtable
  · rw [eng]
    exact inv.memKeys

namespace Engine

variable {w w₁ w' : World} {u : Unit} {k : KvError} {level : Nat}

/-! ## Runs that go on from where they were -/

/-- However a run ends, the directory is changed by further operations only. -/
abbrev GoesOn {α : Type} (x : EngineM α) : Prop :=
  Always (fun w w' : World => w.sys.Extends w'.sys) x

namespace GoesOn

variable {α β : Type}

theorem pure (a : α) : GoesOn (Pure.pure a : EngineM α) := always_pure (fun w => .refl w.sys) a

theorem bind {x : EngineM α} {f : α → EngineM β} (first : GoesOn x) (rest : ∀ a, GoesOn (f a)) :
    GoesOn (x >>= f) :=
  always_bind (R := fun w w' : World => w.sys.Extends w'.sys) Sys.Extends.trans first rest

theorem liftResult (r : Result α) : GoesOn (Foundations.liftResult r) :=
  always_liftResult (fun w => .refl w.sys) r

theorem self : GoesOn KvEngine.self :=
  bind (always_get fun w => .refl w.sys) fun _ => pure _

theorem modifySelf (f : Engine → Engine) : GoesOn (KvEngine.modifySelf f) :=
  always_modify fun w => .refl w.sys

theorem onSys {x : SysM α} (inner : Always Sys.Extends x) : GoesOn (KvEngine.onSys x) :=
  always_zoom inner fun _ _ goesOn => goesOn

theorem of_touches {P : FileName → Prop} {x : SysM α} (inner : Always (Sys.Touches P) x) :
    GoesOn (KvEngine.onSys x) :=
  .onSys ⟨fun s a s' ended => (inner.ends s a s' ended).goesOn,
    fun s e s' failed => (inner.fails s e s' failed).goesOn⟩

end GoesOn

theorem goesOn_takeSstId : GoesOn takeSstId :=
  .bind .self fun _ => .bind (.liftResult _) fun _ => .bind (.modifySelf _) fun _ => .pure _

theorem goesOn_mergeTables (ids : List Nat) (all : SortedMap Bytes Bytes) :
    GoesOn (mergeTables ids all) := by
  induction ids generalizing all with
  | nil => exact .pure _
  | cons id ids inductionHypothesis =>
      refine .bind .self fun e => ?_
      split
      · exact .bind (always_zoom (R := fun _ _ => True) ⟨fun _ _ _ _ => trivial,
          fun _ _ _ _ => trivial⟩ fun w _ _ => .refl w.sys) fun _ => inductionHypothesis _
      · exact inductionHypothesis _

theorem goesOn_retainVisible (entries : List (Bytes × Bytes)) :
    GoesOn (onSys (retainVisible entries)) := by
  refine .onSys (Advances.always (advances_retainVisible entries) fun s e s' failed => ?_)
  induction entries generalizing s with
  | nil => exact fails_pure.mp failed
  | cons b entries inductionHypothesis =>
      rcases fails_bind.mp failed with looked | ⟨keep, s₁, -, failed⟩
      · obtain ⟨n, run⟩ := isVisible_run s false b.2
        exact (show Ends _ s _ _ from run).not_fails looked
      rcases fails_bind.mp failed with later | ⟨rest, s₂, -, never⟩
      · exact inductionHypothesis _ later
      · exact fails_pure.mp never

theorem goesOn_writeSst (id : Nat) (entries : List (Bytes × Bytes)) : GoesOn (writeSst id entries) :=
  .bind .self fun _ => .of_touches (SSTableBuilder.touches_build (P := fun _ => True) trivial _ _)

theorem goesOn_installMerged (level : Nat) (entries : List (Bytes × Bytes)) :
    GoesOn (installMerged level entries) :=
  .bind goesOn_takeSstId fun _ => .bind (goesOn_writeSst _ _) fun _ => .bind (.liftResult _) fun _ =>
    .bind (.of_touches (touches_openWithCache (P := fun _ => True) _ _)) fun _ =>
      .bind (.modifySelf _) fun _ => .bind .self fun _ => .bind (.liftResult _) fun _ =>
        .modifySelf _

theorem goesOn_removeTables (ids : List Nat) : GoesOn (removeTables ids) := by
  induction ids with
  | nil => exact .pure _
  | cons id ids inductionHypothesis =>
      refine .bind (.modifySelf _) fun _ => .bind (.onSys ?_) fun _ => inductionHypothesis
      refine Advances.always (fun s u s' ended => ?_) fun s e s' => fails_ignoring.mp
      rcases ends_ignoring_removeFile ended with did | did
      · exact ⟨_, did⟩
      · exact ⟨_, did⟩

theorem goesOn_saveManifest : GoesOn saveManifest :=
  .bind .self fun _ => .of_touches (touches_save (P := fun _ => True) _ trivial)

theorem goesOn_finishCompaction (ids : List Nat) : GoesOn (finishCompaction ids) :=
  .bind (goesOn_removeTables ids) fun _ => .bind goesOn_saveManifest fun _ => .modifySelf _

theorem goesOn_compactLevel (level : Nat) : GoesOn (compactLevel level) := by
  refine .bind .self fun _ => .bind (.liftResult _) fun _ => .bind (goesOn_mergeTables _ _)
    fun _ => .bind (goesOn_retainVisible _) fun _ => ?_
  dsimp only
  split
  · exact goesOn_finishCompaction _
  · exact .bind (goesOn_installMerged _ _) fun _ => goesOn_finishCompaction _

theorem goesOn_compactFrom (n level : Nat) : GoesOn (compactFrom n level) := by
  induction n generalizing level with
  | zero => exact .pure _
  | succ n inductionHypothesis =>
      refine .bind (.bind .self fun _ => .bind (.liftResult _) fun _ => ?_) fun _ =>
        inductionHypothesis _
      split
      · exact .pure _
      · exact goesOn_compactLevel _

theorem goesOn_resetWal : GoesOn resetWal := by
  have openWal : Always (Sys.Touches fun _ => True) (WALWriter.openWal (.wal 1)) :=
    touches_bind (touches_openAppend trivial) fun _ => always_pure .refl _
  refine .bind (.of_touches (touches_createTruncate (P := fun _ => True) trivial)) fun _ =>
    .bind (.of_touches openWal) fun _ => always_modify fun w => ?_
  obtain ⟨ops, did, -⟩ := BufWriter.drop_did w.eng.wal.file w.sys
  exact ⟨ops, did⟩

theorem goesOn_flushEntries (sstId : Nat) (entries : List (Bytes × Bytes)) :
    GoesOn (flushEntries sstId entries) :=
  .bind (goesOn_writeSst _ _) fun _ => .bind (.liftResult _) fun _ =>
    .bind (.of_touches (touches_openWithCache (P := fun _ => True) _ _)) fun _ =>
      .bind (.modifySelf _) fun _ => .bind goesOn_saveManifest fun _ =>
        .bind goesOn_resetWal fun _ => .modifySelf _

theorem goesOn_maybeFlush : GoesOn maybeFlush := by
  refine .bind .self fun e => ?_
  split
  · exact .pure _
  · refine .bind (.modifySelf _) fun _ => .bind goesOn_takeSstId fun _ => .bind (.liftResult _)
      fun _ => ?_
    split
    · exact .pure _
    · exact .bind (goesOn_flushEntries _ _) fun _ => .bind .self fun _ => goesOn_compactFrom _ _

theorem goesOn_onlyLogs {α : Type} {x : EngineM α} (logs : Always OnlyLogs x) : GoesOn x :=
  ⟨fun w a w' ended => (logs.ends w a w' ended).2.2.goesOn,
    fun w e w' failed => (logs.fails w e w' failed).2.2.goesOn⟩

theorem goesOn_takeSeq : GoesOn takeSeq :=
  .bind .self fun _ => .bind (.liftResult _) fun _ => .bind (.modifySelf _) fun _ => .pure _

theorem goesOn_memtablePut (key value : Bytes) : GoesOn (memtablePut key value) := by
  refine .bind .self fun _ => .bind (.onSys ?_) fun _ => .bind (.liftResult _) fun _ => .modifySelf _
  exact Advances.always (fun s n s' ended => ⟨_, ends_drawTrailing ended⟩) nofun

theorem goesOn_logAndApply (record : Record) (count : Metrics → Metrics) :
    GoesOn (logAndApply record count) :=
  .bind (goesOn_onlyLogs (onlyLogs_appendRecord _)) fun _ =>
    .bind (goesOn_onlyLogs onlyLogs_syncWal) fun _ => .bind (goesOn_memtablePut _ _) fun _ =>
      .modifySelf _

theorem goesOn_applyBatch (ops : List BatchOp) : GoesOn (applyBatch ops) := by
  induction ops with
  | nil => exact .pure _
  | cons op ops inductionHypothesis => exact .bind (goesOn_memtablePut _ _) fun _ => inductionHypothesis

theorem goesOn_call (call : Call) : GoesOn call.run := by
  cases call with
  | put key value =>
      exact .bind (.bind goesOn_takeSeq fun _ => goesOn_logAndApply _ _) fun _ => goesOn_maybeFlush
  | delete key =>
      exact .bind (.bind goesOn_takeSeq fun _ => goesOn_logAndApply _ _) fun _ => goesOn_maybeFlush
  | putWithTtl key value ttl =>
      refine .bind (.bind (.onSys ?_) fun _ => .bind (.liftResult _) fun _ =>
        .bind goesOn_takeSeq fun _ => goesOn_logAndApply _ _) fun _ => goesOn_maybeFlush
      exact Advances.always (fun s n s' ended => ⟨_, (ends_now ended).2⟩) nofun
  | writeBatch batch =>
      show GoesOn (if batch.isEmpty then _ else _)
      split
      · exact .pure _
      · exact .bind (.bind (goesOn_onlyLogs (onlyLogs_logBatch _)) fun _ =>
          .bind (goesOn_onlyLogs onlyLogs_walFlush) fun _ => goesOn_applyBatch _) fun _ =>
            goesOn_maybeFlush

/-! ## Flushes -/

/-- A new table with these entries gets written and opened. -/
def TableOpens (sstId : Nat) (entries : List (Bytes × Bytes)) (w : World) : Prop :=
  ∃ w₁ r w₂, Ends (writeSst sstId entries) w () w₁ ∧
    Ends (onSys (SSTableReader.openWithCache (.sst sstId) sstId)) w₁ r w₂

/-- What a flush that fails leaves behind. -/
inductive FailedFlush (w : World) (map : SortedMap Bytes Bytes) (w' : World) : Prop
  /-- The new table is not open; an id is used up. -/
  | early (unopened : ∀ sstId w₁, Ends takeSstId w sstId w₁ → ¬ TableOpens sstId map.entries w₁)
      (eng : w'.eng = { w.eng with nextSstId := w.eng.nextSstId + 1 })
      (touches : w.sys.Touches (· = .sst w.eng.nextSstId) w'.sys)
      (room : w.eng.nextSstId + 1 < u64Limit)
  /-- All is done but the manifest is not saved, or the log is not emptied. -/
  | late {p : Table} {done : World} {s : Sys} (flush : Flush w p done) (holds : p.map = map)
      (opened : ∃ sstId w₁, Ends takeSstId w sstId w₁ ∧ TableOpens sstId map.entries w₁)
      (eng : ∃ metrics, w'.eng = { done.eng with wal := w.eng.wal, metrics })
      (built : Built w.sys p s)
      (touches : s.Touches (fun f => f = .manifest ∨ f = .wal 1) w'.sys)
      (room : w.eng.nextSstId + 1 < u64Limit)

/-- **A flush that fails** stops before or after the new table is open. -/
theorem fails_flushEntries {map : SortedMap Bytes Bytes} {sstId : Nat}
    (keys : ∀ b ∈ map.entries, b.1.length < 2 ^ 16)
    (history : w.sys.dir = applyOps w.sys.journal ∅) (limits : WithinLimits w'.sys)
    (took : Ends takeSstId w sstId w₁)
    (failed : Fails (flushEntries sstId map.entries) w₁ (.err k) w') : FailedFlush w map w' := by
  have took' := took
  obtain ⟨rfl, rfl, room⟩ := ends_takeSstId took
  rcases fails_newTable failed with
    ⟨same, touches, unopened⟩ | ⟨sst, r, w₂, w₃, wrote, isMeta, opened, failed⟩
  · refine .early (fun sstId w₁ takes => ?_) (congrArg World.eng same) touches room
    obtain ⟨rfl, rfl⟩ := took'.unique takes
    rintro ⟨w₂, r, w₃, wrote, opens⟩
    exact unopened w₂ r w₃ wrote opens
  -- the table is open: what has failed comes after it
  have later : w₃.sys.Touches (fun f => f = .manifest ∨ f = .wal 1) w'.sys ∧
      w'.eng = { w₃.eng with
        manifest := w₃.eng.manifest.addSst 0 sst
        sstReaders := w₃.eng.sstReaders ++ [(sst, r)] } := by
    rcases fails_bind.mp failed with never | ⟨v, w₄, pushed, failed⟩
    · exact absurd never fails_modify.mp
    obtain rfl := ends_modifySelf.mp pushed
    rcases fails_bind.mp failed with saving | ⟨v', w₅, saved, failed⟩
    · obtain ⟨same, touches⟩ := fails_saveManifest saving
      exact ⟨touches.mono fun f => Or.inl, congrArg World.eng same⟩
    obtain ⟨didSave, same₅⟩ := ends_saveManifest saved
    rcases fails_bind.mp failed with resetting | ⟨v'', w₆, -, never⟩
    · obtain ⟨same, touches⟩ := fails_resetWal resetting
      refine ⟨Sys.Touches.trans (.of_did didSave ?_) (touches.mono fun f => Or.inr), ?_⟩
      · simp [manifestOps, FsOp.file]
      · rw [same, same₅]
    · exact absurd never fails_modify.mp
  obtain ⟨touches, eng⟩ := later
  obtain ⟨described, holds, id, level, built, same⟩ :=
    ends_newTable wrote isMeta opened history (limits.of_extends touches.goesOn) keys
  obtain ⟨s₂, saved⟩ := exists_did w₃.sys (manifestOps (w.eng.manifest.addSst 0 sst))
  obtain ⟨s₃, reset⟩ := exists_did s₂
    [.truncate (.wal 1), .append w.eng.wal.file.path w.eng.wal.file.buf]
  let done : World :=
    ⟨{ w.eng with
        nextSstId := w.eng.nextSstId + 1
        manifest := w.eng.manifest.addSst 0 sst
        sstReaders := w.eng.sstReaders ++ [(sst, r)]
        wal := freshWal }, s₃⟩
  have flush : Flush w (sst, r) done := ⟨described, id, level, ⟨w.eng.metrics, rfl⟩, w₃.sys, s₂, _,
    built, saved, reset, Or.inr ⟨w.eng.wal.file.buf, rfl, List.prefix_refl _, fun _ => rfl⟩⟩
  refine .late flush holds ⟨_, _, took', w₂, r, w₃, wrote, opened⟩ ⟨w.eng.metrics, ?_⟩ built touches
    room
  rw [eng, same]

namespace FailedFlush

variable {map : SortedMap Bytes Bytes}

theorem goesOn (failed : FailedFlush w map w') : w.sys.Extends w'.sys := by
  cases failed with
  | early _ _ touches => exact touches.goesOn
  | late _ _ _ _ built touches =>
      obtain ⟨ops, did, -⟩ := built.writes
      exact Sys.Extends.trans ⟨_, did⟩ touches.goesOn

theorem memtable_eq (failed : FailedFlush w map w') : w'.eng.memtable = w.eng.memtable := by
  cases failed with
  | early _ eng => rw [eng]
  | late flush _ _ eng =>
      obtain ⟨metrics, engDone⟩ := flush.eng
      obtain ⟨metrics', eng⟩ := eng
      rw [eng, engDone]

theorem ids (failed : FailedFlush w map w') : w'.eng.nextSstId < u64Limit := by
  cases failed with
  | early _ eng _ room =>
      rw [eng]
      exact room
  | late flush _ _ eng _ _ room =>
      obtain ⟨metrics, engDone⟩ := flush.eng
      obtain ⟨metrics', eng⟩ := eng
      rw [eng, engDone]
      exact room

/-- The files of the open tables survive a flush that fails. -/
theorem onDisk (failed : FailedFlush w map w') (inv : Inv w) (onDisk : OnDisk w) : OnDisk w' := by
  cases failed with
  | early _ eng touches =>
      refine ⟨fun p hp => ?_, by rw [eng]; exact onDisk.log⟩
      rw [eng] at hp
      rw [touches.lookup_eq (by simpa using (inv.tables.fresh p hp).ne)]
      exact onDisk.files p hp
  | late flush _ _ eng built touches =>
      obtain ⟨metrics, engDone⟩ := flush.eng
      obtain ⟨metrics', eng⟩ := eng
      rw [engDone] at eng
      refine ⟨fun p hp => ?_, by rw [eng]; exact onDisk.log⟩
      rw [eng] at hp
      rw [touches.lookup_eq (by simp)]
      exact onDisk.built inv flush.id built p hp

/-- **The invariant survives a flush that fails.** -/
theorem inv (failed : FailedFlush w map w') (inv : Inv w) : Inv w' := by
  obtain ⟨ops, did⟩ := failed.goesOn
  have history := did.history inv.history
  cases failed with
  | early _ eng =>
      have skipped : Inv ⟨{ w.eng with nextSstId := w.eng.nextSstId + 1 }, w.sys⟩ :=
        { inv with tables := inv.tables.skip }
      exact skipped.frame ⟨w.eng.wal, w.eng.metrics, w.eng.nextSeq, eng⟩ history
  | late flush _ _ eng =>
      obtain ⟨metrics, eng⟩ := eng
      exact (flush.inv inv).frame ⟨w.eng.wal, metrics, _, eng⟩ history

end FailedFlush

/-! ## Flushes with their compactions -/

/-- A frozen list is not flushed, or one of the compactions that follow fails. -/
theorem fails_flushImmutable {imm : SkipList} (valid : imm.Valid)
    (nonempty : imm.contents.entries ≠ []) (failed : Fails (flushImmutable imm) w (.err k) w') :
    ∃ id w₁, Ends takeSstId w id w₁ ∧
      (Fails (flushEntries id imm.contents.entries) w₁ (.err k) w' ∨
        ∃ w₂, Ends (flushEntries id imm.contents.entries) w₁ () w₂ ∧
          Fails maybeCompact w₂ (.err k) w') := by
  rcases fails_bind.mp failed with never | ⟨id, w₁, took, failed⟩
  · exact absurd never takeSstId_notErr
  have isList : Ends (liftResult imm.iter) w₁ imm.contents.entries w₁ :=
    ends_liftResult.mpr ⟨valid.iter_eq, rfl⟩
  rcases fails_bind.mp failed with never | ⟨entries, w₂, listed, failed⟩
  · exact absurd never isList.not_fails
  obtain ⟨rfl, rfl⟩ := isList.unique listed
  rw [if_neg (by simpa using nonempty)] at failed
  rcases fails_bind.mp failed with flushing | ⟨u, w₂, flushed, compacting⟩
  · exact ⟨id, w₁, took, Or.inl flushing⟩
  · exact ⟨id, w₁, took, Or.inr ⟨w₂, flushed, compacting⟩⟩

/-- The levels are compacted up to one of which the compaction fails. -/
theorem fails_maybeCompact (failed : Fails maybeCompact w (.err k) w') :
    ∃ level w₁, Ends (compactFrom level 0) w () w₁ ∧ level < w₁.eng.opts.maxLevels - 1 ∧
      Full w₁.eng level ∧ Fails (compactLevel level) w₁ (.err k) w' := by
  rcases fails_bind.mp failed with never | ⟨e, w₁, this, failed⟩
  · exact absurd never (self_run w).not_fails
  obtain ⟨rfl, rfl⟩ := ends_self.mp this
  obtain ⟨level, within, w₂, before, failing⟩ := fails_compactFrom failed
  rw [Nat.zero_add] at failing
  obtain ⟨full, failing⟩ := fails_compactIfFull failing
  rw [← (extending_compactFrom _ _ _ _ _ before).opts] at within
  exact ⟨level, w₂, before, within, full, failing⟩

/-- What is left when a frozen list could not be flushed, or a level not be compacted after
that. -/
inductive FailedFlushing (w : World) (imm : SkipList) (w' : World) : Prop
  | flush (failed : FailedFlush (thawed w) imm.contents w') : FailedFlushing w imm w'
  | compaction {p : Table} {level : Nat} {w₁ w₂ : World} (flush : Flush (thawed w) p w₁)
      (holds : p.map = imm.contents) (compactions : Compactions w₁ w₂)
      (ids : w₂.eng.nextSstId < u64Limit) (failed : FailedCompaction w₂ level w') :
      FailedFlushing w imm w'

/-- Where `maybeFlush` fails: the frozen list is not flushed, or a level is not compacted. -/
theorem fails_maybeFlush_steps (valid : w.eng.memtable.Valid)
    (failed : Fails maybeFlush w (.err k) w') :
    ∃ imm id w₁, w.eng.memtable.immutable = some imm ∧ Ends takeSstId (thawed w) id w₁ ∧
      (Fails (flushEntries id imm.contents.entries) w₁ (.err k) w' ∨
        ∃ w₂ level w₃, Ends (flushEntries id imm.contents.entries) w₁ () w₂ ∧
          Ends (compactFrom level 0) w₂ () w₃ ∧ level < w₃.eng.opts.maxLevels - 1 ∧
          Full w₃.eng level ∧ Fails (compactLevel level) w₃ (.err k) w') := by
  rcases fails_bind.mp failed with never | ⟨e, w₁, this, failed⟩
  · exact absurd never (self_run w).not_fails
  obtain ⟨rfl, rfl⟩ := ends_self.mp this
  cases frozen : w₁.eng.memtable.immutable with
  | none =>
      simp only [MemTable.takeImmutable, frozen] at failed
      exact absurd failed fails_pure.mp
  | some imm =>
      simp only [MemTable.takeImmutable, frozen] at failed
      rcases fails_bind.mp failed with never | ⟨v, w₂, thaws, failed⟩
      · exact absurd never fails_modify.mp
      obtain rfl := ends_modifySelf.mp thaws
      change Fails (flushImmutable imm) (thawed w₁) (.err k) w' at failed
      obtain ⟨id, w₂, took, flushing | ⟨w₃, flushed, compacting⟩⟩ :=
        fails_flushImmutable (valid.immutable imm frozen) (valid.frozen imm frozen) failed
      · exact ⟨imm, id, w₂, rfl, took, Or.inl flushing⟩
      · obtain ⟨level, w₄, steps⟩ := fails_maybeCompact compacting
        exact ⟨imm, id, w₂, rfl, took, Or.inr ⟨w₃, level, w₄, flushed, steps⟩⟩

/-- **What a flush with its compactions leaves** when one of them fails. -/
theorem fails_maybeFlush (inv : Inv w) (limits : WithinLimits w'.sys)
    (failed : Fails maybeFlush w (.err k) w') :
    ∃ imm, w.eng.memtable.immutable = some imm ∧ FailedFlushing w imm w' := by
  obtain ⟨imm, id, w₁, frozen, took, rest⟩ := fails_maybeFlush_steps inv.memtable failed
  have keys := inv.memKeys imm.contents (by simp [MemTable.layers, frozen])
  rcases rest with flushing | ⟨w₂, level, w₃, flushed, before, -, -, failing⟩
  · exact ⟨imm, frozen, .flush (fails_flushEntries keys inv.history limits took flushing)⟩
  · have limits₃ := limits.of_extends ((goesOn_compactLevel _).fails _ _ _ failing)
    have limits₂ := limits₃.of_extends (extending_compactFrom _ _ _ _ _ before).sys
    obtain ⟨p, flush, map⟩ :=
      ends_flushEntries (w := thawed w) keys inv.history limits₂ took flushed
    have inv₂ : Inv w₂ := Flush.inv (w := thawed w) flush (inv_thawed inv)
    have compactions := compactions_of_compactFrom inv₂ limits₃ before
    obtain ⟨-, rfl, room⟩ := ends_takeSstId took
    have ids := keepsIds_compactFrom _ _ _ _ _ before (keepsIds_flushEntries _ _ _ _ _ flushed room)
    exact ⟨imm, frozen, .compaction flush map compactions ids
      (fails_compactLevel_cases (compactions.inv inv₂) limits failing)⟩

namespace FailedFlushing

variable {imm : SkipList}

theorem inv (failed : FailedFlushing w imm w') (inv : Inv w) : Inv w' := by
  cases failed with
  | flush failed => exact failed.inv (inv_thawed inv)
  | compaction flush _ compactions _ failed =>
      exact failed.inv (compactions.inv (Flush.inv (w := thawed w) flush (inv_thawed inv)))

theorem onDisk (failed : FailedFlushing w imm w') (inv : Inv w) (onDisk : OnDisk w) :
    OnDisk w' := by
  have invThawed := inv_thawed inv
  have thawed := onDisk_thawed onDisk
  cases failed with
  | flush failed => exact failed.onDisk invThawed thawed
  | compaction flush _ compactions _ failed =>
      have invFlushed := flush.inv invThawed
      exact failed.onDisk (compactions.inv invFlushed)
        (compactions.stored (flush.stored invThawed thawed)).onDisk

theorem ids (failed : FailedFlushing w imm w') : w'.eng.nextSstId < u64Limit := by
  cases failed with
  | flush failed => exact failed.ids
  | compaction _ _ _ ids failed => exact failed.ids ids

/-- The frozen list is gone, whatever became of it. -/
theorem memtable_eq (failed : FailedFlushing w imm w') : w'.eng.memtable = (thawed w).eng.memtable := by
  cases failed with
  | flush failed => exact failed.memtable_eq
  | compaction flush _ compactions _ failed =>
      obtain ⟨metrics, eng⟩ := flush.eng
      rw [failed.kept.1, compactions.kept.1, eng]

end FailedFlushing

/-! ## What a call stores -/

/-- A record that is not logged is not applied. -/
theorem fails_logAndApply (valid : w.eng.memtable.Valid) {record : Record}
    {count : Metrics → Metrics} (failed : Fails (logAndApply record count) w (.err k) w') :
    OnlyLogs w w' := by
  rcases fails_bind.mp failed with appending | ⟨u, w₁, appended, failed⟩
  · exact (onlyLogs_appendRecord record).fails _ _ _ appending
  have first := (onlyLogs_appendRecord record).ends _ _ _ appended
  rcases fails_bind.mp failed with syncing | ⟨u, w₂, synced, failed⟩
  · exact first.trans (onlyLogs_syncWal.fails _ _ _ syncing)
  obtain ⟨⟨wal, eng⟩, -⟩ := first.trans (onlyLogs_syncWal.ends _ _ _ synced)
  -- the record is logged: applying it does not fail
  obtain ⟨w₃, put⟩ := memtablePut_run (w := w₂) (by rw [eng]; exact valid) record.key record.value
  rcases fails_bind.mp failed with never | ⟨u, w₄, -, never⟩
  · exact absurd never put.not_fails
  · exact absurd never fails_modify.mp

/-- What is left of a call that could not be logged. -/
structure Unlogged (w w' : World) : Prop where
  eng : ∃ wal nextSeq, w'.eng = { w.eng with wal, nextSeq }
  path : w'.eng.wal.file.path = w.eng.wal.file.path
  touches : w.sys.Touches (· = w.eng.wal.file.path) w'.sys

theorem OnlyLogs.unlogged (logs : OnlyLogs w w') : Unlogged w w' := by
  obtain ⟨⟨wal, eng⟩, path, touches⟩ := logs
  exact ⟨⟨wal, w.eng.nextSeq, eng⟩, path, touches⟩

/-- A sequence number is taken, and then the record is not logged. -/
theorem fails_numbered (valid : w.eng.memtable.Valid) {record : Nat → Record}
    {count : Metrics → Metrics}
    (failed : Fails (do let seq ← takeSeq; logAndApply (record seq) count) w (.err k) w') :
    Unlogged w w' := by
  rcases fails_bind.mp failed with never | ⟨seq, w₁, took, failed⟩
  · rcases fails_bind.mp never with never | ⟨e, w₁, -, never⟩
    · exact absurd never (self_run w).not_fails
    rcases fails_bind.mp never with never | ⟨next, w₂, -, never⟩
    · exact absurd (fails_liftResult.mp never).1 (Result.NotErr.checkedAdd _ _ _ k)
    rcases fails_bind.mp never with never | ⟨u, w₃, -, never⟩
    · exact absurd never fails_modify.mp
    · exact absurd never fails_pure.mp
  · obtain ⟨rfl, -, rfl⟩ := ends_takeSeq took
    obtain ⟨⟨wal, eng⟩, path, touches⟩ := fails_logAndApply
      (w := ⟨{ w.eng with nextSeq := w.eng.nextSeq + 1 }, w.sys⟩) valid failed
    exact ⟨⟨wal, w.eng.nextSeq + 1, eng⟩, path, touches⟩

/-- **A call that could not be stored** leaves the memtable and the tables as they were. -/
theorem fails_store (valid : w.eng.memtable.Valid) {call : Call}
    (failed : Fails call.store w (.err k) w') : Unlogged w w' := by
  cases call with
  | put key value => exact fails_numbered valid failed
  | delete key => exact fails_numbered valid failed
  | putWithTtl key value ttl =>
      have read : Ends (onSys now) w w.sys.time ⟨w.eng, w.sys.later 1⟩ :=
        ends_onSys.mpr ⟨_, now_run _, rfl⟩
      rcases fails_bind.mp failed with never | ⟨t, w₁, looked, failed⟩
      · exact absurd never read.not_fails
      obtain ⟨rfl, rfl⟩ := read.unique looked
      rcases fails_bind.mp failed with never | ⟨expiry, w₂, fits, failed⟩
      · exact absurd (fails_liftResult.mp never).1 (Result.NotErr.checkedAdd _ _ _ k)
      obtain ⟨-, rfl⟩ := ends_liftResult.mp fits
      obtain ⟨⟨wal, nextSeq, eng⟩, path, touches⟩ :=
        fails_numbered (w := ⟨w.eng, w.sys.later 1⟩) valid failed
      exact ⟨⟨wal, nextSeq, eng⟩, path, (Sys.Touches.of_waiting (w.sys.did_later 1)).trans touches⟩
  | writeBatch batch =>
      change Fails (if batch.isEmpty then pure () else storeBatch batch.ops) w (.err k) w' at failed
      split at failed
      · exact absurd failed fails_pure.mp
      rcases fails_bind.mp failed with logging | ⟨u, w₁, logged, failed⟩
      · exact OnlyLogs.unlogged ((onlyLogs_logBatch batch.ops).fails _ _ _ logging)
      have first := (onlyLogs_logBatch batch.ops).ends _ _ _ logged
      rcases fails_bind.mp failed with flushing | ⟨u, w₂, flushed, never⟩
      · exact OnlyLogs.unlogged (first.trans (onlyLogs_walFlush.fails _ _ _ flushing))
      obtain ⟨⟨wal, eng⟩, -⟩ := first.trans (onlyLogs_walFlush.ends _ _ _ flushed)
      obtain ⟨w₃, applied⟩ := applyBatch_run (w := w₂) (by rw [eng]; exact valid) batch.ops
      exact absurd never applied.not_fails

theorem Unlogged.inv (unlogged : Unlogged w w') (inv : Inv w) : Inv w' := by
  obtain ⟨wal, nextSeq, eng⟩ := unlogged.eng
  obtain ⟨ops, did⟩ := unlogged.touches.goesOn
  exact inv.frame ⟨wal, w.eng.metrics, nextSeq, eng⟩ (did.history inv.history)

theorem Unlogged.onDisk (unlogged : Unlogged w w') (onDisk : OnDisk w) : OnDisk w' := by
  obtain ⟨wal, nextSeq, eng⟩ := unlogged.eng
  obtain ⟨ops, did, only⟩ := unlogged.touches
  obtain ⟨n, isLog⟩ := onDisk.log
  exact onDisk.frame (by rw [eng]) unlogged.path did fun op member => ⟨n, (only op member).trans isLog⟩

/-- **A call that fails** is not stored, or fails in the flush at its end. -/
theorem fails_call {call : Call} (failed : Fails call.run w (.err k) w') :
    Fails call.store w (.err k) w' ∨
      ∃ w₁, Ends call.store w () w₁ ∧ Fails maybeFlush w₁ (.err k) w' := by
  cases call with
  | writeBatch batch =>
      simp only [Call.run, writeBatch] at failed
      simp only [Call.store]
      split at failed
      · exact absurd failed fails_pure.mp
      · next nonempty =>
          simp only [if_neg nonempty]
          rcases fails_bind.mp failed with storing | ⟨u, w₁, stored, flushing⟩
          · exact Or.inl storing
          · exact Or.inr ⟨w₁, stored, flushing⟩
  | _ =>
      rcases fails_bind.mp failed with storing | ⟨u, w₁, stored, flushing⟩
      · exact Or.inl storing
      · exact Or.inr ⟨w₁, stored, flushing⟩

/-! ## Where entries come from -/

section Entries

variable {P : Bytes × Bytes → Prop}

theorem FailedCompaction.everyEntry (failed : FailedCompaction w level w')
    (every : EveryEntry P w.eng) : EveryEntry P w'.eng := by
  cases failed with
  | early eng =>
      rw [eng]
      exact ⟨every.memtable, every.tables⟩
  | late compaction eng =>
      have done := compaction.everyEntry every
      rw [eng]
      exact ⟨done.memtable, done.tables⟩

theorem FailedFlushing.everyEntry {imm : SkipList} (failed : FailedFlushing w imm w')
    (frozen : w.eng.memtable.immutable = some imm) (every : EveryEntry P w.eng) :
    EveryEntry P w'.eng := by
  cases failed with
  | flush failed =>
      cases failed with
      | early _ eng =>
          have left := thawed_everyEntry every
          rw [eng]
          exact ⟨left.memtable, left.tables⟩
      | late flush holds _ eng =>
          have done := flush.everyEntry_thawed frozen holds every
          obtain ⟨metrics, eng⟩ := eng
          rw [eng]
          exact ⟨done.memtable, done.tables⟩
  | compaction flush holds compactions _ failed =>
      exact failed.everyEntry (compactions.everyEntry (flush.everyEntry_thawed frozen holds every))

end Entries

end Engine

end KvEngine
