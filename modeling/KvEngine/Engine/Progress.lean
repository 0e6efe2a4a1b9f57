import KvEngine.Engine.Read
import KvEngine.Engine.Write
import KvEngine.Engine.Values
import KvEngine.Sstable.BuilderSpec

/-!
# No method takes anything back

`World.Extends w w'` says that the journal of `w'` continues the one of `w`, that
the clock went on, and that environment and options stayed the same.  Every
method of the engine extends the world, whatever state it is called in.
-/

namespace KvEngine

open Foundations

/-- The journal goes on and the environment stays. -/
def Sys.Extends (s s' : Sys) : Prop := ∃ ops, s.Did ops s'

theorem Sys.Extends.env {s s' : Sys} (goesOn : s.Extends s') : s'.env = s.env := by
  obtain ⟨ops, did⟩ := goesOn
  exact did.env

theorem Sys.Extends.ticks_le {s s' : Sys} (goesOn : s.Extends s') : s.ticks ≤ s'.ticks := by
  obtain ⟨ops, did⟩ := goesOn
  exact did.ticks

/-- A clock that stands still goes on standing still. -/
theorem Sys.ClockAt.of_extends {s s' : Sys} {t : Nat} (still : s.ClockAt t)
    (goesOn : s.Extends s') : s'.ClockAt t := by
  obtain ⟨ops, did⟩ := goesOn
  intro n notBefore
  rw [did.env]
  exact still n (did.ticks.trans notBefore)

/-- The outside world goes on and the options stay. -/
structure World.Extends (w w' : World) : Prop where
  sys : w.sys.Extends w'.sys
  opts : w'.eng.opts = w.eng.opts

theorem Sys.Extends.refl (s : Sys) : s.Extends s := ⟨[], .refl s⟩

theorem Sys.Extends.trans {s s' s'' : Sys} (h₁ : s.Extends s') (h₂ : s'.Extends s'') :
    s.Extends s'' := by
  obtain ⟨ops₁, did₁⟩ := h₁
  obtain ⟨ops₂, did₂⟩ := h₂
  exact ⟨_, did₁.trans did₂⟩

theorem Sys.Extends.bind {α β : Type} {x : SysM α} {f : α → SysM β}
    (first : Advances Sys.Extends x) (rest : ∀ a, Advances Sys.Extends (f a)) :
    Advances Sys.Extends (x >>= f) :=
  advances_bind .trans first rest

theorem World.Extends.refl (w : World) : w.Extends w := ⟨.refl w.sys, rfl⟩

theorem World.Extends.trans {w w' w'' : World} (h₁ : w.Extends w') (h₂ : w'.Extends w'') :
    w.Extends w'' := ⟨h₁.sys.trans h₂.sys, h₂.opts.trans h₁.opts⟩

/-- Every run of the method extends the world. -/
abbrev Extending {α : Type} (x : EngineM α) : Prop := Advances World.Extends x

namespace Extending

variable {α β : Type}

theorem pure (a : α) : Extending (Pure.pure a : EngineM α) := advances_pure .refl a

theorem bind {x : EngineM α} {f : α → EngineM β} (first : Extending x)
    (rest : ∀ a, Extending (f a)) : Extending (x >>= f) :=
  advances_bind .trans first rest

theorem liftResult (r : Result α) : Extending (Foundations.liftResult r) :=
  advances_liftResult .refl r

theorem onSys {x : SysM α} (inner : Advances Sys.Extends x) : Extending (KvEngine.onSys x) :=
  advances_zoom inner fun _ _ extends_ => ⟨extends_, rfl⟩

theorem onCache (x : CacheM α) : Extending (KvEngine.onCache x) := by
  intro w a w' run
  obtain ⟨c, -, rfl⟩ := ends_zoom.mp run
  exact ⟨.refl _, rfl⟩

theorem onWal {x : WALWriter.M α} (inner : Advances (fun p p' => p.2.Extends p'.2) x) :
    Extending (KvEngine.onWal x) :=
  advances_zoom inner fun _ _ extends_ => ⟨extends_, rfl⟩

theorem self : Extending KvEngine.self := by
  intro w e w' run
  simp only [KvEngine.self, ends_bind, ends_get, ends_pure] at run
  obtain ⟨a, w₁, ⟨rfl, rfl⟩, -, rfl⟩ := run
  exact .refl _

theorem modifySelf {f : Engine → Engine} (keeps : ∀ e, (f e).opts = e.opts) :
    Extending (KvEngine.modifySelf f) := by
  intro w u w' run
  rw [KvEngine.modifySelf, ends_modify] at run
  subst run
  exact ⟨.refl _, keeps w.eng⟩

end Extending

/-! ## The outside world -/

section Outside

theorem advances_createTruncate (f : FileName) : Advances Sys.Extends (createTruncate f) :=
  fun _ _ _ run => ⟨_, ends_createTruncate run⟩

theorem advances_openWal (f : FileName) : Advances Sys.Extends (WALWriter.openWal f) := by
  intro s w s' run
  simp only [WALWriter.openWal, ends_bind, ends_pure] at run
  obtain ⟨u, s₁, opened, -, rfl⟩ := run
  rcases ends_openAppend opened with ⟨-, did⟩ | ⟨-, did⟩
  · exact ⟨_, did⟩
  · exact ⟨_, did⟩

theorem advances_save (m : Manifest) (f : FileName) : Advances Sys.Extends (m.save f) := by
  refine Sys.Extends.bind (advances_createTruncate f) fun _ => ?_
  refine Sys.Extends.bind (fun _ _ _ run => ⟨_, ends_writeFile run⟩) fun _ => ?_
  exact fun _ _ _ run => ⟨_, ends_syncFile run⟩

theorem advances_build (path : FileName) (blockSize : Nat) (entries : List (Bytes × Bytes)) :
    Advances Sys.Extends (SSTableBuilder.build path blockSize entries) := by
  intro s u s' run
  obtain ⟨data, created, -⟩ := SSTableBuilder.ends_build run
  obtain ⟨ops, did, -⟩ := created.did
  exact ⟨_, did⟩

theorem advances_openWithCache (path : FileName) (sstId : Nat) :
    Advances Sys.Extends (SSTableReader.openWithCache path sstId) := by
  refine Sys.Extends.bind (fun _ _ _ run => ⟨_, (ends_readFile run).2⟩) fun _ => ?_
  exact advances_liftResult Sys.Extends.refl _

theorem Sys.did_later (s : Sys) (n : Nat) : s.Did [] (s.later n) :=
  ⟨rfl, by simp, rfl, Nat.le_add_right _ _⟩

/-- A computation that only reads the clock. -/
theorem advances_of_later {α : Type} {x : SysM α}
    (reads : ∀ s, ∃ a n, x s = .ok a (s.later n)) : Advances Sys.Extends x := by
  intro s a s' run
  obtain ⟨b, n, outcome⟩ := reads s
  obtain ⟨-, rfl⟩ := Ends.unique run outcome
  exact ⟨[], s.did_later n⟩

theorem advances_unpackInner (v : Bytes) : Advances Sys.Extends (unpackInner v) :=
  advances_of_later fun s => ⟨_, unpackInner_run s v⟩

theorem advances_unpackValue (v : Bytes) : Advances Sys.Extends (unpackValue v) :=
  advances_of_later fun s => ⟨_, unpackValue_run s v⟩

theorem advances_isVisible (undecodable : Bool) (v : Bytes) :
    Advances Sys.Extends (isVisible undecodable v) :=
  advances_of_later fun s => ⟨_, isVisible_run s undecodable v⟩

end Outside

namespace Engine

/-! ## Flush and compaction -/

theorem extending_takeSstId : Extending takeSstId :=
  Extending.self.bind fun _ => (Extending.liftResult _).bind fun _ =>
    Extending.bind (.modifySelf fun _ => rfl) fun _ => .pure _

theorem extending_writeSst (sstId : Nat) (entries : List (Bytes × Bytes)) :
    Extending (writeSst sstId entries) :=
  Extending.self.bind fun _ => .onSys (advances_build _ _ _)

theorem extending_saveManifest : Extending saveManifest :=
  Extending.self.bind fun _ => .onSys (advances_save _ _)

theorem extending_resetWal : Extending resetWal := by
  refine (Extending.onSys (advances_createTruncate _)).bind fun _ => ?_
  refine (Extending.onSys (advances_openWal _)).bind fun wal => ?_
  intro w u w' run
  rw [ends_modify] at run
  subst run
  obtain ⟨ops, did, -⟩ := BufWriter.drop_did w.eng.wal.file w.sys
  exact ⟨⟨ops, did⟩, rfl⟩

theorem extending_mergeTables (ids : List Nat) (all : SortedMap Bytes Bytes) :
    Extending (mergeTables ids all) := by
  induction ids generalizing all with
  | nil => exact .pure _
  | cons id ids inductionHypothesis =>
      refine Extending.self.bind fun e => ?_
      split
      · exact (Extending.onCache _).bind fun _ => inductionHypothesis _
      · exact inductionHypothesis _

theorem advances_retainVisible (entries : List (Bytes × Bytes)) :
    Advances Sys.Extends (retainVisible entries) := by
  induction entries with
  | nil => exact advances_pure Sys.Extends.refl _
  | cons b rest inductionHypothesis =>
      refine Sys.Extends.bind (advances_isVisible _ _) fun _ => ?_
      exact Sys.Extends.bind inductionHypothesis fun _ =>
        advances_pure Sys.Extends.refl _

theorem extending_installMerged (level : Nat) (entries : List (Bytes × Bytes)) :
    Extending (installMerged level entries) :=
  extending_takeSstId.bind fun _ => (extending_writeSst _ _).bind fun _ =>
    (Extending.liftResult _).bind fun _ => (Extending.onSys (advances_openWithCache _ _)).bind fun _ =>
      Extending.bind (.modifySelf fun _ => rfl) fun _ => Extending.self.bind fun _ =>
        (Extending.liftResult _).bind fun _ => .modifySelf fun _ => rfl

theorem extending_removeTables (ids : List Nat) : Extending (removeTables ids) := by
  induction ids with
  | nil => exact .pure _
  | cons id ids inductionHypothesis =>
      refine Extending.bind (.modifySelf fun _ => rfl) fun _ => ?_
      refine Extending.bind (.onSys fun s u s' run => ?_) fun _ => inductionHypothesis
      rcases ends_ignoring_removeFile run with did | did
      · exact ⟨_, did⟩
      · exact ⟨_, did⟩

theorem extending_finishCompaction (ids : List Nat) : Extending (finishCompaction ids) :=
  (extending_removeTables ids).bind fun _ => extending_saveManifest.bind fun _ =>
    .modifySelf fun _ => rfl

theorem extending_compactLevel (level : Nat) : Extending (compactLevel level) := by
  refine Extending.self.bind fun _ => (Extending.liftResult _).bind fun _ => ?_
  refine (extending_mergeTables _ _).bind fun _ => ?_
  refine (Extending.onSys (advances_retainVisible _)).bind fun _ => ?_
  dsimp only
  split
  · exact extending_finishCompaction _
  · exact (extending_installMerged _ _).bind fun _ => extending_finishCompaction _

theorem extending_compactIfFull (level : Nat) : Extending (compactIfFull level) := by
  refine Extending.self.bind fun _ => (Extending.liftResult _).bind fun _ => ?_
  split
  · exact .pure _
  · exact extending_compactLevel level

theorem extending_compactFrom (n level : Nat) : Extending (compactFrom n level) := by
  induction n generalizing level with
  | zero => exact .pure _
  | succ n inductionHypothesis =>
      exact (extending_compactIfFull level).bind fun _ => inductionHypothesis _

theorem extending_maybeCompact : Extending maybeCompact :=
  Extending.self.bind fun _ => extending_compactFrom _ _

theorem extending_flushEntries (sstId : Nat) (entries : List (Bytes × Bytes)) :
    Extending (flushEntries sstId entries) :=
  (extending_writeSst _ _).bind fun _ => (Extending.liftResult _).bind fun _ =>
    (Extending.onSys (advances_openWithCache _ _)).bind fun _ =>
      Extending.bind (.modifySelf fun _ => rfl) fun _ => extending_saveManifest.bind fun _ =>
        extending_resetWal.bind fun _ => .modifySelf fun _ => rfl

theorem extending_flushImmutable (immutable : SkipList) : Extending (flushImmutable immutable) := by
  refine extending_takeSstId.bind fun _ => (Extending.liftResult _).bind fun _ => ?_
  split
  · exact .pure _
  · exact (extending_flushEntries _ _).bind fun _ => extending_maybeCompact

theorem extending_maybeFlush : Extending maybeFlush := by
  refine Extending.self.bind fun _ => ?_
  split
  · exact .pure _
  · exact Extending.bind (.modifySelf fun _ => rfl) fun _ => extending_flushImmutable _

/-! ## Writes -/

theorem extending_takeSeq : Extending takeSeq :=
  Extending.self.bind fun _ => (Extending.liftResult _).bind fun _ =>
    Extending.bind (.modifySelf fun _ => rfl) fun _ => .pure _

theorem extending_walFlush : Extending (onWal WALWriter.flush) := by
  refine .onWal ?_
  intro p u p' run
  simp only [WALWriter.flush, WALWriter.onFile, ends_bind, ends_zoom] at run
  obtain ⟨u₁, p₁, ⟨q, flushed, rfl⟩, s, synced, rfl⟩ := run
  obtain ⟨wrote, -⟩ := BufWriter.wrote_flushBuf flushed
  obtain ⟨ops, did, -⟩ := wrote.did
  exact ⟨_, did.trans (ends_syncFile synced)⟩

theorem extending_appendRecord (record : Record) :
    Extending (onWal (WALWriter.appendRecord record)) := by
  refine .onWal ?_
  intro p u p' run
  simp only [WALWriter.appendRecord, WALWriter.onFile, ends_bind, ends_get, ends_zoom] at run
  obtain ⟨a, p₁, ⟨rfl, rfl⟩, q, written, rfl⟩ := run
  obtain ⟨ops, did, -⟩ := (BufWriter.wrote_writeAll written).did
  exact ⟨_, did⟩

theorem extending_syncWal : Extending syncWal := by
  refine Extending.self.bind fun _ => ?_
  split
  · exact extending_walFlush
  · exact .pure _

theorem extending_memtablePut (key value : Bytes) : Extending (memtablePut key value) :=
  Extending.self.bind fun _ =>
    (Extending.onSys fun _ _ _ run => ⟨_, ends_drawTrailing run⟩).bind fun _ =>
      (Extending.liftResult _).bind fun _ => .modifySelf fun _ => rfl

theorem extending_logAndApply (record : Record) (count : Metrics → Metrics) :
    Extending (logAndApply record count) :=
  (extending_appendRecord _).bind fun _ => extending_syncWal.bind fun _ =>
    (extending_memtablePut _ _).bind fun _ => .modifySelf fun _ => rfl

theorem extending_storePut (key value : Bytes) : Extending (storePut key value) :=
  extending_takeSeq.bind fun _ => extending_logAndApply _ _

theorem extending_storeDelete (key : Bytes) : Extending (storeDelete key) :=
  extending_takeSeq.bind fun _ => extending_logAndApply _ _

theorem extending_storeWithTtl (key value : Bytes) (ttl : Nat) :
    Extending (storeWithTtl key value ttl) :=
  (Extending.onSys fun _ _ _ run => ⟨_, (ends_now run).2⟩).bind fun _ =>
    (Extending.liftResult _).bind fun _ => extending_takeSeq.bind fun _ =>
      extending_logAndApply _ _

theorem extending_logBatch (ops : List BatchOp) : Extending (logBatch ops) := by
  induction ops with
  | nil => exact .pure _
  | cons op ops inductionHypothesis =>
      exact (extending_appendRecord _).bind fun _ => inductionHypothesis

theorem extending_applyBatch (ops : List BatchOp) : Extending (applyBatch ops) := by
  induction ops with
  | nil => exact .pure _
  | cons op ops inductionHypothesis =>
      exact (extending_memtablePut _ _).bind fun _ => inductionHypothesis

theorem extending_storeBatch (ops : List BatchOp) : Extending (storeBatch ops) :=
  (extending_logBatch _).bind fun _ => extending_walFlush.bind fun _ => extending_applyBatch _

theorem extending_writeBatch (batch : WriteBatch) : Extending (writeBatch batch) := by
  unfold writeBatch
  split
  · exact .pure _
  · exact (extending_storeBatch _).bind fun _ => extending_maybeFlush

end Engine

/-! ## Table ids stay in range -/

/-- If the next id fits a `u64` before, then so it does afterwards. -/
def IdsFit (w w' : World) : Prop := w.eng.nextSstId < u64Limit → w'.eng.nextSstId < u64Limit

/-- Every run of the method keeps the next id in range. -/
abbrev KeepsIds {α : Type} (x : EngineM α) : Prop := Advances IdsFit x

namespace KeepsIds

variable {α β : Type}

theorem pure (a : α) : KeepsIds (Pure.pure a : EngineM α) := advances_pure (fun _ fits => fits) a

theorem bind {x : EngineM α} {f : α → EngineM β} (first : KeepsIds x)
    (rest : ∀ a, KeepsIds (f a)) : KeepsIds (x >>= f) :=
  advances_bind (fun h₁ h₂ fits => h₂ (h₁ fits)) first rest

theorem liftResult (r : Result α) : KeepsIds (Foundations.liftResult r) :=
  advances_liftResult (fun _ fits => fits) r

theorem onSys (x : SysM α) : KeepsIds (KvEngine.onSys x) := by
  intro w a w' run
  obtain ⟨s, -, rfl⟩ := ends_onSys.mp run
  exact id

theorem onCache (x : CacheM α) : KeepsIds (KvEngine.onCache x) := by
  intro w a w' run
  obtain ⟨c, -, rfl⟩ := ends_onCache.mp run
  exact id

theorem self : KeepsIds KvEngine.self := by
  intro w e w' run
  obtain ⟨-, rfl⟩ := ends_self.mp run
  exact id

theorem modifySelf {f : Engine → Engine} (keeps : ∀ e, (f e).nextSstId = e.nextSstId) :
    KeepsIds (KvEngine.modifySelf f) := by
  intro w u w' run fits
  rw [ends_modifySelf] at run
  subst run
  rw [keeps w.eng]
  exact fits

end KeepsIds

namespace Engine

theorem keepsIds_takeSstId : KeepsIds takeSstId := by
  intro w id w' run _
  simp only [takeSstId, ends_bind, ends_self, ends_liftResult, checkedAdd_eq_ok, ends_modifySelf,
    ends_pure] at run
  obtain ⟨e, w₁, ⟨rfl, rfl⟩, next, w₂, ⟨⟨small, rfl⟩, rfl⟩, u₁, w₃, rfl, -, rfl⟩ := run
  exact small

theorem keepsIds_writeSst (sstId : Nat) (entries : List (Bytes × Bytes)) :
    KeepsIds (writeSst sstId entries) :=
  KeepsIds.self.bind fun _ => .onSys _

theorem keepsIds_saveManifest : KeepsIds saveManifest := KeepsIds.self.bind fun _ => .onSys _

theorem keepsIds_resetWal : KeepsIds resetWal := by
  refine (KeepsIds.onSys _).bind fun _ => (KeepsIds.onSys _).bind fun wal => ?_
  intro w u w' run
  rw [ends_modify] at run
  subst run
  exact id

theorem keepsIds_mergeTables (ids : List Nat) (all : SortedMap Bytes Bytes) :
    KeepsIds (mergeTables ids all) := by
  induction ids generalizing all with
  | nil => exact .pure _
  | cons id ids inductionHypothesis =>
      refine KeepsIds.self.bind fun e => ?_
      split
      · exact (KeepsIds.onCache _).bind fun _ => inductionHypothesis _
      · exact inductionHypothesis _

theorem keepsIds_installMerged (level : Nat) (entries : List (Bytes × Bytes)) :
    KeepsIds (installMerged level entries) :=
  keepsIds_takeSstId.bind fun _ => (keepsIds_writeSst _ _).bind fun _ =>
    (KeepsIds.liftResult _).bind fun _ => (KeepsIds.onSys _).bind fun _ =>
      KeepsIds.bind (.modifySelf fun _ => rfl) fun _ => KeepsIds.self.bind fun _ =>
        (KeepsIds.liftResult _).bind fun _ => .modifySelf fun _ => rfl

theorem keepsIds_finishCompaction (ids : List Nat) : KeepsIds (finishCompaction ids) := by
  have removes : KeepsIds (removeTables ids) := by
    induction ids with
    | nil => exact .pure _
    | cons id ids inductionHypothesis =>
        exact KeepsIds.bind (.modifySelf fun _ => rfl) fun _ =>
          (KeepsIds.onSys _).bind fun _ => inductionHypothesis
  exact removes.bind fun _ => keepsIds_saveManifest.bind fun _ => .modifySelf fun _ => rfl

theorem keepsIds_compactLevel (level : Nat) : KeepsIds (compactLevel level) := by
  refine KeepsIds.self.bind fun _ => (KeepsIds.liftResult _).bind fun _ => ?_
  refine (keepsIds_mergeTables _ _).bind fun _ => (KeepsIds.onSys _).bind fun _ => ?_
  dsimp only
  split
  · exact keepsIds_finishCompaction _
  · exact (keepsIds_installMerged _ _).bind fun _ => keepsIds_finishCompaction _

theorem keepsIds_compactFrom (n level : Nat) : KeepsIds (compactFrom n level) := by
  induction n generalizing level with
  | zero => exact .pure _
  | succ n inductionHypothesis =>
      have first : KeepsIds (compactIfFull level) := by
        refine KeepsIds.self.bind fun _ => (KeepsIds.liftResult _).bind fun _ => ?_
        split
        · exact .pure _
        · exact keepsIds_compactLevel level
      exact first.bind fun _ => inductionHypothesis _

theorem keepsIds_flushEntries (sstId : Nat) (entries : List (Bytes × Bytes)) :
    KeepsIds (flushEntries sstId entries) :=
  (keepsIds_writeSst _ _).bind fun _ => (KeepsIds.liftResult _).bind fun _ =>
    (KeepsIds.onSys _).bind fun _ => KeepsIds.bind (.modifySelf fun _ => rfl) fun _ =>
      keepsIds_saveManifest.bind fun _ => keepsIds_resetWal.bind fun _ => .modifySelf fun _ => rfl

theorem keepsIds_maybeFlush : KeepsIds maybeFlush := by
  refine KeepsIds.self.bind fun _ => ?_
  split
  · exact .pure _
  · refine KeepsIds.bind (.modifySelf fun _ => rfl) fun _ => keepsIds_takeSstId.bind fun _ =>
      (KeepsIds.liftResult _).bind fun _ => ?_
    split
    · exact .pure _
    · exact (keepsIds_flushEntries _ _).bind fun _ => KeepsIds.self.bind fun _ =>
        keepsIds_compactFrom _ _

end Engine

end KvEngine
