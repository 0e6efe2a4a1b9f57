import KvEngine.Engine.Failures
import KvEngine.Engine.Interrupted

/-!
# Flushes and compactions that fail

What an early return leaves half done is either a file that is not in use, or a step
that is complete in memory: the table is open and listed, but the manifest or the log
on disk is behind.
-/

namespace KvEngine

open Foundations

namespace Engine

variable {w w₁ w' : World} {u : Unit} {k : KvError} {level : Nat}

/-- Any changes can be made to the directory. -/
theorem exists_did (s : Sys) (ops : List FsOp) : ∃ s', s.Did ops s' :=
  ⟨{ s with dir := applyOps ops s.dir, journal := s.journal ++ ops }, rfl, rfl, rfl, le_rfl⟩

theorem takeSstId_notErr : ¬ Fails takeSstId w (.err k) w' := by
  intro failed
  rcases fails_bind.mp failed with never | ⟨e, w₁, -, failed⟩
  · exact (show Ends self w w.eng w from rfl).not_fails never
  rcases fails_bind.mp failed with never | ⟨n, w₂, -, failed⟩
  · exact Result.NotErr.checkedAdd _ _ _ k (fails_liftResult.mp never).1
  rcases fails_bind.mp failed with never | ⟨v, w₃, -, failed⟩
  · exact fails_modify.mp never
  · exact fails_pure.mp failed

/-! ## A new table -/

/-- A table that is not written or not opened leaves only its file behind. -/
theorem fails_newTable {sstId level : Nat} {entries : List (Bytes × Bytes)} {β : Type}
    {rest : SSTMeta → SSTableReader → EngineM β}
    (failed : Fails (do
      writeSst sstId entries
      let sst ← liftResult (metaOf sstId level entries)
      let reader ← onSys (SSTableReader.openWithCache (.sst sstId) sstId)
      rest sst reader) w (.err k) w') :
    (w' = { w with sys := w'.sys } ∧ w.sys.Touches (· = .sst sstId) w'.sys ∧
        ∀ w₁ r w₂, Ends (writeSst sstId entries) w () w₁ →
          ¬ Ends (onSys (SSTableReader.openWithCache (.sst sstId) sstId)) w₁ r w₂) ∨
      ∃ sst r w₁ w₂, Ends (writeSst sstId entries) w () w₁ ∧
        metaOf sstId level entries = .ok sst ∧
        Ends (onSys (SSTableReader.openWithCache (.sst sstId) sstId)) w₁ r w₂ ∧
        Fails (rest sst r) w₂ (.err k) w' := by
  rcases fails_bind.mp failed with early | ⟨u, w₁, wrote, later⟩
  · obtain ⟨same, touches⟩ := (always_writeSst sstId entries).fails _ _ _ early
    exact Or.inl ⟨same, touches, fun w₁ r w₂ ended _ => ended.not_fails early⟩
  obtain ⟨same₁, touches₁⟩ := (always_writeSst sstId entries).ends _ _ _ wrote
  rcases fails_bind.mp later with never | ⟨sst, w₂, described, afterMeta⟩
  · exact absurd (fails_liftResult.mp never).1 (metaOf_notErr _ _ _ k)
  obtain ⟨isMeta, rfl⟩ := ends_liftResult.mp described
  rcases fails_bind.mp afterMeta with opening | ⟨r, w₃, opened, last⟩
  · obtain ⟨same₂, touches₂⟩ :=
      (always_onSys (touches_openWithCache (P := (· = .sst sstId)) _ _)).fails _ _ _ opening
    refine Or.inl ⟨by rw [same₂, same₁], touches₁.trans touches₂, fun v r v' ended opens => ?_⟩
    obtain ⟨-, rfl⟩ := wrote.unique ended
    exact opens.not_fails opening
  · exact Or.inr ⟨sst, r, w₂, w₃, wrote, isMeta, opened, last⟩

/-! ## Compactions -/

/-- What a compaction that fails leaves behind. -/
inductive FailedCompaction (w : World) (level : Nat) (w' : World) : Prop
  /-- The merged table is not open; an id is used up. -/
  | early {blockCache : Option BlockCache}
      (eng : w'.eng = { w.eng with nextSstId := w.eng.nextSstId + 1, blockCache })
      (room : w.eng.nextSstId + 1 < u64Limit)
      (tables : Tables w.eng.sstReaders w.eng.nextSstId blockCache)
      (touches : w.sys.Touches (· = .sst w.eng.nextSstId) w'.sys)
  /-- All is done but the manifest is not saved. -/
  | late {time : Bytes → Nat} {added : Option Table} {done : World} {metrics : Metrics}
      (compaction : Compaction w level time added done)
      (eng : w'.eng = { done.eng with metrics })
      (ids : w.eng.nextSstId < u64Limit → w'.eng.nextSstId < u64Limit)
      (tables : ∀ id, w'.sys.dir.lookup (.sst id) = done.sys.dir.lookup (.sst id))
      (touches : w.sys.Touches (fun f => f = .manifest ∨ ∃ id, f = .sst id) w'.sys)

theorem removeTables_notErr (ids : List Nat) : ¬ Fails (removeTables ids) w (.err k) w' := by
  induction ids generalizing w with
  | nil => exact fails_pure.mp
  | cons id ids inductionHypothesis =>
      intro failed
      rcases fails_bind.mp failed with never | ⟨v, w₁, -, failed⟩
      · exact fails_modify.mp never
      rcases fails_bind.mp failed with never | ⟨v, w₂, -, failed⟩
      · obtain ⟨s, inner, -⟩ := fails_onSys.mp never
        exact fails_ignoring.mp inner
      · exact inductionHypothesis failed

/-- Once the merged table is open, only saving the manifest may fail. -/
theorem fails_finishCompaction {ids : List Nat}
    (failed : Fails (finishCompaction ids) w (.err k) w') :
    ∃ w₁, Ends (removeTables ids) w () w₁ ∧ w' = { w₁ with sys := w'.sys } ∧
      w₁.sys.Touches (· = .manifest) w'.sys := by
  rcases fails_bind.mp failed with never | ⟨v, w₁, removed, failed⟩
  · exact absurd never (removeTables_notErr ids)
  rcases fails_bind.mp failed with saving | ⟨v, w₂, -, never⟩
  · obtain ⟨same, touches⟩ := fails_saveManifest saving
    exact ⟨w₁, removed, same, touches⟩
  · exact absurd never fails_modify.mp

theorem interrupted_installMerged {entries : List (Bytes × Bytes)}
    (failed : Fails (installMerged level entries) w (.err k) w') :
    w' = ⟨{ w.eng with nextSstId := w.eng.nextSstId + 1 }, w'.sys⟩ ∧
      w.eng.nextSstId + 1 < u64Limit ∧ w.sys.Touches (· = .sst w.eng.nextSstId) w'.sys := by
  rcases fails_bind.mp failed with never | ⟨sstId, w₁, took, failed⟩
  · exact absurd never takeSstId_notErr
  obtain ⟨rfl, rfl, room⟩ := ends_takeSstId took
  rcases fails_newTable failed with ⟨same, touches, -⟩ | ⟨sst, r, w₂, w₃, -, -, -, never⟩
  · exact ⟨same, room, touches⟩
  · -- nothing that comes after opening the table can fail
    rcases fails_bind.mp never with never | ⟨v, w₄, -, never⟩
    · exact absurd never fails_modify.mp
    rcases fails_bind.mp never with never | ⟨e, w₅, -, never⟩
    · exact absurd never (show Ends self w₄ w₄.eng w₄ from rfl).not_fails
    rcases fails_bind.mp never with never | ⟨pushed, w₆, -, never⟩
    · exact absurd (fails_liftResult.mp never).1 (Result.NotErr.orPanic _ k)
    · exact absurd never fails_modify.mp

/-- The files a compaction that could not save its manifest has touched. -/
theorem touches_removals {ids : List Nat} {s s' : Sys} {ops : List FsOp} (did : s.Did ops s')
    (sub : ops.Sublist (ids.map (fun id => .remove (.sst id)))) :
    s.Touches (fun f => f = .manifest ∨ ∃ id, f = .sst id) s' :=
  .of_did did fun op member => by
    obtain ⟨id, -, rfl⟩ := List.mem_map.mp (sub.subset member)
    exact Or.inr ⟨id, rfl⟩

/-- What is left behind when the new table, if there is one, is open. -/
theorem FailedCompaction.of_finish {v : World} {time : Bytes → Nat} {added : Option Table}
    {nextSstId : Nat} {blockCache : Option BlockCache} (inv : Inv w)
    (overlap : ∃ dst, overlapping (w.eng.manifest.sstsAtLevel level)
      (w.eng.manifest.sstsAtLevel (level + 1)) = .ok dst)
    (clock : ∀ key, w.sys.Reads (time key))
    (nothing : added = none →
      (live time (merged w.eng.manifest w.eng.sstReaders level)).entries = [])
    (new : ∀ p, added = some p → p.Described ∧ p.1.id = w.eng.nextSstId ∧
      p.map = live time (merged w.eng.manifest w.eng.sstReaders level))
    (built : BuiltIfAny w.sys added v.sys)
    (tables : Tables (w.eng.sstReaders ++ added.toList) nextSstId blockCache)
    (eng : v.eng = { w.eng with
      manifest := withAdded w.eng.manifest (level + 1) added
      sstReaders := w.eng.sstReaders ++ added.toList
      nextSstId, blockCache })
    (ids : w.eng.nextSstId < u64Limit → nextSstId < u64Limit)
    (touches : w.sys.Touches (fun f => f = .manifest ∨ ∃ id, f = .sst id) v.sys)
    (failed : Fails (finishCompaction ((w.eng.manifest.sstsAtLevel level).map SSTMeta.id ++
      (overlaps w.eng.manifest level).map SSTMeta.id)) v (.err k) w') :
    FailedCompaction w level w' := by
  obtain ⟨w₁, removed, same, saving⟩ := fails_finishCompaction failed
  obtain ⟨s, saved⟩ := exists_did w₁.sys (manifestOps w₁.eng.manifest)
  obtain ⟨eng₁, ops, didRemove, sub⟩ := ends_removeTables removed
  have compaction := Compaction.of_removed inv overlap clock nothing new built tables eng removed
    saved w₁.eng.metrics
  refine @FailedCompaction.late _ _ _ _ _ _ w₁.eng.metrics compaction (by rw [same]) (fun fits => ?_)
    (fun id => ?_) ?_
  · rw [same, eng₁, eng]
    exact ids fits
  · rw [saving.lookup_eq (by simp), lookup_sst_manifestOps saved]
  · exact (touches.trans (touches_removals didRemove sub)).trans (saving.mono fun f => Or.inl)

/-- **What a compaction leaves behind when it fails.** -/
theorem fails_compactLevel_cases (inv : Inv w) (limits : WithinLimits w'.sys)
    (failed : Fails (compactLevel level) w (.err k) w') : FailedCompaction w level w' := by
  cases overlap : overlapping (w.eng.manifest.sstsAtLevel level)
      (w.eng.manifest.sstsAtLevel (level + 1)) with
  | error e =>
      -- an empty level is a panic, and not an error
      rcases fails_bind.mp failed with never | ⟨e', w₁, this, later⟩
      · exact absurd never (show Ends self w w.eng w from rfl).not_fails
      obtain ⟨rfl, rfl⟩ := ends_self.mp this
      rcases fails_bind.mp later with never | ⟨dst, w₂, found, -⟩
      · exact absurd (fails_liftResult.mp never).1 (overlapping_notErr _ _ k)
      · rw [overlap] at found
        cases (ends_liftResult.mp found).1
  | ok dst =>
      obtain ⟨blockCache, n, tables, -, same⟩ := compactLevel_eq inv overlap
      have clock := reads_examinedAt w level
      simp only [Fails, same] at failed
      let v : World := ⟨{ w.eng with blockCache }, w.sys.later n⟩
      have waited : w.sys.Did [] v.sys := w.sys.did_later n
      split at failed
      · next empty =>
          -- everything that was merged has been dropped, and no table is made
          have nothingBuilt : BuiltIfAny w.sys none v.sys := waited
          exact .of_finish inv ⟨_, overlap⟩ clock (fun _ => by simpa using empty) (by simp)
            nothingBuilt (by simpa using tables) (by simp [withAdded, v]) id (.of_waiting waited)
            failed
      · next nonempty =>
          rcases fails_bind.mp failed with installing | ⟨u, w₁, installed, finishing⟩
          · obtain ⟨left, room, touches⟩ := interrupted_installMerged (w := v) installing
            exact .early (by rw [left]) room tables
              ((Sys.Touches.of_waiting waited).trans touches)
          · obtain ⟨w₂, removed, -, saving⟩ := fails_finishCompaction finishing
            have goesOn : w₁.sys.Extends w'.sys := by
              obtain ⟨-, ops, did, -⟩ := ends_removeTables removed
              exact Sys.Extends.trans ⟨ops, did⟩ saving.goesOn
            obtain ⟨p, described, id, map, built, eng⟩ :=
              ends_installMerged (w := v) (waited.history inv.history) (limits.of_extends goesOn)
                (keys_live inv _ level) installed
            have room : v.eng.nextSstId < u64Limit → w₁.eng.nextSstId < u64Limit :=
              keepsIds_installMerged _ _ _ _ _ installed
            have isBuilt : BuiltIfAny w.sys (some p) w₁.sys := built.of_did waited
            refine .of_finish inv ⟨_, overlap⟩ clock (by simp) ?_ isBuilt
              (tables.push described id) (by simpa [withAdded, v] using eng) ?_ ?_ finishing
            · rintro _ ⟨⟩
              exact ⟨described, id, map⟩
            · intro fits
              have := room fits
              rwa [eng] at this
            · obtain ⟨ops, did, ofTable⟩ := built.writes
              exact (Sys.Touches.of_waiting waited).trans
                (.of_did did fun op member => Or.inr ⟨_, ofTable op member⟩)

namespace FailedCompaction

theorem touches (failed : FailedCompaction w level w') :
    w.sys.Touches (fun f => f = .manifest ∨ ∃ id, f = .sst id) w'.sys := by
  cases failed with
  | early _ _ _ touches => exact touches.mono fun f same => Or.inr ⟨_, same⟩
  | late _ _ _ _ touches => exact touches

/-- What a compaction leaves alone, also when it fails. -/
theorem kept (failed : FailedCompaction w level w') :
    w'.eng.memtable = w.eng.memtable ∧ w'.eng.wal = w.eng.wal ∧ w'.eng.opts = w.eng.opts := by
  cases failed with
  | early eng => rw [eng]; exact ⟨rfl, rfl, rfl⟩
  | late compaction eng =>
      obtain ⟨nextSstId, blockCache, metrics, eng'⟩ := compaction.eng
      rw [eng, eng']
      exact ⟨rfl, rfl, rfl⟩

theorem ids (failed : FailedCompaction w level w') (fits : w.eng.nextSstId < u64Limit) :
    w'.eng.nextSstId < u64Limit := by
  cases failed with
  | early eng room => rw [eng]; exact room
  | late _ _ ids => exact ids fits

/-- **The invariant survives a compaction that fails.** -/
theorem inv (failed : FailedCompaction w level w') (inv : Inv w) : Inv w' := by
  have history : w'.sys.dir = applyOps w'.sys.journal ∅ := by
    obtain ⟨ops, did, -⟩ := failed.touches
    exact did.history inv.history
  cases failed with
  | early eng _ tables =>
      refine ⟨?_, ?_, ?_, ?_, ?_, history⟩
      · rw [eng]
        exact tables.skip
      · rw [eng]
        exact inv.listed
      · rw [eng]
        exact inv.apart
      · rw [eng]
        exact inv.memtable
      · rw [eng]
        exact inv.memKeys
  | late compaction eng =>
      have done := compaction.inv inv
      refine ⟨?_, ?_, ?_, ?_, ?_, history⟩
      · rw [eng]
        exact done.tables
      · rw [eng]
        exact done.listed
      · rw [eng]
        exact done.apart
      · rw [eng]
        exact done.memtable
      · rw [eng]
        exact done.memKeys

theorem onDisk (failed : FailedCompaction w level w') (inv : Inv w) (onDisk : OnDisk w) :
    OnDisk w' := by
  cases failed with
  | early eng _ _ touches =>
      refine ⟨fun p hp => ?_, by rw [eng]; exact onDisk.log⟩
      rw [eng] at hp
      have old := (inv.tables.fresh p hp).ne
      rw [touches.lookup_eq (by simpa using old)]
      exact onDisk.files p hp
  | late compaction eng _ tables =>
      have stored := compaction.stored inv onDisk
      refine ⟨fun p hp => ?_, by rw [eng]; exact stored.log⟩
      rw [tables]
      rw [eng] at hp
      exact stored.files p hp

end FailedCompaction

/-! ## The loop of compactions -/

/-- The loop fails at one of the levels. -/
theorem fails_compactFrom {n : Nat} (failed : Fails (compactFrom n level) w (.err k) w') :
    ∃ m < n, ∃ w₁, Ends (compactFrom m level) w () w₁ ∧
      Fails (compactIfFull (level + m)) w₁ (.err k) w' := by
  induction n generalizing w level with
  | zero => exact absurd failed fails_pure.mp
  | succ n inductionHypothesis =>
      rcases fails_bind.mp failed with here | ⟨u, w₁, first, later⟩
      · exact ⟨0, Nat.succ_pos n, w, ends_pure.mpr ⟨rfl, rfl⟩, here⟩
      · obtain ⟨m, less, w₂, looped, fails⟩ := inductionHypothesis later
        refine ⟨m + 1, Nat.succ_lt_succ less, w₂, ends_bind.mpr ⟨(), w₁, first, looped⟩, ?_⟩
        rwa [show level + (m + 1) = level + 1 + m by omega]

/-- The level holds as many tables as its threshold. -/
def Full (e : Engine) (level : Nat) : Prop :=
  ∃ threshold, levelThreshold e.opts level = .ok threshold ∧
    threshold ≤ (e.manifest.sstsAtLevel level).length

theorem levelThreshold_notErr (opts : Options) (level : Nat) :
    (levelThreshold opts level).NotErr := by
  unfold levelThreshold
  split
  · exact .ok _
  · simp only
    split
    · exact .checkedMul _ _ _
    · intro e same
      cases same

theorem fails_compactIfFull (failed : Fails (compactIfFull level) w (.err k) w') :
    Full w.eng level ∧ Fails (compactLevel level) w (.err k) w' := by
  rcases fails_bind.mp failed with never | ⟨e, w₁, this, later⟩
  · exact absurd never (show Ends self w w.eng w from rfl).not_fails
  obtain ⟨rfl, rfl⟩ := ends_self.mp this
  rcases fails_bind.mp later with never | ⟨threshold, w₂, found, rest⟩
  · exact absurd (fails_liftResult.mp never).1 (levelThreshold_notErr _ _ k)
  obtain ⟨isThreshold, rfl⟩ := ends_liftResult.mp found
  split at rest
  · exact absurd rest fails_pure.mp
  · next notBelow => exact ⟨⟨threshold, isThreshold, not_lt.mp notBelow⟩, rest⟩

end Engine

end KvEngine
