import KvEngine.Engine.Logged

/-!
# The files of a directory are those that are used

The engine never lists its own files: it opens those that the manifest names.  A table that
is not named there stays on disk for ever, and nothing reads it.  As long as removing a file
succeeds, a compaction leaves no such table behind, and after any history the directory holds
the log, the manifest and the open tables, and no other file.

Only compacting removes files, and it does not look whether it could.  This is why the
invariant, `NoOrphans`, is kept by a compaction in a faultless environment only.
-/

namespace KvEngine

open Foundations Engine

variable {w w₁ w' : World} {u : Unit}

/-- Every SSTable file of the directory is the file of one of the tables. -/
def NoOrphans (tables : List Table) (d : Dir) : Prop :=
  ∀ id, .sst id ∈ d → ∃ p ∈ tables, p.1.id = id

namespace NoOrphans

variable {tables : List Table} {d d' : Dir}

/-- Files may go away. -/
theorem mono (noOrphans : NoOrphans tables d) (kept : ∀ id, .sst id ∈ d' → .sst id ∈ d) :
    NoOrphans tables d' := fun id present => noOrphans id (kept id present)

theorem frame (noOrphans : NoOrphans tables d)
    (same : ∀ id, d'.lookup (.sst id) = d.lookup (.sst id)) : NoOrphans tables d' := by
  apply noOrphans.mono
  intro id present
  rw [← AList.lookup_isSome] at present ⊢
  rwa [← same id]

/-- Changes of the log are changes of another file. -/
theorem of_log {s s' : Sys} {ops : List FsOp} (noOrphans : NoOrphans tables s.dir)
    (did : s.Did ops s') (onlyLog : ∀ op ∈ ops, op.OfLog) : NoOrphans tables s'.dir :=
  noOrphans.frame fun _ => did.lookup_of_log onlyLog (by simp)

theorem of_logs {data : Bytes} (noOrphans : NoOrphans tables w.sys.dir)
    (log : ∃ n, w.eng.wal.file.path = .wal n) (logs : Logs w data w') :
    NoOrphans tables w'.sys.dir := by
  obtain ⟨-, ⟨ops, did, appends⟩, -⟩ := logs
  refine noOrphans.of_log did fun op member => ?_
  obtain ⟨d, rfl⟩ := appends op member
  exact log

/-- A new table comes with its file. -/
theorem built {s s' : Sys} {p : Table} (noOrphans : NoOrphans tables s.dir) (built : Built s p s') :
    NoOrphans (tables ++ [p]) s'.dir := by
  intro id present
  by_cases isNew : id = p.1.id
  · exact ⟨p, List.mem_append_right _ List.mem_cons_self, isNew.symm⟩
  · have old : .sst id ∈ s.dir := by
      rw [← AList.lookup_isSome] at present ⊢
      rwa [← built.lookup_of_ne (by simpa using isNew)]
    obtain ⟨q, hq, same⟩ := noOrphans id old
    exact ⟨q, List.mem_append_left _ hq, same⟩

end NoOrphans

/-! ## A compaction removes the tables that it merged -/

namespace Engine

/-- Without faults a file that is not removed was missing. -/
theorem absent_of_not_removed {s s' : Sys} {f : FileName} {e : Failure}
    (faultless : s.env.Faultless) (failed : removeFile f s = .error e s') :
    s.dir.lookup f = none := by
  unfold removeFile at failed
  rw [bind_apply_ok (nextFault_run faultless)] at failed
  simp only at failed
  rw [bind_apply_ok (rfl : MonadState.get (m := SysM) _ = _)] at failed
  split at failed
  · cases failed
  · next absent => exact Option.not_isSome_iff_eq_none.mp absent

theorem absent_of_removeFile {s s' : Sys} {f : FileName} (faultless : s.env.Faultless)
    (run : Ends (ignoring (removeFile f)) s u s') : s'.dir.lookup f = none := by
  obtain ⟨t, ⟨outcome, did⟩ | ⟨e, outcome, did⟩⟩ := removeFile_outcome f s
  all_goals
    simp only [Ends, ignoring, outcome] at run
    cases run
  · rw [did.dir]
    exact FsOp.lookup_remove f s.dir
  · rw [did.dir]
    exact absent_of_not_removed faultless outcome

/-- What is gone stays away while other tables are removed. -/
theorem absent_of_removals {s s' : Sys} {ops : List FsOp} {f : FileName} (did : s.Did ops s')
    (removals : ∀ op ∈ ops, ∃ g, op = .remove g) (absent : s.dir.lookup f = none) :
    s'.dir.lookup f = none := by
  cases found : s'.dir.lookup f with
  | none => rfl
  | some data =>
      rw [did.dir] at found
      rw [lookup_of_removals removals _ found] at absent
      cases absent

theorem absent_of_removeTables {ids : List Nat} (faultless : w.sys.env.Faultless)
    (run : Ends (removeTables ids) w u w') : ∀ id ∈ ids, w'.sys.dir.lookup (.sst id) = none := by
  induction ids generalizing w with
  | nil => simp
  | cons id ids inductionHypothesis =>
      simp only [removeTables, ends_bind, ends_modifySelf, ends_onSys] at run
      obtain ⟨u₁, w₁, rfl, u₂, w₂, ⟨s, removed, rfl⟩, later⟩ := run
      have env : s.env = w.sys.env := by
        rcases ends_ignoring_removeFile removed with did | did <;> exact did.env
      intro other member
      rcases List.mem_cons.mp member with rfl | isLater
      · obtain ⟨-, ops, did, sub⟩ := ends_removeTables later
        refine absent_of_removals did (fun op isOp => ?_) (absent_of_removeFile faultless removed)
        obtain ⟨later, -, rfl⟩ := List.mem_map.mp (sub.subset isOp)
        exact ⟨_, rfl⟩
      · exact inductionHypothesis (env ▸ faultless) later other isLater

theorem absent_of_finishCompaction {ids : List Nat} (faultless : w.sys.env.Faultless)
    (run : Ends (finishCompaction ids) w u w') :
    ∀ id ∈ ids, w'.sys.dir.lookup (.sst id) = none := by
  simp only [finishCompaction, ends_bind, ends_modifySelf] at run
  obtain ⟨u₁, w₁, removed, u₂, w₂, saved, rfl⟩ := run
  intro id member
  rw [lookup_sst_manifestOps (ends_saveManifest saved).1]
  exact absent_of_removeTables faultless removed id member

/-- **After a compaction** the files of the tables that it took up are gone. -/
theorem absent_of_compactLevel {level : Nat} (inv : Inv w) (faultless : w.sys.env.Faultless)
    (run : Ends (compactLevel level) w u w') :
    ∀ sst ∈ inputs w.eng.manifest level, w'.sys.dir.lookup (.sst sst.id) = none := by
  obtain ⟨dst, overlap⟩ : ∃ dst, overlapping (w.eng.manifest.sstsAtLevel level)
      (w.eng.manifest.sstsAtLevel (level + 1)) = .ok dst := by
    simp only [compactLevel, ends_bind, ends_self, ends_liftResult] at run
    obtain ⟨e, w₁, ⟨rfl, rfl⟩, dst, w₂, ⟨overlap, rfl⟩, -⟩ := run
    exact ⟨dst, overlap⟩
  obtain ⟨blockCache, n, -, -, same⟩ := compactLevel_eq inv overlap
  simp only [Ends, same] at run
  -- whether or not there is a new table, removing the inputs comes last
  obtain ⟨w₁, env, finish⟩ : ∃ w₁ : World, w₁.sys.env = w.sys.env ∧
      Ends (finishCompaction ((inputs w.eng.manifest level).map SSTMeta.id)) w₁ u w' := by
    rw [inputs, List.map_append]
    split at run
    · exact ⟨⟨{ w.eng with blockCache }, w.sys.later n⟩, rfl, run⟩
    · obtain ⟨u₁, w₁, installed, finish⟩ := ends_bind.mp run
      exact ⟨w₁, (extending_installMerged _ _ _ _ _ installed).sys.env, finish⟩
  intro sst member
  exact absent_of_finishCompaction (env ▸ faultless) finish sst.id (List.mem_map_of_mem member)

theorem Compaction.noOrphans {level : Nat} {time : Bytes → Nat} {added : Option Table}
    (compaction : Compaction w level time added w')
    (absent : ∀ sst ∈ inputs w.eng.manifest level, w'.sys.dir.lookup (.sst sst.id) = none)
    (noOrphans : NoOrphans w.eng.sstReaders w.sys.dir) :
    NoOrphans w'.eng.sstReaders w'.sys.dir := by
  obtain ⟨s₁, s₂, removals, built, removed, sub, saved⟩ := compaction.sys
  have before : NoOrphans (w.eng.sstReaders ++ added.toList) s₁.dir := by
    cases added with
    | none =>
        rw [Sys.Did.dir built, applyOps_nil, Option.toList_none, List.append_nil]
        exact noOrphans
    | some p => exact noOrphans.built built
  intro id present
  have old : .sst id ∈ s₁.dir := by
    rw [← AList.lookup_isSome, lookup_sst_manifestOps saved, removed.dir] at present
    obtain ⟨data, found⟩ := Option.isSome_iff_exists.mp present
    rw [← AList.lookup_isSome, lookup_of_removals (fun op member => ?_) _ found]
    · rfl
    · obtain ⟨sst, -, rfl⟩ := List.mem_map.mp (sub.subset member)
      exact ⟨_, rfl⟩
  obtain ⟨p, hp, rfl⟩ := before id old
  refine ⟨p, ?_, rfl⟩
  rw [compaction.readers]
  rcases List.mem_append.mp hp with isOld | isNew
  · refine List.mem_append_left _ (List.mem_filter.mpr ⟨isOld, decide_eq_true fun taken => ?_⟩)
    rw [← AList.lookup_isSome, absent p.1 taken] at present
    cases present
  · exact List.mem_append_right _ isNew

theorem Flush.noOrphans {p : Table} (flush : Flush w p w')
    (log : ∃ n, w.eng.wal.file.path = .wal n) (noOrphans : NoOrphans w.eng.sstReaders w.sys.dir) :
    NoOrphans w'.eng.sstReaders w'.sys.dir := by
  obtain ⟨s₁, s₂, rest, built, saved, reset, leftover⟩ := flush.sys
  have readers : w'.eng.sstReaders = w.eng.sstReaders ++ [p] := by
    obtain ⟨metrics, eng⟩ := flush.eng
    rw [eng]
  rw [readers]
  have stored : NoOrphans (w.eng.sstReaders ++ [p]) s₂.dir :=
    (noOrphans.built built).frame (lookup_sst_manifestOps saved)
  exact stored.of_log reset (reset_onlyLog leftover log)

theorem noOrphans_compactFrom {n level : Nat} (inv : Inv w) (limits : WithinLimits w'.sys)
    (faultless : w.sys.env.Faultless) (noOrphans : NoOrphans w.eng.sstReaders w.sys.dir)
    (run : Ends (compactFrom n level) w u w') : NoOrphans w'.eng.sstReaders w'.sys.dir := by
  induction n generalizing w level with
  | zero =>
      obtain ⟨-, rfl⟩ := ends_pure.mp run
      exact noOrphans
  | succ n inductionHypothesis =>
      obtain ⟨u₁, w₁, first, rest⟩ := ends_bind.mp run
      obtain ⟨threshold, -, ⟨-, rfl⟩ | ⟨-, compacts⟩⟩ := ends_compactIfFull first
      · exact inductionHypothesis inv faultless noOrphans rest
      · have later : WithinLimits w₁.sys :=
          limits.of_extends (extending_compactFrom _ _ _ _ _ rest).sys
        obtain ⟨time, added, compaction⟩ := ends_compactLevel inv later compacts
        exact inductionHypothesis (compaction.inv inv) (compaction.did.env ▸ faultless)
          (compaction.noOrphans (absent_of_compactLevel inv faultless compacts) noOrphans) rest

theorem noOrphans_maybeFlush (inv : Inv w) (limits : WithinLimits w'.sys)
    (faultless : w.sys.env.Faultless) (log : ∃ n, w.eng.wal.file.path = .wal n)
    (noOrphans : NoOrphans w.eng.sstReaders w.sys.dir) (run : Ends maybeFlush w u w') :
    NoOrphans w'.eng.sstReaders w'.sys.dir := by
  rcases ends_maybeFlush_cases inv limits run with
    ⟨-, rfl⟩ | ⟨imm, p, w₁, -, invThawed, flush, -, compacts⟩
  · exact noOrphans
  · simp only [maybeCompact, ends_bind, ends_self] at compacts
    obtain ⟨e, w₂, ⟨rfl, rfl⟩, compacts⟩ := compacts
    have env : w₂.sys.env = w.sys.env := flush.did.env
    exact noOrphans_compactFrom (flush.inv invThawed) limits (env ▸ faultless)
      (Flush.noOrphans (w := thawed w) flush log noOrphans) compacts

end Engine

/-! ## Whole runs -/

theorem NoOrphans.request (noOrphans : NoOrphans w.eng.sstReaders w.sys.dir)
    (faultless : w.sys.env.Faultless) (resting : Resting w) {request : Request}
    {response : Response} (keys : request.KeysFit) (limits : WithinLimits w'.sys)
    (run : Ends request.run w response w') : NoOrphans w'.eng.sstReaders w'.sys.dir := by
  rcases resting.ends_request_cases run with ⟨call, rfl, ran⟩ | observed
  · obtain ⟨w₁, stored, rest⟩ := Engine.ends_call ran
    obtain ⟨t, reads, accepted, small⟩ := Engine.ends_store stored
    obtain ⟨wal, memtable, metrics, eng⟩ := accepted.eng
    have log : ∃ n, w₁.eng.wal.file.path = .wal n := accepted.logs.path ▸ resting.stored.log
    have logged : NoOrphans w₁.eng.sstReaders w₁.sys.dir := by
      rw [eng]
      exact noOrphans.of_logs resting.stored.log accepted.logs
    rcases rest with flushes | ⟨rfl, rfl⟩
    · have env : w₁.sys.env = w.sys.env := (extending_store _ _ _ _ stored).sys.env
      have inv₁ := accepted.inv resting.inv fun s hs => keys _ (Call.key_mem_keys hs)
      exact noOrphans_maybeFlush inv₁ limits (env ▸ faultless) log logged flushes
    · exact noOrphans
  · obtain ⟨c, m, n, rfl⟩ := observed.world
    exact noOrphans

theorem NoOrphans.closed (noOrphans : NoOrphans w.eng.sstReaders w.sys.dir)
    (faultless : w.sys.env.Faultless) (resting : Resting w) (limits : WithinLimits w'.sys)
    (run : Ends close w u w') : NoOrphans w'.eng.sstReaders w'.sys.dir := by
  obtain ⟨w₁, w₂, flushes, limits₁, flushed, did, same⟩ := resting.ends_close_steps limits run
  have after := noOrphans_maybeFlush resting.inv_frozen limits₁ faultless resting.stored.log
    noOrphans flushes
  have onDisk := (flushing_of_maybeFlush resting.inv_frozen limits₁ flushes).onDisk
    resting.onDisk.frozen
  obtain ⟨logs, -, wal, eng⟩ := ends_walFlush flushed
  rw [same, eng]
  exact (after.of_logs onDisk.log logs).frame (lookup_sst_manifestOps did)

/-- Opening reads the tables that are listed, which are those that were open before. -/
theorem NoOrphans.reopened (noOrphans : NoOrphans w.eng.sstReaders w.sys.dir)
    (resting : Resting w) (fits : FilesFit w.sys) {s s' : Sys} {ops : List FsOp} {opts : Options}
    {e : Engine} (did : w.sys.Did ops s) (onlyLog : ∀ op ∈ ops, op.OfLog)
    (run : Ends (openWithOptions opts) s e s') : NoOrphans e.sstReaders s'.dir := by
  obtain ⟨records, -, reopened⟩ := resting.stored.reopened resting.inv resting.ids fits
    (fun f other => did.lookup_of_log onlyLog other) run
  have opened := (ends_openWithOptions run).2
  intro id present
  obtain ⟨p, hp, rfl⟩ := ((noOrphans.of_log did onlyLog).of_log opened (openOps_onlyLog _)) id present
  have listed : p.1 ∈ (listing w.eng.manifest w.eng.sstReaders).map Prod.fst := by
    rw [resting.inv.listed.map_listing]
    exact resting.inv.listed.listed p hp
  obtain ⟨q, hq, same⟩ := List.mem_map.mp listed
  refine ⟨Table.reloaded q, ?_, (Table.id_reloaded q).trans (congrArg SSTMeta.id same)⟩
  rw [reopened.readers]
  exact List.mem_map_of_mem hq

theorem ReachedBy.noOrphans {env : Env} {Serves : World → Request → Prop} {Opens : Sys → Prop}
    (reached : ReachedBy env Serves Opens w) (faultless : env.Faultless) (fits : FilesFit w.sys) :
    NoOrphans w.eng.sstReaders w.sys.dir := by
  induction reached with
  | opened run =>
      obtain ⟨-, did⟩ := ends_openWithOptions run
      exact NoOrphans.of_log (s := Sys.initial env) (fun id present => nomatch present) did
        (openOps_onlyLog _)
  | @served w w' request response before keys meets run inductionHypothesis =>
      have fitsBefore := fits.of_extends (extending_request _ _ _ _ run).sys
      exact (inductionHypothesis fitsBefore).request (before.env_eq ▸ faultless)
        (before.resting fitsBefore) keys fits.withinLimits run
  | @reopened w s s' opts e before left meets run keys inductionHypothesis =>
      have fits₁ : FilesFit s := fits.of_extends ⟨_, (ends_openWithOptions run).2⟩
      have fitsBefore := fits₁.of_extends left.extends
      have resting := before.resting fitsBefore
      obtain ⟨w₁, ops, resting₁, leaves, did, onlyLog⟩ := left.resting resting fits₁.withinLimits
      refine NoOrphans.reopened ?_ resting₁ (fits₁.of_extends ⟨_, did⟩) did onlyLog run
      rcases leaves with rfl | closes
      · exact inductionHypothesis fitsBefore
      · exact (inductionHypothesis fitsBefore).closed (before.env_eq ▸ faultless) resting
          (fits₁.withinLimits.of_extends ⟨_, did⟩) closes

/-- The directory has the files that the engine uses, and no other. -/
structure OnlyInUse (w : World) : Prop where
  /-- The tables on disk are those that the manifest names. -/
  tables : ∀ id, .sst id ∈ w.sys.dir ↔ ∃ sst ∈ w.eng.manifest.entries, sst.id = id
  /-- They are the open ones. -/
  opened : (w.eng.sstReaders.map Prod.fst).Perm w.eng.manifest.entries
  logs : ∀ n, .wal n ∈ w.sys.dir ↔ n = 1
  manifest : Saved w.sys.dir w.eng.manifest

/-- What is open is what is listed. -/
theorem Inv.readers_perm (inv : Inv w) :
    (w.eng.sstReaders.map Prod.fst).Perm w.eng.manifest.entries := by
  apply (List.perm_ext_iff_of_nodup (nodup_metas inv.tables.distinct)
    (List.Nodup.of_map _ inv.listed.distinct)).mpr
  intro sst
  constructor
  · intro isOpen
    obtain ⟨p, hp, rfl⟩ := List.mem_map.mp isOpen
    exact inv.listed.listed p hp
  · intro isListed
    rw [← inv.listed.map_listing] at isListed
    obtain ⟨p, hp, rfl⟩ := List.mem_map.mp isListed
    exact List.mem_map_of_mem (mem_listing hp)

/-- **In every reachable state the directory has the files in use and no other**, whatever was
flushed, merged, closed, killed between two requests and opened again. -/
theorem directory_only_in_use {env : Env} (faultless : env.Faultless) (reached : Reached env w)
    (fits : FilesFit w.sys) : OnlyInUse w := by
  have resting := reached.resting fits
  have kept := reached.kept fits
  obtain ⟨rs, bs, logged⟩ := reached.logged faultless fits
  have perm := resting.inv.readers_perm
  refine ⟨fun id => ⟨fun present => ?_, ?_⟩, perm, fun n => ⟨fun present => ?_, ?_⟩,
    resting.stored.manifest⟩
  · obtain ⟨p, hp, rfl⟩ := reached.noOrphans faultless fits id present
    exact ⟨p.1, perm.subset (List.mem_map_of_mem hp), rfl⟩
  · rintro ⟨sst, isListed, rfl⟩
    obtain ⟨p, hp, rfl⟩ := List.mem_map.mp (perm.symm.subset isListed)
    obtain ⟨data, present, -⟩ := resting.stored.files p hp
    exact AList.lookup_isSome.mp (by rw [present]; rfl)
  · by_contra different
    exact AList.lookup_eq_none.mp (kept.logs n different) present
  · rintro rfl
    have present := logged.file
    rw [kept.log] at present
    exact AList.lookup_isSome.mp (by rw [present]; rfl)

/-- Two flushes and two compactions, and the directory opened again: of four tables one is
left. -/
theorem directory_only_in_use_merged : ∃ w, Reached .steady w ∧ OnlyInUse w ∧
    w.eng.nextSstId = 5 ∧ w.eng.sstReaders.length = 1 := by
  obtain ⟨w, reached, fits, tested⟩ := exists_reached
    { memtableSize := 0, l0CompactionThreshold := 1, maxLevels := 2 } {} .steady
    [.put [1] [7], .put [1] [8]]
    (fun w => decide (w.eng.nextSstId = 5) && decide (w.eng.sstReaders.length = 1))
    (by rintro call (_ | ⟨_, _ | ⟨_, ⟨⟩⟩⟩) <;> · rintro key (_ | ⟨_, ⟨⟩⟩); decide)
    (by decide +kernel)
  obtain ⟨ids, readers⟩ := Bool.and_eq_true_iff.mp tested
  have still : Env.steady.Faultless := fun _ => rfl
  exact ⟨w, reached, directory_only_in_use still reached fits, of_decide_eq_true ids,
    of_decide_eq_true readers⟩

end KvEngine
