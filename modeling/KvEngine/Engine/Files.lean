import KvEngine.Engine.Reached

/-!
# The files of a directory

Whatever fails on the way, the SSTable files of a directory are files that were
written as tables, and there is one log only.  Files that a compaction could not
remove may be among them, so this says more than `Stored`, which is about the open
tables.
-/

namespace KvEngine

open Foundations Engine

/-- Every SSTable file opens as a table, and its id leaves room for the next one. -/
def Legible (d : Dir) : Prop :=
  ∀ id data, d.lookup (.sst id) = some data →
    id + 1 < u64Limit ∧ ∃ r, SSTableReader.parse data id = .ok r ∧ r.Holds r.contents

/-- The directory has the log `000001.wal` and no other. -/
def OneLog (d : Dir) : Prop := ∀ n, n ≠ 1 → d.lookup (.wal n) = none

/-- The directory of an engine holds tables and the log that the engine writes. -/
structure Kept (w : World) : Prop where
  tables : Legible w.sys.dir
  logs : OneLog w.sys.dir
  log : w.eng.wal.file.path = .wal 1

variable {w w₁ w' : World} {u : Unit}

/-! ## Changes of the directory -/

/-- Files may go away. -/
theorem Legible.mono {d d' : Dir} (legible : Legible d)
    (kept : ∀ id data, d'.lookup (.sst id) = some data → d.lookup (.sst id) = some data) :
    Legible d' := fun id data present => legible id data (kept id data present)

/-- Removing files brings none back. -/
theorem lookup_of_removals {ops : List FsOp} (removals : ∀ op ∈ ops, ∃ g, op = .remove g) (d : Dir)
    {f : FileName} {data : Bytes} (present : (applyOps ops d).lookup f = some data) :
    d.lookup f = some data := by
  induction ops generalizing d with
  | nil => exact present
  | cons op ops inductionHypothesis =>
      have after := inductionHypothesis (fun o ho => removals o (List.mem_cons_of_mem _ ho)) _ present
      obtain ⟨g, rfl⟩ := removals op List.mem_cons_self
      by_cases same : (FsOp.remove g).file = f
      · obtain rfl : g = f := same
        rw [FsOp.lookup_remove] at after
        cases after
      · rwa [FsOp.lookup_apply_of_ne same] at after

theorem OneLog.of_did {s s' : Sys} {ops : List FsOp} (logs : OneLog s.dir) (did : s.Did ops s')
    (others : ∀ op ∈ ops, ∀ n, n ≠ 1 → op.file ≠ .wal n) : OneLog s'.dir := fun n different => by
  rw [did.lookup_of_ne fun op member => others op member n different]
  exact logs n different

theorem Built.legible {s s' : Sys} {p : Table} (built : Built s p s') (described : p.Described)
    (room : p.1.id + 1 < u64Limit) (legible : Legible s.dir) : Legible s'.dir := by
  intro id data present
  by_cases same : id = p.1.id
  · subst same
    obtain ⟨data', found, parsed⟩ := built.lookup_self
    rw [present] at found
    cases found
    exact ⟨room, p.2, parsed, described.holds⟩
  · rw [built.lookup_of_ne (by simpa using same)] at present
    exact legible id data present

theorem Built.oneLog {s s' : Sys} {p : Table} (built : Built s p s') (logs : OneLog s.dir) :
    OneLog s'.dir := fun n different => by
  rw [built.lookup_of_ne (by simp)]
  exact logs n different

theorem oneLog_manifestOps {s s' : Sys} {m : Manifest} (did : s.Did (manifestOps m) s')
    (logs : OneLog s.dir) : OneLog s'.dir :=
  logs.of_did did (by simp [manifestOps, FsOp.file])

theorem legible_manifestOps {s s' : Sys} {m : Manifest} (did : s.Did (manifestOps m) s')
    (legible : Legible s.dir) : Legible s'.dir :=
  legible.mono fun id data present => by rwa [lookup_sst_manifestOps did] at present

namespace Kept

/-- Writing to the log of the engine changes no other file. -/
theorem of_log (kept : Kept w) {ops : List FsOp} (did : w.sys.Did ops w'.sys)
    (onlyLog : ∀ op ∈ ops, op.file = .wal 1) (log : w'.eng.wal.file.path = .wal 1) : Kept w' := by
  refine ⟨kept.tables.mono fun id data present => ?_,
    kept.logs.of_did did fun op member n different => ?_, log⟩
  · rwa [did.lookup_of_log (fun op member => ⟨1, onlyLog op member⟩) (by simp)] at present
  · rw [onlyLog op member]
    simpa using Ne.symm different

theorem of_logs {data : Bytes} (kept : Kept w) (logs : Logs w data w') : Kept w' := by
  obtain ⟨path, ⟨ops, did, appends⟩, -⟩ := logs
  refine kept.of_log did (fun op member => ?_) (path.trans kept.log)
  obtain ⟨d, rfl⟩ := appends op member
  exact kept.log

/-- What dropping the writer leaves is written to the log. -/
theorem file_of_leftover {s : Sys} {wal : WALWriter} {rest : List FsOp}
    (leftover : BufWriter.Leftover wal.file s rest) (log : wal.file.path = .wal 1) :
    ∀ op ∈ rest, op.file = .wal 1 := by
  intro op member
  rcases leftover with ⟨-, rfl⟩ | ⟨data, rfl, -⟩
  · cases member
  · rw [List.mem_singleton.mp member]
    exact log

/-- Starting the log anew writes to the log only. -/
theorem file_of_reset {s : Sys} {wal : WALWriter} {rest : List FsOp}
    (leftover : BufWriter.Leftover wal.file s rest) (log : wal.file.path = .wal 1) :
    ∀ op ∈ FsOp.truncate (.wal 1) :: rest, op.file = .wal 1 := by
  intro op member
  rcases List.mem_cons.mp member with rfl | isRest
  · rfl
  · exact file_of_leftover leftover log op isRest

theorem drop (kept : Kept w) : Legible (Engine.drop w).dir ∧ OneLog (Engine.drop w).dir := by
  obtain ⟨ops, did, leftover⟩ := BufWriter.drop_did w.eng.wal.file w.sys
  have after : Kept ⟨w.eng, Engine.drop w⟩ :=
    kept.of_log did (file_of_leftover leftover kept.log) kept.log
  exact ⟨after.tables, after.logs⟩

end Kept

/-! ## Steps of the engine -/

namespace Engine

theorem Flush.kept {p : Table} (flush : Flush w p w') (room : p.1.id + 1 < u64Limit)
    (kept : Kept w) : Kept w' := by
  obtain ⟨metrics, eng⟩ := flush.eng
  obtain ⟨s₁, s₂, rest, built, saved, reset, leftover⟩ := flush.sys
  have stored : Kept ⟨w.eng, s₂⟩ :=
    ⟨legible_manifestOps saved (built.legible flush.described room kept.tables),
      oneLog_manifestOps saved (built.oneLog kept.logs), kept.log⟩
  exact stored.of_log reset (Kept.file_of_reset leftover kept.log) (by rw [eng]; rfl)

theorem Compaction.kept {level : Nat} {time : Bytes → Nat} {added : Option Table}
    (compaction : Compaction w level time added w') (ids : w'.eng.nextSstId < u64Limit)
    (kept : Kept w) : Kept w' := by
  have readers := compaction.readers
  obtain ⟨nextSstId, blockCache, metrics, eng⟩ := compaction.eng
  obtain ⟨s₁, s₂, removals, built, removed, sub, saved⟩ := compaction.sys
  have afterBuild : Legible s₁.dir := by
    cases isNew : added with
    | none =>
        rw [isNew] at built
        have same : s₁.dir = w.sys.dir := by rw [Sys.Did.dir built, applyOps_nil]
        rw [same]
        exact kept.tables
    | some p =>
        rw [isNew] at built readers
        have fresh := compaction.tables.fresh p (by rw [readers]; simp)
        exact Built.legible built (compaction.new p isNew).1 (by omega) kept.tables
  refine ⟨legible_manifestOps saved (afterBuild.mono fun id data present => ?_),
    fun n different => ?_, ?_⟩
  · rw [removed.dir] at present
    refine lookup_of_removals (fun op member => ?_) _ present
    obtain ⟨sst, -, rfl⟩ := List.mem_map.mp (sub.subset member)
    exact ⟨_, rfl⟩
  · rw [compaction.lookup_wal]
    exact kept.logs n different
  · rw [eng]
    exact kept.log

theorem kept_compactFrom {n level : Nat} (inv : Inv w) (limits : WithinLimits w'.sys)
    (ids : w.eng.nextSstId < u64Limit) (kept : Kept w) (run : Ends (compactFrom n level) w u w') :
    Kept w' := by
  induction n generalizing w level with
  | zero =>
      obtain ⟨-, rfl⟩ := ends_pure.mp run
      exact kept
  | succ n inductionHypothesis =>
      obtain ⟨u₁, w₁, first, rest⟩ := ends_bind.mp run
      obtain ⟨threshold, -, ⟨-, rfl⟩ | ⟨-, compacts⟩⟩ := ends_compactIfFull first
      · exact inductionHypothesis inv ids kept rest
      · have later : WithinLimits w₁.sys :=
          limits.of_extends (extending_compactFrom _ _ _ _ _ rest).sys
        obtain ⟨time, added, compaction⟩ := ends_compactLevel inv later compacts
        have ids₁ := keepsIds_compactLevel _ _ _ _ compacts ids
        exact inductionHypothesis (compaction.inv inv) ids₁ (compaction.kept ids₁ kept) rest

/-- A flush takes an id that leaves room for the next one. -/
theorem room_of_maybeFlush {imm : SkipList} (frozen : w.eng.memtable.immutable = some imm)
    (run : Ends maybeFlush w u w') : w.eng.nextSstId + 1 < u64Limit := by
  simp only [maybeFlush, ends_bind, ends_self] at run
  obtain ⟨e, w₁, ⟨rfl, rfl⟩, rest⟩ := run
  simp only [MemTable.takeImmutable, frozen, flushImmutable, ends_bind, ends_modifySelf] at rest
  obtain ⟨u₁, w₂, rfl, id, w₃, took, -⟩ := rest
  exact (ends_takeSstId took).2.2

theorem kept_maybeFlush (inv : Inv w) (limits : WithinLimits w'.sys) (kept : Kept w)
    (run : Ends maybeFlush w u w') : Kept w' := by
  rcases ends_maybeFlush_cases inv limits run with
    ⟨-, rfl⟩ | ⟨imm, p, w₁, frozen, invThawed, flush, -, compacts⟩
  · exact kept
  · have room := room_of_maybeFlush frozen run
    have kept₁ : Kept w₁ := flush.kept (by rw [flush.id]; exact room) ⟨kept.tables, kept.logs, kept.log⟩
    have ids : w₁.eng.nextSstId < u64Limit := by
      obtain ⟨metrics, eng⟩ := flush.eng
      rw [eng]
      exact room
    simp only [maybeCompact, ends_bind, ends_self] at compacts
    obtain ⟨e, w₂, ⟨rfl, rfl⟩, compacts⟩ := compacts
    exact kept_compactFrom (flush.inv invThawed) limits ids kept₁ compacts

end Engine

/-! ## Requests, closing and opening -/

theorem Kept.observed (kept : Kept w) (observed : Observed w w') : Kept w' := by
  obtain ⟨c, m, n, rfl⟩ := observed.world
  exact ⟨kept.tables, kept.logs, kept.log⟩

theorem Kept.call (kept : Kept w) (resting : Resting w) {call : Call} (keys : call.KeysFit)
    (limits : WithinLimits w'.sys) (run : Ends call.run w u w') : Kept w' := by
  obtain ⟨w₁, stored, rest⟩ := Engine.ends_call run
  obtain ⟨t, reads, accepted, small⟩ := Engine.ends_store stored
  rcases rest with flushes | ⟨rfl, rfl⟩
  · have inv₁ := accepted.inv resting.inv fun s hs => keys _ (Call.key_mem_keys hs)
    exact kept_maybeFlush inv₁ limits (kept.of_logs accepted.logs) flushes
  · exact kept

theorem Kept.request (kept : Kept w) (resting : Resting w) {request : Request} {response : Response}
    (keys : request.KeysFit) (limits : WithinLimits w'.sys)
    (run : Ends request.run w response w') : Kept w' := by
  rcases resting.ends_request_cases run with ⟨call, rfl, ran⟩ | observed
  · exact kept.call resting keys limits ran
  · exact kept.observed observed

theorem Kept.close (kept : Kept w) (resting : Resting w) (limits : WithinLimits w'.sys)
    (run : Ends close w u w') : Kept w' := by
  obtain ⟨w₁, w₂, flushes, limits₁, flushed, did, same⟩ := resting.ends_close_steps limits run
  have keptFrozen : Kept (frozen w) := ⟨kept.tables, kept.logs, kept.log⟩
  have kept₁ := kept_maybeFlush resting.inv_frozen limits₁ keptFrozen flushes
  have kept₂ : Kept w₂ := kept₁.of_logs (ends_walFlush flushed).1
  refine ⟨legible_manifestOps did kept₂.tables, oneLog_manifestOps did kept₂.logs, ?_⟩
  rw [same]
  exact kept₂.log

/-- The only log of a directory is the one that is opened. -/
theorem OneLog.walPathOf {d : Dir} (logs : OneLog d) : walPathOf d = .wal 1 := by
  unfold KvEngine.walPathOf Option.getD
  split
  · next f found =>
      have isLog := List.find?_some found
      have present : f ∈ d := AList.mem_keys.mp (List.mem_of_find?_eq_some found)
      cases f with
      | wal n =>
          by_contra different
          have absent := logs n fun same => different (by rw [same])
          exact AList.lookup_eq_none.mp absent present
      | manifest => cases isLog
      | sst id => cases isLog
  · rfl

/-- The engine that is opened works on the directory's only log. -/
theorem Kept.opened {s s' : Sys} {opts : Options} {e : Engine} (tables : Legible s.dir)
    (logs : OneLog s.dir) (run : Ends (openWithOptions opts) s e s') : Kept ⟨e, s'⟩ := by
  obtain ⟨recovered, did⟩ := ends_openWithOptions run
  have path := logs.walPathOf
  have onlyLog : ∀ op ∈ openOps s.dir, op.file = .wal 1 := by
    intro op member
    unfold openOps at member
    split at member
    · cases member
    · rw [List.mem_singleton.mp member, ← path]
      rfl
  have log : e.wal.file.path = .wal 1 := by
    rw [recovered.wal]
    exact path
  have before : Kept ⟨e, s⟩ := ⟨tables, logs, log⟩
  exact before.of_log did onlyLog log

/-- Whatever way the engine goes away, the next one finds tables and the log. -/
theorem Kept.reopened (kept : Kept w) (resting : Resting w) {s s' : Sys} (left : Left w s)
    (fits : FilesFit s) {opts : Options} {e : Engine}
    (run : Ends (openWithOptions opts) s e s') : Kept ⟨e, s'⟩ := by
  cases left with
  | @closed w₁ closed =>
      have limits : WithinLimits w₁.sys := by
        obtain ⟨ops, did, -⟩ := BufWriter.drop_did w₁.eng.wal.file w₁.sys
        exact fits.withinLimits.of_extends ⟨ops, did⟩
      obtain ⟨tables, logs⟩ := (kept.close resting limits closed).drop
      exact Kept.opened tables logs run
  | dropped =>
      obtain ⟨tables, logs⟩ := kept.drop
      exact Kept.opened tables logs run
  | killed => exact Kept.opened kept.tables kept.logs run

/-- **In every reachable state** the directory holds tables and the engine's log. -/
theorem ReachedBy.kept {env : Env} {Serves : World → Request → Prop} {Opens : Sys → Prop}
    (reached : ReachedBy env Serves Opens w) (fits : FilesFit w.sys) : Kept w := by
  refine reached.induct fits (fun opts e s run => ?_) (fun w request response w' resting _ fits keys
    _ run kept => ?_) (fun w s opts e s' resting _ left fits _ run kept => ?_)
  · refine Kept.opened (fun id data present => ?_) (fun n _ => rfl) run
    cases present
  · exact kept.request resting keys fits.withinLimits run
  · exact kept.reopened resting left fits run

end KvEngine
