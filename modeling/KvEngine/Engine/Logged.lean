import KvEngine.Engine.Files

/-!
# What the log holds

Records are handed to the buffered writer one at a time, and the writer keeps each
one whole: the log file holds some records and the buffer the ones behind them.
-/

namespace KvEngine

open Foundations Engine

/-- The log file holds the records `rs`, and the buffer of its writer the records `bs`. -/
structure Logged (w : World) (rs bs : List Record) : Prop where
  file : w.sys.dir.lookup w.eng.wal.file.path = some (encodeLog w.sys.env.crc rs)
  buf : w.eng.wal.file.buf = encodeLog w.sys.env.crc bs
  room : w.eng.wal.file.buf.length ≤ BufWriter.capacity

variable {w w₁ w' : World} {u : Unit} {rs bs : List Record}

theorem encodeLog_singleton (crc : Bytes → UInt32) (r : Record) :
    encodeLog crc [r] = r.encode crc := by
  simp [encodeLog]

namespace Logged

/-- A step that leaves the log and its writer alone. -/
theorem frame (logged : Logged w rs bs) (wal : w'.eng.wal = w.eng.wal)
    (crc : w'.sys.env.crc = w.sys.env.crc)
    (file : w'.sys.dir.lookup w.eng.wal.file.path = w.sys.dir.lookup w.eng.wal.file.path) :
    Logged w' rs bs := by
  refine ⟨?_, ?_, ?_⟩
  · rw [wal, crc, file]
    exact logged.file
  · rw [wal, crc]
    exact logged.buf
  · rw [wal]
    exact logged.room

/-- Changes of other files leave the log alone. -/
theorem of_did (logged : Logged w rs bs) {ops : List FsOp} (did : w.sys.Did ops w'.sys)
    (wal : w'.eng.wal = w.eng.wal) (others : ∀ op ∈ ops, op.file ≠ w.eng.wal.file.path) :
    Logged w' rs bs :=
  logged.frame wal (by rw [did.env]) (did.lookup_of_ne others)

/-- Every record in the log fits its format. -/
theorem fits (logged : Logged w rs bs) (limits : FilesFit w.sys)
    (history : w.sys.dir = applyOps w.sys.journal ∅) : ∀ r ∈ rs ++ bs, r.Fits := by
  have part : ∀ (l : List Record), (encodeLog w.sys.env.crc l).length < 2 ^ 32 →
      ∀ r ∈ l, r.Fits := by
    intro l small r member
    have inside : (r.encode w.sys.env.crc).length ≤ (encodeLog w.sys.env.crc l).length :=
      Manifest.length_le_flatMap member
    rw [Record.encode_eq, List.length_append, length_leBytes, Record.length_body] at inside
    unfold Record.Fits
    omega
  intro r member
  rcases List.mem_append.mp member with inFile | inBuf
  · exact part rs (limits.lookup history logged.file) r inFile
  · refine part bs ?_ r inBuf
    have room := logged.room
    rw [logged.buf] at room
    exact room.trans_lt (by decide)

/-! ## Writing -/

theorem append (logged : Logged w rs bs) {record : Record}
    (run : Ends (onWal (WALWriter.appendRecord record)) w u w') :
    ∃ rs' bs', Logged w' rs' bs' ∧ rs' ++ bs' = rs ++ bs ++ [record] := by
  simp only [ends_onWal, WALWriter.appendRecord, WALWriter.onFile, ends_bind, ends_get,
    ends_zoom] at run
  obtain ⟨p, ⟨a, p₁, ⟨rfl, rfl⟩, q, written, rfl⟩, rfl⟩ := run
  have wrote := BufWriter.wrote_writeAll written
  have path : q.1.path = w.eng.wal.file.path := wrote.path
  have env : q.2.env = w.sys.env := wrote.env
  obtain ⟨⟨new, present, placed⟩, room⟩ := BufWriter.placed_writeAll written logged.file
  simp only at placed present
  rw [logged.buf, ← encodeLog_singleton] at placed
  have after : ∀ rs' bs', new = encodeLog w.sys.env.crc rs' → q.1.buf = encodeLog w.sys.env.crc bs' →
      Logged ⟨{ w.eng with wal := ⟨q.1⟩ }, q.2⟩ rs' bs' := by
    intro rs' bs' inFile inBuf
    refine ⟨?_, ?_, room logged.room⟩
    · change q.2.dir.lookup q.1.path = some (encodeLog q.2.env.crc rs')
      rw [path, env, present, inFile]
    · change q.1.buf = encodeLog q.2.env.crc bs'
      rw [env, inBuf]
  generalize buffered : q.1.buf = buf at placed after
  cases placed with
  | buffered => exact ⟨rs, bs ++ [record], after _ _ rfl (encodeLog_append _ _).symm,
      (List.append_assoc _ _ _).symm⟩
  | flushed => exact ⟨rs ++ bs, [record], after _ _ (encodeLog_append _ _).symm rfl, rfl⟩
  | written =>
      refine ⟨rs ++ bs ++ [record], [], after _ _ ?_ rfl, List.append_nil _⟩
      rw [encodeLog_append, encodeLog_append]

theorem flush (logged : Logged w rs bs) (run : Ends (onWal WALWriter.flush) w u w') :
    Logged w' (rs ++ bs) [] := by
  obtain ⟨logs, empty, eng⟩ := ends_walFlush run
  obtain ⟨path, ⟨ops, did, appends⟩, content⟩ := logs
  obtain ⟨new, present, total⟩ := content _ logged.file
  simp only at path present total did
  rw [empty, List.append_nil, List.append_nil, logged.buf, ← encodeLog_append] at total
  refine ⟨?_, empty, by rw [empty]; exact Nat.zero_le _⟩
  rw [path, present, total, did.env]

theorem sync (logged : Logged w rs bs) (run : Ends syncWal w u w') :
    ∃ rs' bs', Logged w' rs' bs' ∧ rs' ++ bs' = rs ++ bs := by
  simp only [syncWal, ends_bind, ends_self] at run
  obtain ⟨e, w₁, ⟨rfl, rfl⟩, rest⟩ := run
  split at rest
  · exact ⟨rs ++ bs, [], logged.flush rest, List.append_nil _⟩
  · obtain ⟨-, rfl⟩ := ends_pure.mp rest
    exact ⟨rs, bs, logged, rfl⟩

theorem memtablePut (logged : Logged w rs bs) {key value : Bytes}
    (run : Ends (memtablePut key value) w u w') : Logged w' rs bs := by
  obtain ⟨-, eng, did⟩ := ends_memtablePut run
  exact logged.of_did did (by rw [eng]) (by simp)

theorem logAndApply (logged : Logged w rs bs) {record : Record} {count : Metrics → Metrics}
    (run : Ends (logAndApply record count) w u w') :
    ∃ rs' bs', Logged w' rs' bs' ∧ rs' ++ bs' = rs ++ bs ++ [record] := by
  simp only [Engine.logAndApply, ends_bind, ends_modifySelf] at run
  obtain ⟨u₁, w₁, appended, u₂, w₂, synced, u₃, w₃, stored, rfl⟩ := run
  obtain ⟨rs₁, bs₁, logged₁, total₁⟩ := logged.append appended
  obtain ⟨rs₂, bs₂, logged₂, total₂⟩ := logged₁.sync synced
  exact ⟨rs₂, bs₂, (logged₂.memtablePut stored).frame rfl rfl rfl, total₂.trans total₁⟩

theorem logBatch (logged : Logged w rs bs) {ops : List BatchOp} (run : Ends (logBatch ops) w u w') :
    ∃ rs' bs', Logged w' rs' bs' ∧ rs' ++ bs' = rs ++ bs ++ ops.map batchRecord := by
  induction ops generalizing w rs bs with
  | nil =>
      obtain ⟨-, rfl⟩ := ends_pure.mp run
      exact ⟨rs, bs, logged, (List.append_nil _).symm⟩
  | cons op ops inductionHypothesis =>
      obtain ⟨u₁, w₁, appended, later⟩ := ends_bind.mp run
      obtain ⟨rs₁, bs₁, logged₁, total₁⟩ := logged.append appended
      obtain ⟨rs₂, bs₂, logged₂, total₂⟩ := inductionHypothesis logged₁ later
      refine ⟨rs₂, bs₂, logged₂, ?_⟩
      rw [total₂, total₁, List.append_assoc, List.map_cons, List.singleton_append]

theorem applyBatch (logged : Logged w rs bs) {ops : List BatchOp}
    (run : Ends (applyBatch ops) w u w') : Logged w' rs bs := by
  obtain ⟨-, did, memtable, eng⟩ := ends_applyBatch run
  exact logged.of_did did (by rw [eng]) (by simp)

/-- **Storing logs** the records of the call behind the others. -/
theorem store (logged : Logged w rs bs) {call : Call} (run : Ends call.store w u w') :
    ∃ rs' bs', Logged w' rs' bs' ∧
      rs' ++ bs' = rs ++ bs ++ (call.stores w.eng.nextSeq w.sys.time).map Store.record := by
  cases call with
  | put key value =>
      obtain ⟨seq, w₁, took, applied⟩ := ends_bind.mp run
      obtain ⟨rfl, -, rfl⟩ := ends_takeSeq took
      have counted : Logged ⟨{ w.eng with nextSeq := w.eng.nextSeq + 1 }, w.sys⟩ rs bs :=
        logged.frame rfl rfl rfl
      exact counted.logAndApply applied
  | delete key =>
      obtain ⟨seq, w₁, took, applied⟩ := ends_bind.mp run
      obtain ⟨rfl, -, rfl⟩ := ends_takeSeq took
      have counted : Logged ⟨{ w.eng with nextSeq := w.eng.nextSeq + 1 }, w.sys⟩ rs bs :=
        logged.frame rfl rfl rfl
      exact counted.logAndApply applied
  | putWithTtl key value ttl =>
      simp only [Call.store, storeWithTtl, ends_bind, ends_onSys, ends_liftResult,
        checkedAdd_eq_ok] at run
      obtain ⟨t, w₁, ⟨s, read, rfl⟩, expiry, w₂, ⟨⟨-, rfl⟩, rfl⟩, seq, w₃, took, applied⟩ := run
      obtain ⟨rfl, -, rfl⟩ := ends_takeSeq took
      obtain ⟨rfl, rfl⟩ := Ends.unique read (now_run w.sys)
      have counted : Logged ⟨{ w.eng with nextSeq := w.eng.nextSeq + 1 }, w.sys.later 1⟩ rs bs :=
        logged.frame rfl rfl rfl
      exact counted.logAndApply applied
  | writeBatch batch =>
      simp only [Call.store] at run
      split at run
      · next empty =>
          obtain ⟨-, rfl⟩ := ends_pure.mp run
          have none : batch.ops = [] := by simpa [WriteBatch.isEmpty] using empty
          exact ⟨rs, bs, logged, by simp [Call.stores, none]⟩
      · simp only [storeBatch, ends_bind] at run
        obtain ⟨u₁, w₁, logs, u₂, w₂, flushed, applied⟩ := run
        obtain ⟨rs₁, bs₁, logged₁, total⟩ := logged.logBatch logs
        refine ⟨rs₁ ++ bs₁, [], (logged₁.flush flushed).applyBatch applied, ?_⟩
        rw [List.append_nil, total, Call.stores, List.map_map]
        rfl

end Logged

/-! ## Flushing and dropping -/

/-- Dropping a writer loses nothing of its buffer: the buffer is empty, or no file
operation fails. -/
def DropsAll (w : World) : Prop := w.eng.wal.file.buf = [] ∨ w.sys.env.Faultless

namespace Logged

/-- What is dropped reaches the end of the file. -/
theorem leftover (logged : Logged w rs bs) (all : DropsAll w) {s : Sys} {rest : List FsOp}
    (env : s.env = w.sys.env) (leftover : BufWriter.Leftover w.eng.wal.file s rest) {d : Dir}
    {before : List Record}
    (present : d.lookup w.eng.wal.file.path = some (encodeLog w.sys.env.crc before)) :
    (applyOps rest d).lookup w.eng.wal.file.path =
      some (encodeLog w.sys.env.crc (before ++ bs)) := by
  rcases leftover with ⟨empty, rfl⟩ | ⟨data, rfl, isPrefix, whole⟩
  · rw [logged.buf] at empty
    rw [applyOps_nil, present, encodeLog_append, empty, List.append_nil]
  · have same : data = w.eng.wal.file.buf := by
      rcases all with empty | faultless
      · rw [empty] at isPrefix ⊢
        exact List.prefix_nil.mp isPrefix
      · exact whole (env ▸ faultless)
    rw [applyOps_cons, applyOps_nil, FsOp.lookup_append present, same, logged.buf, encodeLog_append]

/-- A flush empties the log; the old writer then leaves its buffer in it. -/
theorem flushed (logged : Logged w rs bs) {p : Table} (flush : Flush w p w')
    (log : w.eng.wal.file.path = .wal 1) (all : DropsAll w) : Logged w' bs [] := by
  obtain ⟨metrics, eng⟩ := flush.eng
  obtain ⟨s₁, s₂, rest, built, saved, reset, leftover⟩ := flush.sys
  have emptied : ((FsOp.truncate (.wal 1)).apply s₂.dir).lookup w.eng.wal.file.path =
      some (encodeLog w.sys.env.crc []) := by
    rw [log]
    exact FsOp.lookup_truncate _ _
  have file := logged.leftover all rfl leftover emptied
  rw [List.nil_append, log] at file
  have env : w'.sys.env = w.sys.env := by
    obtain ⟨ops, did⟩ := flush.did
    exact did.env
  refine ⟨?_, ?_, ?_⟩
  · rw [eng, reset.dir, applyOps_cons, env]
    exact file
  · rw [eng]
    rfl
  · rw [eng]
    exact Nat.zero_le _

theorem compaction (logged : Logged w rs bs) {level : Nat} {time : Bytes → Nat}
    {added : Option Table} (compaction : Compaction w level time added w')
    (log : w.eng.wal.file.path = .wal 1) : Logged w' rs bs := by
  obtain ⟨ops, did⟩ := compaction.did
  obtain ⟨nextSstId, blockCache, metrics, eng⟩ := compaction.eng
  refine logged.frame (by rw [eng]) (by rw [did.env]) ?_
  rw [log]
  exact compaction.lookup_wal 1

theorem compactions (logged : Logged w rs bs) (compactions : Compactions w w')
    (log : w.eng.wal.file.path = .wal 1) : Logged w' rs bs := by
  induction compactions with
  | done => exact logged
  | step _ compaction _ inductionHypothesis =>
      refine inductionHypothesis (logged.compaction compaction log) ?_
      obtain ⟨nextSstId, blockCache, metrics, eng⟩ := compaction.eng
      rw [eng]
      exact log

/-- Without a frozen list nothing is flushed; otherwise the log holds at most what the
writer's buffer held. -/
theorem flushing (logged : Logged w rs bs) (flushing : Flushing w w')
    (log : w.eng.wal.file.path = .wal 1) (all : DropsAll w) :
    (w.eng.memtable.immutable = none ∧ w' = w) ∨
      (w.eng.memtable.immutable.isSome ∧ Logged w' bs []) := by
  cases flushing with
  | nothing free same => exact Or.inl ⟨free, same⟩
  | flush isFrozen _ flush _ compactions =>
      refine Or.inr ⟨by rw [isFrozen]; rfl, ?_⟩
      have thawedLog : Logged (thawed w) rs bs := logged.frame rfl rfl rfl
      refine (thawedLog.flushed flush log all).compactions compactions ?_
      obtain ⟨metrics, eng⟩ := flush.eng
      rw [eng]
      rfl

/-- Dropping the engine writes out the buffer. -/
theorem dropped (logged : Logged w rs bs) (all : DropsAll w) :
    (Engine.drop w).dir.lookup w.eng.wal.file.path =
      some (encodeLog w.sys.env.crc (rs ++ bs)) := by
  obtain ⟨ops, did, left⟩ := BufWriter.drop_did w.eng.wal.file w.sys
  change (BufWriter.drop w.eng.wal.file w.sys).dir.lookup _ = _
  rw [did.dir]
  exact logged.leftover all rfl left logged.file

end Logged

/-! ## Closing and leaving -/

namespace Logged

/-- **Closing** writes out the records, but for those that the flush of the active list
truncates. -/
theorem closed (logged : Logged w rs bs) (resting : Resting w) (kept : Kept w) (all : DropsAll w)
    (limits : WithinLimits w'.sys) (run : Ends close w u w') :
    Logged w' (if (frozen w).eng.memtable.immutable.isSome then bs else rs ++ bs) [] := by
  obtain ⟨w₁, w₂, flushes, limits₁, flushed, did, same⟩ := resting.ends_close_steps limits run
  have wal : w'.eng.wal = w₂.eng.wal := by rw [same]
  have path : w₂.eng.wal.file.path = .wal 1 := wal ▸ (kept.close resting limits run).log
  have finish : ∀ ts us, Logged w₁ ts us → Logged w' (ts ++ us) [] := fun ts us logged₁ =>
    (logged₁.flush flushed).of_did did wal (by rw [path]; simp [manifestOps, FsOp.file])
  have loggedFrozen : Logged (frozen w) rs bs := logged.frame rfl rfl rfl
  rcases loggedFrozen.flushing (flushing_of_maybeFlush resting.inv_frozen limits₁ flushes) kept.log
    all with ⟨free, rfl⟩ | ⟨taken, logged₁⟩
  · rw [free, Option.isSome_none, if_neg Bool.false_ne_true]
    exact finish rs bs loggedFrozen
  · rw [taken, if_pos rfl]
    exact List.append_nil bs ▸ finish bs [] logged₁

/-- When the engine goes away, the log file holds some of its records. -/
theorem left (logged : Logged w rs bs) (resting : Resting w) (kept : Kept w) (all : DropsAll w)
    {s : Sys} (left : Left w s) (limits : WithinLimits s) :
    ∃ ts, s.dir.lookup (.wal 1) = some (encodeLog s.env.crc ts) ∧ OneLog s.dir ∧
      ∀ r ∈ ts, r ∈ rs ++ bs := by
  have drops : ∀ {w : World} {rs bs : List Record}, Logged w rs bs → Kept w → DropsAll w →
      (Engine.drop w).dir.lookup (.wal 1) = some (encodeLog (Engine.drop w).env.crc (rs ++ bs)) := by
    intro w rs bs logged kept all
    obtain ⟨ops, did, -⟩ := BufWriter.drop_did w.eng.wal.file w.sys
    have env : (Engine.drop w).env = w.sys.env := did.env
    rw [env, ← logged.dropped all, kept.log]
  cases left with
  | @closed w₁ run =>
      obtain ⟨ops, did, -⟩ := BufWriter.drop_did w₁.eng.wal.file w₁.sys
      have limits₁ : WithinLimits w₁.sys := limits.of_extends ⟨ops, did⟩
      have logged₁ := logged.closed resting kept all limits₁ run
      have kept₁ := kept.close resting limits₁ run
      refine ⟨_, drops logged₁ kept₁ (Or.inl logged₁.buf), kept₁.drop.2, fun r member => ?_⟩
      rw [List.append_nil] at member
      split at member
      · exact List.mem_append_right rs member
      · exact member
  | dropped => exact ⟨_, drops logged kept all, kept.drop.2, fun r member => member⟩
  | killed =>
      refine ⟨rs, ?_, kept.logs, fun r member => List.mem_append_left bs member⟩
      rw [← kept.log]
      exact logged.file

end Logged

/-! ## Opening -/

/-- The records that are replayed are those of the log file. -/
theorem logOf_of_lookup {crc : Bytes → UInt32} {d : Dir} {rs : List Record} (logs : OneLog d)
    (file : d.lookup (.wal 1) = some (encodeLog crc rs)) (fits : ∀ r ∈ rs, r.Fits) :
    logOf crc d = .ok rs := by
  rw [logOf, logs.walPathOf, file]
  exact WALReader.collect_encodeLog fits

/-- An engine that is opened goes on with the log it finds. -/
theorem Logged.opened {s s' : Sys} {opts : Options} {e : Engine} (logs : OneLog s.dir)
    (file : (s.dir.lookup (.wal 1)).getD [] = encodeLog s.env.crc rs)
    (run : Ends (openWithOptions opts) s e s') : Logged ⟨e, s'⟩ rs [] := by
  obtain ⟨recovered, did⟩ := ends_openWithOptions run
  have path := logs.walPathOf
  refine ⟨?_, by rw [recovered.wal]; rfl, by rw [recovered.wal]; exact Nat.zero_le _⟩
  rw [recovered.wal, did.dir, did.env, path]
  unfold openOps
  rw [path]
  cases found : s.dir.lookup (.wal 1) with
  | none =>
      rw [found] at file
      rw [Option.isSome_none, if_neg (by simp), applyOps_cons, applyOps_nil, FsOp.lookup_truncate,
        ← file]
      rfl
  | some data =>
      rw [found] at file
      rw [Option.isSome_some, if_pos rfl, applyOps_nil, found]
      exact congrArg some file

/-! ## Runs in which no file operation fails -/

/-- **One call** logs what it stores, and flushes the log at most. -/
theorem Logged.call (logged : Logged w rs bs) (resting : Resting w) (kept : Kept w) {call : Call}
    (faultless : w.sys.env.Faultless) (keys : call.KeysFit) (limits : WithinLimits w'.sys)
    (run : Ends call.run w u w') :
    ∃ rs' bs', Logged w' rs' bs' ∧ ∀ r ∈ rs' ++ bs',
      r ∈ rs ++ bs ++ (call.stores w.eng.nextSeq w.sys.time).map Store.record := by
  obtain ⟨w₁, stored, rest⟩ := Engine.ends_call run
  have accepted := (ends_store_now stored).1
  obtain ⟨rs₁, bs₁, logged₁, total⟩ := logged.store stored
  rcases rest with flushes | ⟨rfl, rfl⟩
  · have inv₁ : Inv w₁ := accepted.inv resting.inv fun s hs => keys _ (Call.key_mem_keys hs)
    have all : DropsAll w₁ := Or.inr ((extending_store call _ _ _ stored).sys.env ▸ faultless)
    rcases logged₁.flushing (flushing_of_maybeFlush inv₁ limits flushes)
      (kept.of_logs accepted.logs).log all with ⟨-, rfl⟩ | ⟨-, logged'⟩
    · exact ⟨rs₁, bs₁, logged₁, fun r member => total ▸ member⟩
    · refine ⟨bs₁, [], logged', fun r member => total ▸ List.mem_append_right rs₁ ?_⟩
      rwa [List.append_nil] at member
  · exact ⟨rs, bs, logged, fun r member => List.mem_append_left _ member⟩

/-- In every reachable state the log holds whole records. -/
theorem ReachedBy.logged {env : Env} {Serves : World → Request → Prop} {Opens : Sys → Prop}
    (reached : ReachedBy env Serves Opens w) (faultless : env.Faultless) (fits : FilesFit w.sys) :
    ∃ rs bs, Logged w rs bs := by
  have all : (Kept w ∧ w.sys.env.Faultless) ∧ ∃ rs bs, Logged w rs bs := by
    refine reached.induct fits
      (P := fun w => (Kept w ∧ w.sys.env.Faultless) ∧ ∃ rs bs, Logged w rs bs)
      (fun opts e s run => ?_)
      (fun w request response w' resting _ fits keys meets run before => ?_)
      (fun w s opts e s' resting _ left fits _ run before => ?_)
    · have empty : ((Sys.initial env).dir.lookup (.wal 1)).getD [] = encodeLog env.crc [] := rfl
      have kept : Kept ⟨e, s⟩ :=
        Kept.opened (fun id data present => by cases present) (fun n _ => rfl) run
      exact ⟨⟨kept, by rw [(ends_openWithOptions run).2.env]; exact faultless⟩,
        [], [], .opened (fun n _ => rfl) empty run⟩
    · obtain ⟨⟨kept, quiet⟩, rs, bs, logged⟩ := before
      have env := (extending_request _ _ _ _ run).sys.env
      refine ⟨⟨kept.request resting keys fits.withinLimits run, env ▸ quiet⟩, ?_⟩
      rcases resting.ends_request_cases run with ⟨call, rfl, ran⟩ | observed
      · obtain ⟨rs', bs', logged', -⟩ := logged.call resting kept quiet keys fits.withinLimits ran
        exact ⟨rs', bs', logged'⟩
      · obtain ⟨c, m, n, rfl⟩ := observed.world
        exact ⟨rs, bs, logged.frame rfl rfl rfl⟩
    · obtain ⟨⟨kept, quiet⟩, rs, bs, logged⟩ := before
      obtain ⟨ts, file, logs, -⟩ := logged.left resting kept (Or.inr quiet) left fits.withinLimits
      have env : s'.env = w.sys.env := (ends_openWithOptions run).2.env.trans left.extends.env
      exact ⟨⟨kept.reopened resting left fits run, env ▸ quiet⟩,
        ts, [], .opened logs (by rw [file]; rfl) run⟩
  exact all.2

end KvEngine
