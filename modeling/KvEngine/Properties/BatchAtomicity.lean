import KvEngine.Engine.Logged
import KvEngine.Engine.Recovery
import KvEngine.Foundations.Updates
import KvEngine.Properties.LogRecovery

/-!
# Batches and crashes

A batch is logged one operation after the other, each in a record of its own.  A crash
in between leaves the first ones in the log, and the replay applies them.
-/

namespace KvEngine

open Foundations Engine WALReader

variable {w w₁ : World} {u : Unit} {t : Nat} {ops : List BatchOp} {rs bs : List Record}

/-- Logging the operations, the first part of `write_batch`. -/
def logWhole (ops : List BatchOp) : EngineM Unit := do
  logBatch ops
  onWal WALWriter.flush

/-- What was handed to the log, written or buffered. -/
def logBytes (w : World) : Bytes :=
  (w.sys.dir.lookup w.eng.wal.file.path).getD [] ++ w.eng.wal.file.buf

/-- The records that were handed to the log. -/
def logRecords (w : World) : List Record :=
  (collect (items w.sys.env.crc (logBytes w))).toOption.getD []

/-- The directory after a crash.  Of the bytes by which the log grew from `w` to `w₁` the
first `n` are there. -/
def cutAt (w w₁ : World) (n : Nat) : Sys :=
  let log := (w₁.sys.dir.lookup w.eng.wal.file.path).getD []
  { w₁.sys with
    dir := w₁.sys.dir.insert w.eng.wal.file.path (log.take ((logBytes w).length + n)) }

/-- Wherever the crash cuts, what is recovered is what is recovered without the batch or
with all of it. -/
def BatchAtomic (opts : Options) (w w₁ : World) : Prop :=
  ∃ without whole, Recovers opts (cutAt w w₁ 0) without ∧ Recovers opts w₁.sys whole ∧
    ∀ n, Recovers opts (cutAt w w₁ n) without ∨ Recovers opts (cutAt w w₁ n) whole

/-- What the operation shows for its key when it is replayed. -/
def replayedOp (t : Nat) (op : BatchOp) : Bytes × Option Bytes := (op.key, shown t (batchValue op))

/-! ## Replay -/

/-- A record is an update of what is shown. -/
theorem replayed_concat (w : World) (t : Nat) (rs : List Record) (r : Record) :
    replayed w t (rs ++ [r]) =
      Function.update (replayed w t rs) r.key (shown t (replayValue r)) := by
  funext key
  rw [replayed, List.map_append, SortedMap.insertAll_append]
  show ((((SortedMap.empty.insertAll (rs.map Record.binding)).insert r.key
    (replayValue r)).lookup key).or _).bind _ = _
  rw [SortedMap.lookup_insert]
  by_cases same : key = r.key
  · rw [if_pos same, same, Function.update_self]
    rfl
  · rw [if_neg same, Function.update_of_ne same, replayed]

/-- The operations of a batch update what is shown, one after the other. -/
theorem replayed_batch (w : World) (t : Nat) (rs : List Record) (ops : List BatchOp) :
    replayed w t (rs ++ ops.map batchRecord) =
      updates (replayed w t rs) (ops.map (replayedOp t)) := by
  induction ops using List.reverseRecOn with
  | nil => rw [List.map_nil, List.append_nil, List.map_nil, updates_nil]
  | append_singleton ops op inductionHypothesis =>
      rw [List.map_append, List.map_append, ← List.append_assoc, List.map_singleton,
        List.map_singleton, replayed_concat, inductionHypothesis, updates_concat]
      cases op <;> rfl

/-- Cut behind some records, a log holds these records. -/
theorem completeWithin_encodeLog (crc : Bytes → UInt32) (rs ts : List Record) :
    completeWithin crc (encodeLog crc rs).length (rs ++ ts) = rs := by
  induction rs with
  | nil =>
      cases ts with
      | nil => rfl
      | cons r ts =>
          have long : ¬ (r.encode crc).length ≤ (encodeLog crc []).length := by
            rw [Record.length_encode]
            simp [encodeLog]
          rw [List.nil_append, completeWithin, if_neg long]
  | cons r rs inductionHypothesis =>
      have length : (encodeLog crc (r :: rs)).length =
          (r.encode crc).length + (encodeLog crc rs).length := by
        rw [encodeLog, List.flatMap_cons, List.length_append]
        rfl
      rw [List.cons_append, completeWithin, length, if_pos (Nat.le_add_right _ _),
        Nat.add_sub_cancel_left, inductionHypothesis]

/-! ## Logging and crashing -/

/-- Logging the batch writes out its records behind the others. -/
theorem Logged.whole (logged : Logged w rs bs) (run : Ends (logWhole ops) w u w₁) :
    Logged w₁ (rs ++ bs ++ ops.map batchRecord) [] ∧
      w₁.eng.wal.file.path = w.eng.wal.file.path ∧
      ∃ changes, w.sys.Did changes w₁.sys ∧ ∀ op ∈ changes, op.file = w.eng.wal.file.path := by
  obtain ⟨u₁, w₂, logs, flushes⟩ := ends_bind.mp run
  obtain ⟨rs₂, bs₂, logged₂, total⟩ := logged.logBatch logs
  have wrote := (ends_logBatch logs).1.trans (ends_walFlush flushes).1
  obtain ⟨path, ⟨changes, did, appends⟩, -⟩ := wrote
  refine ⟨total ▸ logged₂.flush flushes, path, changes, did, fun op member => ?_⟩
  obtain ⟨d, rfl⟩ := appends op member
  rfl

theorem Logged.logRecords_eq (logged : Logged w rs bs) (fits : FilesFit w.sys)
    (history : w.sys.dir = applyOps w.sys.journal ∅) : logRecords w = rs ++ bs := by
  rw [logRecords, logBytes, logged.file, logged.buf, Option.getD_some, ← encodeLog_append,
    collect_encodeLog (logged.fits fits history)]
  rfl

section Crash

variable (resting : Resting w) (kept : Kept w) (faultless : w.sys.env.Faultless)
  (still : w.sys.ClockAt t) (run : Ends (logWhole ops) w u w₁) (fits : FilesFit w₁.sys)
  (logged : Logged w rs bs)

include resting kept faultless still run fits logged

/-- **After a crash** the records that are completely in the log are recovered. -/
theorem recovers_cutAt (opts : Options) (n : Nat) : Recovers opts (cutAt w w₁ n)
    (replayed w t (rs ++ bs ++ completeWithin w.sys.env.crc n (ops.map batchRecord))) := by
  obtain ⟨logged₁, path, changes, did, onlyLog⟩ := logged.whole run
  have goesOn : w.sys.Extends w₁.sys := ⟨changes, did⟩
  have env : (cutAt w w₁ n).env = w.sys.env := did.env
  have short := logged₁.fits fits (did.history resting.inv.history)
  rw [List.append_nil] at short
  have file : (cutAt w w₁ n).dir.lookup (.wal 1) = some (encodeLog w.sys.env.crc (rs ++ bs) ++
      (encodeLog w.sys.env.crc (ops.map batchRecord)).take n) := by
    have written := logged₁.file
    rw [path, did.env] at written
    show (w₁.sys.dir.insert _ _).lookup _ = _
    rw [← kept.log, AList.lookup_insert, written, Option.getD_some, logBytes, logged.file,
      logged.buf, Option.getD_some, ← encodeLog_append, encodeLog_append (rs ++ bs),
      List.take_length_add_append]
  have still₁ : w₁.sys.ClockAt t := still.of_extends goesOn
  refine resting.recovers_log (s := cutAt w w₁ n) kept (fits.of_extends goesOn) (env ▸ faultless)
    still₁ (fun f different => ?_) file ?_ opts
  · rw [← kept.log] at different
    show (w₁.sys.dir.insert _ _).lookup f = _
    rw [AList.lookup_insert_ne different]
    exact did.lookup_of_ne fun op member => (onlyLog op member).trans_ne different.symm
  · rw [env, items_encodeLog_append _ fun r member => short r (List.mem_append_left _ member),
      items_take _ fun r member => short r (List.mem_append_right _ member), ← List.map_append,
      collect_ok]

/-- Without a crash all records of the batch are recovered. -/
theorem recovers_whole (opts : Options) :
    Recovers opts w₁.sys (replayed w t (rs ++ bs ++ ops.map batchRecord)) := by
  obtain ⟨logged₁, path, changes, did, onlyLog⟩ := logged.whole run
  have goesOn : w.sys.Extends w₁.sys := ⟨changes, did⟩
  have short := logged₁.fits fits (did.history resting.inv.history)
  rw [List.append_nil] at short
  have file := logged₁.file
  rw [path, kept.log] at file
  refine resting.recovers_log kept (fits.of_extends goesOn) (did.env ▸ faultless)
    (still.of_extends goesOn) (fun f different => ?_) file (collect_encodeLog short) opts
  rw [← kept.log] at different
  exact did.lookup_of_ne fun op member => (onlyLog op member).trans_ne different.symm

end Crash

/-- **A batch is atomic** across a crash exactly when it changes the value of at most one
key, and only to the value that the key has in the end. -/
theorem batch_atomic_iff {env : Env} {Serves : World → Request → Prop} {Opens : Sys → Prop}
    (reached : ReachedBy env Serves Opens w) (faultless : env.Faultless)
    (run : Ends (logWhole ops) w u w₁) (fits : FilesFit w₁.sys) (still : w.sys.ClockAt t)
    (opts : Options) :
    BatchAtomic opts w w₁ ↔
      ∃ key, OnlyChanges (replayed w t (logRecords w)) (ops.map (replayedOp t)) key := by
  have goesOn : w.sys.Extends w₁.sys :=
    ((extending_logBatch ops).bind fun _ => extending_walFlush) _ _ _ run |>.sys
  have fitsBefore := fits.of_extends goesOn
  have resting := reached.resting fitsBefore
  have kept := reached.kept fitsBefore
  have noFault : w.sys.env.Faultless := reached.env_eq ▸ faultless
  obtain ⟨rs, bs, logged⟩ := reached.logged faultless fitsBefore
  have cut := recovers_cutAt resting kept noFault still run fits logged opts
  have whole := recovers_whole resting kept noFault still run fits logged opts
  rw [replayed_batch] at whole
  rw [logged.logRecords_eq fitsBefore resting.inv.history, ← atomic_iff]
  generalize isBefore : replayed w t (rs ++ bs) = before at whole
  -- the first operations are recovered if the cut is right behind them
  have part : ∀ n, Recovers opts
      (cutAt w w₁ (encodeLog w.sys.env.crc ((ops.take n).map batchRecord)).length)
      (updates before ((ops.map (replayedOp t)).take n)) := by
    intro n
    have split : ops.map batchRecord =
        (ops.take n).map batchRecord ++ (ops.drop n).map batchRecord := by
      rw [← List.map_append, List.take_append_drop]
    have some := cut (encodeLog w.sys.env.crc ((ops.take n).map batchRecord)).length
    rwa [split, completeWithin_encodeLog, replayed_batch, isBefore,
      List.map_take (f := replayedOp t)] at some
  constructor
  · rintro ⟨without, all, recoversNone, recoversAll, atomic⟩ n
    obtain rfl : without = before := recoversNone.unique (part 0)
    obtain rfl := recoversAll.unique whole
    rcases atomic (encodeLog w.sys.env.crc ((ops.take n).map batchRecord)).length with none | all
    · exact Or.inl ((part n).unique none)
    · exact Or.inr ((part n).unique all)
  · intro atomic
    refine ⟨before, _, part 0, whole, fun n => ?_⟩
    obtain ⟨i, -, -, complete⟩ := completeWithin_eq_take w.sys.env.crc (ops.map batchRecord) n
    have some := cut n
    rw [complete, ← List.map_take, replayed_batch, isBefore, List.map_take] at some
    rcases atomic i with none | all
    · exact Or.inl (none ▸ some)
    · exact Or.inr (all ▸ some)

/-! ## Two batches -/

/-- The batch is logged after a session, and the worlds before and after it pass the test. -/
def logPasses (opts : Options) (calls : List Call) (ops : List BatchOp)
    (test : World → World → Bool) : Bool :=
  passes (openWithOptions opts) (Sys.initial .steady) fun e s =>
    passes (runCalls calls) ⟨e, s⟩ fun _ w =>
      passes (logWhole ops) w fun _ w₁ =>
        decide ((w₁.sys.journal.map FsOp.added).sum < 2 ^ 32) && test w w₁

theorem exists_logged (opts : Options) (calls : List Call) (ops : List BatchOp)
    (test : World → World → Bool) (keys : ∀ call ∈ calls, call.KeysFit)
    (passed : logPasses opts calls ops test = true) :
    ∃ w w₁, Reached .steady w ∧ Ends (logWhole ops) w () w₁ ∧ FilesFit w₁.sys ∧
      w.sys.ClockAt 1700000000 ∧ test w w₁ = true := by
  obtain ⟨e, s, opened, rest⟩ := ends_of_passes passed
  obtain ⟨u, w, ran, rest⟩ := ends_of_passes rest
  obtain ⟨u₁, w₁, run, rest⟩ := ends_of_passes rest
  obtain ⟨few, tested⟩ := Bool.and_eq_true_iff.mp rest
  have reached : Reached .steady w :=
    (ReachedBy.opened opened).runCalls keys (fun _ _ _ _ => trivial) ran
  refine ⟨w, w₁, reached, run, filesFit_of_added (of_decide_eq_true few), fun n _ => ?_, tested⟩
  rw [reached.env_eq]
  rfl

/-- A batch that overwrites one key, twice with the same value, and repeats what another key
shows is atomic, although both keys lie in a table that was compacted. -/
theorem batch_atomic_iff_overwritten :
    ∃ w w₁, Ends (logWhole [.put [1] [9], .put [2] [8], .put [1] [9]]) w () w₁ ∧
      w.eng.metrics.compactions = 2 ∧ answer (get [1]) w = .ok (some [7]) ∧
        BatchAtomic {} w w₁ := by
  obtain ⟨w, w₁, reached, run, fits, still, tested⟩ := exists_logged
    { memtableSize := 0, l0CompactionThreshold := 1, maxLevels := 2 } [.put [1] [7], .put [2] [8]]
    [.put [1] [9], .put [2] [8], .put [1] [9]] (fun w _ =>
      passes (get [1]) w (fun x _ => x == some [7]) &&
        decide (w.eng.metrics.compactions = 2 ∧
          OnlyChanges (replayed w 1700000000 (logRecords w))
            ([.put [1] [9], .put [2] [8], .put [1] [9]].map (replayedOp 1700000000)) [1]))
    (by unfold Call.KeysFit; decide) (by decide +kernel)
  obtain ⟨before, state⟩ := Bool.and_eq_true_iff.mp tested
  obtain ⟨twice, only⟩ := of_decide_eq_true state
  exact ⟨w, w₁, run, twice, answer_of_passes before,
    (batch_atomic_iff reached (fun _ => rfl) run fits still {}).mpr ⟨[1], only⟩⟩

/-- Every batch is atomic across a crash. -/
def BatchesAtomic : Prop :=
  ∀ (env : Env) (w w₁ : World) (batch : WriteBatch) (t : Nat) (opts : Options), Reached env w →
    env.Faultless → batch.isEmpty = false → Ends (logWhole batch.ops) w () w₁ →
    FilesFit w₁.sys → w.sys.ClockAt t → BatchAtomic opts w w₁

/-- **Half a batch**: the crash cuts the log behind the first of two records. -/
theorem not_batchesAtomic : ¬ BatchesAtomic := by
  intro always
  obtain ⟨w, w₁, reached, run, fits, still, tested⟩ :=
    exists_logged {} [] [.put [1] [7], .put [2] [8]] (fun w w₁ =>
      recoversTo {} (cutAt w w₁ 0) [1] none && recoversTo {} w₁.sys [2] (some [8]) &&
        recoversTo {} (cutAt w w₁ 19) [1] (some [7]) && recoversTo {} (cutAt w w₁ 19) [2] none)
      (List.forall_mem_nil _) (by decide +kernel)
  simp only [Bool.and_eq_true] at tested
  obtain ⟨⟨⟨before, after⟩, first⟩, second⟩ := tested
  obtain ⟨without, whole, recoversNone, recoversAll, atomic⟩ :=
    always _ w w₁ ⟨_⟩ _ {} reached (fun _ => rfl) rfl run fits still
  rcases atomic 19 with none | all
  · have absent := recoversNone.eq_of_recoversTo before
    rw [none.eq_of_recoversTo first] at absent
    cases absent
  · have present := recoversAll.eq_of_recoversTo after
    rw [all.eq_of_recoversTo second] at present
    cases present

end KvEngine
