import KvEngine.Engine.Reached

/-!
# Readers do not notice a flush

A flush moves the frozen entries from the memtable to a table that is asked right
after the memtable.  As long as no compaction follows, every lookup and every
range read answers as before; so does a lookup at a snapshot, unless a batch has
left newer entries in the active list.
-/

namespace KvEngine

open Foundations Engine

variable {w w₀ w₁ w' : World} {u : Unit}

/-- The states in which `maybe_flush` is called: what a call has stored is not yet
flushed, or `close` has frozen the active list. -/
inductive Pending (env : Env) (Serves : World → Request → Prop) (Opens : Sys → Prop) : World → Prop
  | stored {w w' : World} {call : Call} (before : ReachedBy env Serves Opens w)
      (keys : call.KeysFit) (meets : Serves w (.write call)) (run : Ends call.store w () w') :
      Pending env Serves Opens w'
  | closing {w : World} (before : ReachedBy env Serves Opens w) : Pending env Serves Opens (frozen w)

/-- One more table at level 0 leaves every level that may be compacted below its
threshold. -/
def BelowThresholds (e : Engine) : Prop :=
  ∀ level, level < e.opts.maxLevels - 1 → ∀ threshold,
    levelThreshold e.opts level = .ok threshold →
      (e.manifest.sstsAtLevel level).length + (if level = 0 then 1 else 0) < threshold

instance (e : Engine) : Decidable (BelowThresholds e) :=
  decidable_of_iff
    (∀ level, level < e.opts.maxLevels - 1 →
      (levelThreshold e.opts level).toOption.all fun threshold =>
        (e.manifest.sstsAtLevel level).length + (if level = 0 then 1 else 0) < threshold) (by
    unfold BelowThresholds
    refine forall₂_congr fun level _ => ?_
    cases levelThreshold e.opts level <;> simp [Except.toOption])

/-- The requests hold no batch. -/
def NoBatches (Serves : World → Request → Prop) : Prop :=
  ∀ w batch, ¬ Serves w (.write (.writeBatch batch))

section Pending

variable {env : Env} {Serves : World → Request → Prop} {Opens : Sys → Prop}

theorem Pending.inv (pending : Pending env Serves Opens w) (fits : FilesFit w.sys) : Inv w := by
  cases pending with
  | @stored w₀ _ call before keys _ run =>
      have resting := before.resting (fits.of_extends (extending_store call _ _ _ run).sys)
      obtain ⟨t, -, accepted, -⟩ := ends_store run
      exact accepted.inv resting.inv fun s hs => keys _ (Call.key_mem_keys hs)
  | closing before => exact (before.resting fits).inv_frozen

/-- Storing one value freezes the list that it is put into. -/
theorem Accepted.active_empty {s : Store} {seqs : Nat} (accepted : Accepted w [s] seqs w')
    (resting : Resting w) (waiting : w'.eng.memtable.immutable ≠ none) :
    w'.eng.memtable.active.contents = SortedMap.empty := by
  cases accepted.memtable with
  | cons first later =>
      cases later
      obtain ⟨m, run, -, -, ⟨-, immutable⟩ | ⟨-, empty, -⟩⟩ :=
        resting.inv.memtable.put_ok _ _ _
      · rw [first] at run
        cases run
        exact absurd (immutable.trans resting.free) waiting
      · rw [first] at run
        cases run
        exact empty

/-- Without batches nothing newer than the frozen list is in the memtable. -/
theorem Pending.active_empty (pending : Pending env Serves Opens w) (fits : FilesFit w.sys)
    (single : NoBatches Serves) (waiting : w.eng.memtable.immutable ≠ none) :
    w.eng.memtable.active.contents = SortedMap.empty := by
  cases pending with
  | @stored w₀ _ call before keys meets run =>
      have resting := before.resting (fits.of_extends (extending_store call _ _ _ run).sys)
      obtain ⟨t, -, accepted, -⟩ := ends_store run
      cases call with
      | writeBatch batch => exact absurd meets (single w₀ batch)
      | put key value => exact accepted.active_empty resting waiting
      | delete key => exact accepted.active_empty resting waiting
      | putWithTtl key value ttl => exact accepted.active_empty resting waiting
  | @closing w₀ before =>
      rcases (before.resting fits).frozen_cases with ⟨same, empty⟩ | ⟨-, empty⟩
      · rw [same]
        exact empty
      · exact empty

end Pending

/-- Below the thresholds a flush is all that happens. -/
theorem flush_of_maybeFlush (inv : Inv w) (below : BelowThresholds w.eng)
    (limits : WithinLimits w'.sys) (run : Ends maybeFlush w u w')
    (waiting : w.eng.memtable.immutable ≠ none) :
    ∃ imm p, w.eng.memtable.immutable = some imm ∧ Inv (thawed w) ∧ Flush (thawed w) p w' ∧
      p.map = imm.contents := by
  rcases ends_maybeFlush_cases inv limits run with
    ⟨free, -⟩ | ⟨imm, p, w₁, isFrozen, invThawed, flush, map, compacts⟩
  · exact absurd free waiting
  · have settled : AllSettled w₁.eng := by
      obtain ⟨metrics, eng⟩ := flush.eng
      intro level within
      rw [eng] at within ⊢
      refine Or.inr fun threshold found => ?_
      have room := below level within threshold found
      rw [Manifest.sstsAtLevel_addSst]
      split
      · next zero =>
          rw [if_pos zero] at room
          rw [List.length_append]
          exact room
      · next other =>
          rw [if_neg other] at room
          exact room
    simp only [maybeCompact, ends_bind, ends_self] at compacts
    obtain ⟨e, w₂, ⟨rfl, rfl⟩, loop⟩ := compacts
    obtain rfl := ends_compactFrom_settled (by omega) settled loop
    exact ⟨imm, p, isFrozen, invThawed, flush, map⟩

/-- Where the active list is empty, a flush leaves the newest version of the memtable,
followed by those of the tables, as they are. -/
theorem Engine.Flush.newestFirst_eq {imm : SkipList} {p : Table} (flush : Flush (thawed w) p w')
    (isFrozen : w.eng.memtable.immutable = some imm) (map : p.map = imm.contents)
    (empty : w.eng.memtable.active.contents = SortedMap.empty) (key : Bytes) :
    (w'.eng.memtable.versionsOf key).head?.toList ++ versionsIn key w'.eng.sstReaders.reverse =
      (w.eng.memtable.versionsOf key).head?.toList ++ versionsIn key w.eng.sstReaders.reverse := by
  have tables := flush.versionsIn_eq key
  obtain ⟨metrics, eng⟩ := flush.eng
  have thawedActive : w'.eng.memtable.versionsOf key = [] := by
    rw [eng, MemTable.versionsOf_none rfl]
    show (w.eng.memtable.active.contents.lookup key).toList = []
    rw [empty]
    rfl
  have frozenOnly : (w.eng.memtable.versionsOf key).head?.toList =
      (imm.contents.lookup key).toList := by
    rw [MemTable.versionsOf_some isFrozen, empty]
    cases imm.contents.lookup key <;> rfl
  rw [thawedActive, tables, map, frozenOnly]
  rfl

/-- So a lookup at a snapshot looks at the same versions before and after the flush. -/
theorem Engine.Flush.getAt_eq {imm : SkipList} {p : Table} (flush : Flush (thawed w) p w')
    (inv : Inv w) (inv' : Inv w') (isFrozen : w.eng.memtable.immutable = some imm)
    (map : p.map = imm.contents) (empty : w.eng.memtable.active.contents = SortedMap.empty)
    (time : w'.sys.time = w.sys.time) (key : Bytes) (snap : Snapshot) :
    answer (getAt key snap) w' = answer (getAt key snap) w := by
  obtain ⟨v, -, before⟩ := getAt_run_newest inv key snap
  obtain ⟨v', -, after⟩ := getAt_run_newest inv' key snap
  rw [answer_of_ok before, answer_of_ok after, flush.newestFirst_eq isFrozen map empty key, time]

/-- **A flush changes no read.** In every reachable state with a frozen list, if no
level then reaches its threshold, lookups and range reads answer as before; where
no batch was served, lookups at snapshots do so as well. -/
theorem flush_changes_no_read {env : Env} {Serves : World → Request → Prop} {Opens : Sys → Prop}
    {t : Nat} (pending : Pending env Serves Opens w) (waiting : w.eng.memtable.immutable ≠ none)
    (below : BelowThresholds w.eng) (run : Ends maybeFlush w u w') (fits : FilesFit w'.sys)
    (still : w.sys.ClockAt t) :
    SameReads w w' ∧ (NoBatches Serves →
      ∀ key snap, answer (getAt key snap) w' = answer (getAt key snap) w) := by
  have goesOn := (extending_maybeFlush _ _ _ run).sys
  have fitsBefore := fits.of_extends goesOn
  have inv := pending.inv fitsBefore
  obtain ⟨imm, p, isFrozen, invThawed, flush, map⟩ :=
    flush_of_maybeFlush inv below fits.withinLimits run waiting
  have inv' := flush.inv invThawed
  have still' := still.of_extends goesOn
  refine ⟨(sameReads_iff inv inv' still still').mpr fun key => ?_, fun single key snap => ?_⟩
  · rw [visible, visible, flush.versionsOf_eq isFrozen map]
  · exact flush.getAt_eq inv inv' isFrozen map (pending.active_empty fitsBefore single waiting)
      (by rw [still.time, still'.time]) key snap

/-! ## A batch that overtakes its own frozen list -/

/-- The call stores, the flush that follows it is due and stays below the thresholds. -/
def flushes (call : Call) (w₀ : World) : Bool :=
  passes call.store w₀ fun _ w =>
    w.eng.memtable.immutable.isSome && decide (BelowThresholds w.eng) &&
      passes maybeFlush w fun _ w' => decide ((w'.sys.journal.map FsOp.added).sum < 2 ^ 32)

/-- The first value is flushed while the second one waits in the active list. -/
theorem flush_changes_no_read_batch : ∃ w w', w.eng.memtable.immutable ≠ none ∧
    Ends maybeFlush w () w' ∧ SameReads w w' := by
  have passed : passes (openWithOptions { memtableSize := 0, maxLevels := 2 })
      (Sys.initial .steady) (fun e s =>
        flushes (.writeBatch ⟨[.put [1] [7], .put [1] [8]]⟩) ⟨e, s⟩) = true := by
    decide +kernel
  obtain ⟨e, s, opened, due⟩ := ends_of_passes passed
  obtain ⟨u, w, stored, rest⟩ := ends_of_passes due
  obtain ⟨rest, later⟩ := Bool.and_eq_true_iff.mp rest
  obtain ⟨isFrozen, below⟩ := Bool.and_eq_true_iff.mp rest
  obtain ⟨u', w', run, few⟩ := ends_of_passes later
  have reached : Reached .steady ⟨e, s⟩ := .opened opened
  have pending : Pending .steady (fun _ _ => True) (fun _ => True) w :=
    .stored reached (by unfold Call.KeysFit; decide) trivial stored
  have waiting : w.eng.memtable.immutable ≠ none := Option.isSome_iff_ne_none.mp isFrozen
  have still : w.sys.ClockAt 1700000000 := by
    have start : (Sys.initial .steady).ClockAt 1700000000 := fun _ _ => rfl
    refine start.of_extends ?_
    exact Sys.Extends.trans ⟨_, (ends_openWithOptions opened).2⟩
      (extending_store _ _ _ _ stored).sys
  exact ⟨w, w', waiting, run, (flush_changes_no_read pending waiting (of_decide_eq_true below) run
    (filesFit_of_added (of_decide_eq_true few)) still).1⟩

end KvEngine
