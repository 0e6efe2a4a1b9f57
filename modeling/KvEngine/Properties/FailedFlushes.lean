import KvEngine.Engine.Endured
import KvEngine.Properties.Expiry
import KvEngine.Properties.Reopening

/-!
# Flushes that fail

`maybe_flush` takes the frozen list out of the memtable before any of its steps can fail.  When
the new table is open, a later error costs nothing: the table is asked instead of the list.  An
error before that loses the list, and the next flush truncates the log, which still had its
records.
-/

namespace KvEngine

open Foundations Engine

variable {env : Env} {w w₀ w₁ w' : World} {call : Call} {key : Bytes} {t : Nat} {k : KvError}

/-- The flush that begins in `w` gets its new table written and opened. -/
def TableWritten (w : World) : Prop :=
  ∃ imm sstId w₁ entries, w.eng.memtable.immutable = some imm ∧ Ends takeSstId (thawed w) sstId w₁ ∧
    imm.iter = .ok entries ∧ TableOpens sstId entries w₁

/-- Without the frozen list the key shows the same. -/
def Redundant (t : Nat) (key : Bytes) (w : World) : Prop :=
  (thawed w).eng.visible t key = w.eng.visible t key

/-- The flush of the call does not lose what the key shows, and its compactions spare the key. -/
structure Guards (t : Nat) (key : Bytes) (w : World) (call : Call) : Prop where
  flush : ∀ w₁, Ends call.store w () w₁ → TableWritten w₁ ∨ Redundant t key w₁
  spared : SparedBy w call key

/-- If the request writes, its call guards the key. -/
def Guarded (t : Nat) (key : Bytes) (w : World) (request : Request) : Prop :=
  ∀ call, request = .write call → Guards t key w call

/-- The request leaves the key, and meets the condition. -/
def Beside (key : Bytes) (Serves : World → Request → Prop) (w : World) (request : Request) : Prop :=
  request.Leaves key ∧ Serves w request

namespace ShowsAt

variable {found : Option Bytes}

theorem observed (shows : ShowsAt t key found w) (observed : Observed w w') :
    ShowsAt t key found w' := by
  obtain ⟨c, m, n, rfl⟩ := observed.world
  exact ⟨shows.1.of_extends ⟨[], w.sys.did_later n⟩, shows.2⟩

/-- Storing other keys. -/
theorem stored (shows : ShowsAt t key found w) (inv : Inv w) (other : key ∉ call.keys)
    (run : Ends call.store w () w') : ShowsAt t key found w' := by
  obtain ⟨accepted, -⟩ := ends_store_now run
  have others : ∀ s ∈ call.stores w.eng.nextSeq w.sys.time, s.record.key ≠ key := by
    rintro s member rfl
    exact other (Call.key_mem_keys member)
  refine ⟨shows.1.of_extends (extending_store call _ _ _ run).sys, ?_⟩
  rw [visible, accepted.versionsOf_of_notMem inv others]
  exact shows.2

/-- A flush that succeeds, with its compactions. -/
theorem flushing (shows : ShowsAt t key found w) (inv : Inv w) (stored : Ends call.store w₀ () w)
    (spared : SparedBy w₀ call key) (limits : WithinLimits w'.sys)
    (run : Ends maybeFlush w () w') : ShowsAt t key found w' :=
  inv.flush_keeps stored limits run
    (fun _ _ _ isFrozen flush map held => held.flushed isFrozen flush map)
    (fun level w₁ _ point inv₁ limits₁ compacts held =>
      held.compacted inv₁ limits₁ (spared level w₁ point) compacts) shows

/-- A compaction that fails has done nothing or, but for the manifest, all. -/
theorem failedCompaction {level : Nat} (shows : ShowsAt t key found w)
    (failed : FailedCompaction w level w') (spares : Spares w level key) :
    ShowsAt t key found w' := by
  refine ⟨shows.1.of_extends failed.touches.goesOn, ?_⟩
  cases failed with
  | early eng =>
      rw [eng]
      exact shows.2
  | @late time added done metrics compaction eng =>
      have examined : time = examinedAt w level := funext fun key' =>
        (shows.1.eq_of_reads (compaction.clock key')).trans
          (shows.1.eq_of_reads (reads_examinedAt w level key')).symm
      have le := (shows.1.eq_of_reads (reads_examinedAt w level key)).le
      have kept := Engine.Compaction.visible_of_spares (examined ▸ compaction) spares le
      rw [eng]
      exact kept.trans shows.2

/-- **A flush that fails**: the list is lost, or the new table is asked instead. -/
theorem failedFlush {imm : SkipList} (shows : ShowsAt t key found w)
    (isFrozen : w.eng.memtable.immutable = some imm)
    (failed : FailedFlush (thawed w) imm.contents w')
    (kept : (∃ sstId w₁, Ends takeSstId (thawed w) sstId w₁ ∧
      TableOpens sstId imm.contents.entries w₁) ∨ Redundant t key w) : ShowsAt t key found w' := by
  have goesOn : w.sys.Extends w'.sys := failed.goesOn
  refine ⟨shows.1.of_extends goesOn, ?_⟩
  cases failed with
  | early unopened eng =>
      -- the list is gone, and no table has come in its place
      rcases kept with ⟨sstId, w₁, took, opens⟩ | redundant
      · exact absurd opens (unopened sstId w₁ took)
      · rw [eng]
        exact redundant.trans shows.2
  | late flush holds _ eng =>
      have same := flush.versionsOf_eq isFrozen holds key
      obtain ⟨metrics, eng⟩ := eng
      have done : w'.eng.visible t key = w.eng.visible t key := by
        rw [eng, visible, visible, ← same]
        rfl
      exact done.trans shows.2

/-- **A failing `maybe_flush`** of a call that guards the key. -/
theorem failedFlushing (shows : ShowsAt t key found w) (inv : Inv w)
    (stored : Ends call.store w₀ () w) (guards : Guards t key w₀ call)
    (limits : WithinLimits w'.sys) (failed : Fails maybeFlush w (.err k) w') :
    ShowsAt t key found w' := by
  obtain ⟨imm, id, w₁, isFrozen, took, rest⟩ := fails_maybeFlush_steps inv.memtable failed
  have keys := inv.memKeys imm.contents (by simp [MemTable.layers, isFrozen])
  have iterates := (inv.memtable.immutable imm isFrozen).iter_eq
  rcases rest with flushing | ⟨w₂, level, w₃, wrote, before, within, full, failing⟩
  · refine shows.failedFlush isFrozen (fails_flushEntries keys inv.history limits took flushing) ?_
    refine (guards.flush w stored).imp_left ?_
    rintro ⟨imm', id', w₁', entries, isFrozen', took', iterates', opens⟩
    obtain rfl := Option.some.inj (isFrozen.symm.trans isFrozen')
    obtain rfl := Except.ok.inj (iterates.symm.trans iterates')
    exact ⟨id', w₁', took', opens⟩
  · have limits₃ := limits.of_extends ((goesOn_compactLevel _).fails _ _ _ failing)
    have limits₂ := limits₃.of_extends (extending_compactFrom _ _ _ _ _ before).sys
    obtain ⟨p, flush, map⟩ :=
      ends_flushEntries (w := thawed w) keys inv.history limits₂ took wrote
    have inv₂ : Inv w₂ := flush.inv (inv_thawed inv)
    have inv₃ := (compactions_of_compactFrom inv₂ limits₃ before).inv inv₂
    have point : ∀ level v, Ends (compactFrom level 0) w₂ () v → level < v.eng.opts.maxLevels - 1 →
        (∃ threshold, levelThreshold v.eng.opts level = .ok threshold ∧
          ¬ (v.eng.manifest.sstsAtLevel level).length < threshold) → AtCompaction w₀ call level v :=
      fun level v looped within full => ⟨⟨w, imm, id, w₁, _, w₂, stored, isFrozen, took, iterates,
        inv.memtable.frozen imm isFrozen, wrote, looped⟩, within, full⟩
    have inRange : 0 + level ≤ w₂.eng.opts.maxLevels - 1 := by
      rw [← (extending_compactFrom _ _ _ _ _ before).opts]
      omega
    have shows₃ : ShowsAt t key found w₃ :=
      AtCompaction.keeps point (fun level v _ at_ inv limits compacts held =>
          held.compacted inv limits (guards.spared level v at_) compacts)
        (ends_pure.mpr ⟨rfl, rfl⟩) inRange inv₂ limits₃ before
        (shows.flushed isFrozen flush map)
    have here : AtCompaction w₀ call level w₃ := by
      obtain ⟨threshold, found, atLeast⟩ := full
      exact point level w₃ before within ⟨threshold, found, not_lt.mpr atLeast⟩
    exact shows₃.failedCompaction (fails_compactLevel_cases inv₃ limits failing)
      (guards.spared level w₃ here)

/-- A request that leaves the key and is answered. -/
theorem served {request : Request} {response : Response} (shows : ShowsAt t key found w)
    (unharmed : Unharmed w) (keys : request.KeysFit) (limits : WithinLimits w'.sys)
    (beside : Beside key (Guarded t key) w request) (run : Ends request.run w response w') :
    ShowsAt t key found w' := by
  rcases unharmed.ends_request_cases run with ⟨call, rfl, ran⟩ | observed
  · obtain ⟨w₁, stored, rest⟩ := ends_call ran
    obtain ⟨accepted, -⟩ := ends_store_now stored
    have inv₁ : Inv w₁ := accepted.inv unharmed.inv fun s hs => keys _ (Call.key_mem_keys hs)
    have shows₁ := shows.stored unharmed.inv (beside.1 call rfl) stored
    rcases rest with flushes | ⟨rfl, rfl⟩
    · exact shows₁.flushing inv₁ stored (beside.2 call rfl).spared limits flushes
    · exact shows₁
  · exact shows.observed observed

/-- A call that leaves the key and fails. -/
theorem failed (shows : ShowsAt t key found w) (unharmed : Unharmed w) (keys : call.KeysFit)
    (limits : WithinLimits w'.sys) (beside : Beside key (Guarded t key) w (.write call))
    (run : Fails call.run w (.err k) w') : ShowsAt t key found w' := by
  rcases fails_call run with storing | ⟨w₁, stored, flushing⟩
  · have unlogged := fails_store unharmed.inv.memtable storing
    refine ⟨shows.1.of_extends unlogged.touches.goesOn, ?_⟩
    obtain ⟨wal, nextSeq, eng⟩ := unlogged.eng
    rw [eng]
    exact shows.2
  · obtain ⟨accepted, -⟩ := ends_store_now stored
    have inv₁ : Inv w₁ := accepted.inv unharmed.inv fun s hs => keys _ (Call.key_mem_keys hs)
    exact (shows.stored unharmed.inv (beside.1 call rfl) stored).failedFlushing inv₁ stored
      (beside.2 call rfl) limits flushing

end ShowsAt

/-! ## Runs -/

end KvEngine
