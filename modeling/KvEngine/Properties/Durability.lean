import KvEngine.Engine.Crash
import KvEngine.Engine.History
import KvEngine.Properties.BatchEquivalence
import KvEngine.Properties.LogCoverage
import KvEngine.Properties.Reopening

/-!
# A database that forgets nothing

With a single level nothing is compacted, and with `sync_wal` the log holds what the
memtable holds.  Such a database keeps everything that was ever stored in it, over any
number of sessions, however each of them ended.

The invariant `Durable` has to know more than what is visible: replaying the log must
rebuild a memtable that shows exactly the same (`Matched`), and the tables must be listed
in the order in which they were written (`Flat`).  `Leaves` says the same of a directory
alone, which is all that the next session has.
-/

namespace KvEngine

open Foundations Engine

variable {w w₁ w' : World} {u : Unit} {t : Nat} {stores : List Store}

/-- Both maps show the same under every key, whatever the clock reads. -/
def Alike (m m' : SortedMap Bytes Bytes) : Prop :=
  ∀ key, (m.lookup key).map (fun v t => shown t v) = (m'.lookup key).map (fun v t => shown t v)

namespace Alike

variable {m m' : SortedMap Bytes Bytes}

theorem refl (m : SortedMap Bytes Bytes) : Alike m m := fun _ => rfl

theorem insert (alike : Alike m m') {v v' : Bytes} (same : ∀ t, shown t v' = shown t v)
    (key : Bytes) : Alike (m.insert key v) (m'.insert key v') := by
  intro k
  rw [SortedMap.lookup_insert, SortedMap.lookup_insert]
  by_cases isKey : k = key
  · rw [if_pos isKey, if_pos isKey, Option.map_some, Option.map_some]
    exact congrArg some (funext fun t => (same t).symm)
  · rw [if_neg isKey, if_neg isKey]
    exact alike k

/-- Replaying the records of some stores does the same as the stores. -/
theorem insertAll (alike : Alike m m') {stores : List Store}
    (faithful : ∀ s ∈ stores, ∀ t, shown t (replayValue s.record) = shown t s.value) :
    Alike (m.insertAll (stores.map Store.binding))
      (m'.insertAll ((stores.map Store.record).map Record.binding)) := by
  induction stores generalizing m m' with
  | nil => exact alike
  | cons s stores inductionHypothesis =>
      simp only [List.map_cons, SortedMap.insertAll_cons]
      exact inductionHypothesis (alike.insert (faithful s List.mem_cons_self) s.record.key)
        fun s' hs => faithful s' (List.mem_cons_of_mem _ hs)

/-- Maps that are alike have the same keys. -/
theorem keys {rs : List Record} {n : Nat}
    (alike : Alike m (SortedMap.empty.insertAll (rs.map Record.binding)))
    (short : ∀ b ∈ m.entries, b.1.length < n) : ∀ r ∈ rs, r.key.length < n := by
  intro r member
  have same := alike r.key
  cases found : m.lookup r.key with
  | none =>
      rw [found, Option.map_none, eq_comm, Option.map_eq_none_iff, SortedMap.lookup_insertAll,
        SortedMap.lookup_empty, Option.or_none, lookupList_eq_none] at same
      exact absurd rfl (same r.binding (List.mem_reverse.mpr (List.mem_map_of_mem member)))
  | some v => exact short (r.key, v) (SortedMap.mem_entries.mpr found)

/-- What is found first, here or behind it, shows the same. -/
theorem bind_or (alike : Alike m m') (key : Bytes) (behind : Option Bytes) (t : Nat) :
    ((m.lookup key).or behind).bind (shown t) = ((m'.lookup key).or behind).bind (shown t) := by
  have same := alike key
  cases found : m.lookup key with
  | none =>
      rw [found, Option.map_none, eq_comm, Option.map_eq_none_iff] at same
      rw [same]
  | some v =>
      cases found' : m'.lookup key with
      | none =>
          rw [found, found'] at same
          cases same
      | some v' =>
          rw [found, found', Option.map_some, Option.map_some, Option.some.injEq] at same
          rw [Option.some_or, Option.some_or, Option.bind_some, Option.bind_some]
          exact congrFun same t

end Alike

/-- A map without keys is like every other. -/
theorem alike_of_empty {m m' : SortedMap Bytes Bytes} (empty : ∀ key, m.lookup key = none)
    (empty' : ∀ key, m'.lookup key = none) : Alike m m' := fun key => by rw [empty, empty']

/-- The log is on disk, and replaying it shows what the memtable shows. -/
def Matched (w : World) : Prop :=
  ∃ rs, Logged w rs [] ∧
    Alike w.eng.memtable.active.contents (SortedMap.empty.insertAll (rs.map Record.binding))

/-- No table is listed below level 0. -/
def Flat (m : Manifest) : Prop := ∀ level, 1 ≤ level → m.sstsAtLevel level = []

/-- What is visible is what the stores leave. -/
def Mirrors (stores : List Store) (w : World) : Prop :=
  ∀ t key, w.eng.visible t key = ((ledger stores).lookup key).bind (shown t)

/-- A single level, and the log synced with every write. -/
def ForgetsNothing (opts : Options) : Prop := opts.maxLevels ≤ 1 ∧ opts.syncWal = true

/-- No batch freezes the memtable before its last operation. -/
def FreezesLate (w : World) (request : Request) : Prop :=
  ∀ batch, request = .write (.writeBatch batch) → ¬ FreezesEarly w batch.ops

/-- The directory has one log, which the engine writes. -/
structure Logging (w : World) : Prop where
  logs : OneLog w.sys.dir
  log : w.eng.wal.file.path = .wal 1

/-- The invariant of a database that forgets nothing. -/
structure Durable (stores : List Store) (w : World) : Prop where
  logging : Logging w
  matched : Matched w
  flat : Flat w.eng.manifest
  mirrors : Mirrors stores w

namespace Logging

theorem of_log (logging : Logging w) {ops : List FsOp} (did : w.sys.Did ops w'.sys)
    (onlyLog : ∀ op ∈ ops, op.file = .wal 1) (log : w'.eng.wal.file.path = .wal 1) : Logging w' := by
  refine ⟨logging.logs.of_did did fun op member n different => ?_, log⟩
  rw [onlyLog op member]
  simpa using Ne.symm different

theorem of_logs {data : Bytes} (logging : Logging w) (logs : Logs w data w') : Logging w' := by
  obtain ⟨path, ⟨ops, did, appends⟩, -⟩ := logs
  refine logging.of_log did (fun op member => ?_) (path.trans logging.log)
  obtain ⟨d, rfl⟩ := appends op member
  exact logging.log

theorem flush {p : Table} (logging : Logging w) (flush : Flush w p w') : Logging w' := by
  obtain ⟨metrics, eng⟩ := flush.eng
  obtain ⟨s₁, s₂, rest, built, saved, reset, leftover⟩ := flush.sys
  have stored : Logging ⟨w.eng, s₂⟩ :=
    ⟨oneLog_manifestOps saved (built.oneLog logging.logs), logging.log⟩
  exact stored.of_log reset (Kept.file_of_reset leftover logging.log) (by rw [eng]; rfl)

theorem opened {s s' : Sys} {opts : Options} {e : Engine} (logs : OneLog s.dir)
    (run : Ends (openWithOptions opts) s e s') : Logging ⟨e, s'⟩ := by
  obtain ⟨recovered, did⟩ := ends_openWithOptions run
  have path := logs.walPathOf
  have log : e.wal.file.path = .wal 1 := by
    rw [recovered.wal]
    exact path
  have before : Logging ⟨e, s⟩ := ⟨logs, log⟩
  refine before.of_log did (fun op member => ?_) log
  unfold openOps at member
  split at member
  · cases member
  · rw [List.mem_singleton.mp member, ← path]
    rfl

end Logging

/-! ## One call -/

/-- With a single level a flush is not followed by a compaction. -/
theorem ends_maybeFlush_single (inv : Inv w) (single : w.eng.opts.maxLevels ≤ 1)
    (limits : WithinLimits w'.sys) (run : Ends maybeFlush w u w') :
    (w.eng.memtable.immutable = none ∧ w' = w) ∨
      (w.eng.memtable.immutable.isSome ∧ ∃ p, Flush (thawed w) p w') := by
  rcases ends_maybeFlush_cases inv limits run with
    nothing | ⟨imm, p, w₁, isFrozen, -, flush, -, compacts⟩
  · exact Or.inl nothing
  · obtain ⟨metrics, eng⟩ := flush.eng
    obtain ⟨e, w₂, this, loop⟩ := ends_bind.mp compacts
    obtain ⟨rfl, rfl⟩ := ends_self.mp this
    have noLevels : w₂.eng.opts.maxLevels - 1 = 0 := by
      rw [eng]
      exact Nat.sub_eq_zero_of_le single
    rw [noLevels] at loop
    obtain ⟨-, rfl⟩ := ends_pure.mp loop
    exact Or.inr ⟨by rw [isFrozen]; rfl, p, flush⟩

/-- A call stores, and then it may flush what is frozen. -/
theorem Resting.ends_call_single (resting : Resting w) {call : Call} (keys : call.KeysFit)
    (limits : WithinLimits w'.sys) (single : w.eng.opts.maxLevels ≤ 1) (run : Ends call.run w u w') :
    ∃ w₁, Ends call.store w () w₁ ∧ Inv w₁ ∧
      (w' = w₁ ∨ (w₁.eng.memtable.immutable.isSome ∧ ∃ p, Flush (thawed w₁) p w')) := by
  obtain ⟨w₁, stored, rest⟩ := Engine.ends_call run
  have accepted := (ends_store_now stored).1
  have inv₁ : Inv w₁ := accepted.inv resting.inv fun s hs => keys _ (Call.key_mem_keys hs)
  refine ⟨w₁, stored, inv₁, ?_⟩
  obtain ⟨wal, memtable, metrics, eng⟩ := accepted.eng
  rcases rest with flushes | ⟨rfl, rfl⟩
  · exact (ends_maybeFlush_single inv₁ (by rw [eng]; exact single) limits flushes).imp_left And.right
  · exact Or.inl rfl

theorem Logging.call (logging : Logging w) (resting : Resting w) {call : Call}
    (keys : call.KeysFit) (limits : WithinLimits w'.sys) (single : w.eng.opts.maxLevels ≤ 1)
    (run : Ends call.run w u w') : Logging w' := by
  obtain ⟨w₁, stored, -, rfl | ⟨-, p, flush⟩⟩ := resting.ends_call_single keys limits single run
  · exact logging.of_logs (ends_store_now stored).1.logs
  · have logging₁ := logging.of_logs (ends_store_now stored).1.logs
    exact Logging.flush (w := thawed w₁) ⟨logging₁.logs, logging₁.log⟩ flush

/-- **A synced call**: the memtable and the log take up the same stores, or a flush
empties both. -/
theorem Logged.call_synced {rs : List Record} (logged : Logged w rs []) (resting : Resting w)
    (logging : Logging w) {call : Call} (late : SyncedLate w (.write call)) (keys : call.KeysFit)
    (limits : WithinLimits w'.sys) (run : Ends call.run w u w') :
    (w'.eng.memtable.active.contents = w.eng.memtable.active.contents.insertAll
          ((call.stores w.eng.nextSeq w.sys.time).map Store.binding) ∧
        Logged w' (rs ++ (call.stores w.eng.nextSeq w.sys.time).map Store.record) []) ∨
      (w'.eng.memtable.active.contents = SortedMap.empty ∧ Logged w' [] []) := by
  obtain ⟨w₁, stored, rest⟩ := ends_call run
  have accepted := (ends_store_now stored).1
  obtain ⟨rs₁, bs₁, logged₁, total⟩ := logged.store stored
  have empty : w₁.eng.wal.file.buf = [] := accepted.synced late.1 logged.buf
  obtain rfl : bs₁ = [] := eq_nil_of_encodeLog (logged₁.buf.symm.trans empty)
  rw [List.append_nil, List.append_nil] at total
  subst total
  have puts := accepted.memtable
  rcases rest with flushes | ⟨rfl, rfl⟩
  · have inv₁ : Inv w₁ := accepted.inv resting.inv fun s hs => keys _ (Call.key_mem_keys hs)
    have flushing := flushing_of_maybeFlush inv₁ limits flushes
    have log := (logging.of_logs accepted.logs).log
    rcases logged₁.flushing flushing log (Or.inl empty) with ⟨free, rfl⟩ | ⟨taken, logged'⟩
    · exact Or.inl ⟨puts.contents_of_free resting.inv.memtable free, logged₁⟩
    · rcases ends_store_active resting late stored with ⟨free, -⟩ | none
      · rw [free] at taken
        cases taken
      · exact Or.inr ⟨by rw [flushing.active_eq, none], logged'⟩
  · exact Or.inl ⟨puts.contents_of_free resting.inv.memtable resting.free, logged₁⟩

theorem Matched.call (matched : Matched w) (resting : Resting w) (logging : Logging w) {call : Call}
    (late : SyncedLate w (.write call)) (keys : call.KeysFit) (limits : WithinLimits w'.sys)
    (run : Ends call.run w u w') : Matched w' := by
  obtain ⟨rs, logged, alike⟩ := matched
  rcases logged.call_synced resting logging late keys limits run with ⟨contents, logged'⟩ |
    ⟨empty, logged'⟩
  · refine ⟨_, logged', ?_⟩
    rw [contents, List.map_append, SortedMap.insertAll_append]
    exact alike.insertAll (call.shown_replayValue w.eng.nextSeq w.sys.time)
  · refine ⟨[], logged', ?_⟩
    rw [empty]
    exact .refl _

/-- **With a single level** a call leaves no table deeper, and it makes visible what it
stores. -/
theorem Resting.call_single (resting : Resting w) {call : Call} (keys : call.KeysFit)
    (limits : WithinLimits w'.sys) (single : w.eng.opts.maxLevels ≤ 1) (flat : Flat w.eng.manifest)
    (run : Ends call.run w () w') :
    Flat w'.eng.manifest ∧ ∀ key, (w'.eng.versionsOf key).head? =
      (lookupList key ((call.stores w.eng.nextSeq w.sys.time).map Store.binding).reverse).or
        (w.eng.versionsOf key).head? := by
  have held : w'.eng.opts = w.eng.opts ∧ Flat w'.eng.manifest ∧
      ∀ key, (w'.eng.versionsOf key).head? =
        (lookupList key ((call.stores w.eng.nextSeq w.sys.time).map Store.binding).reverse).or
          (w.eng.versionsOf key).head? := by
    refine resting.inv.call_keeps keys limits run (P := fun w₁ => w₁.eng.opts = w.eng.opts ∧
      Flat w₁.eng.manifest ∧ ∀ key, (w₁.eng.versionsOf key).head? =
        (lookupList key ((call.stores w.eng.nextSeq w.sys.time).map Store.binding).reverse).or
          (w.eng.versionsOf key).head?) ?_ ?_ ?_
    · intro w₁ accepted goesOn
      obtain ⟨wal, memtable, metrics, eng⟩ := accepted.eng
      refine ⟨by rw [eng], ?_, accepted.head?_versionsOf resting.inv⟩
      rw [eng]
      exact flat
    · intro w₁ imm p w₂ isFrozen flush map before
      obtain ⟨opts, flat₁, newest⟩ := before
      obtain ⟨metrics, eng⟩ := flush.eng
      refine ⟨?_, fun level deep => ?_, fun key => ?_⟩
      · rw [eng]
        exact opts
      · rw [eng]
        show (w₁.eng.manifest.addSst 0 p.1).sstsAtLevel level = []
        rw [Manifest.sstsAtLevel_addSst, if_neg (by omega), flat₁ level deep]
      · rw [flush.versionsOf_eq isFrozen map key]
        exact newest key
    · -- there is no level to compact
      intro level w₁ w₂ point _ _ _ before
      have within := point.within
      rw [before.1] at within
      omega
  exact held.2

theorem Mirrors.append (mirrors : Mirrors stores w) {new : List Store}
    (newest : ∀ key, (w'.eng.versionsOf key).head? =
      (lookupList key (new.map Store.binding).reverse).or (w.eng.versionsOf key).head?) :
    Mirrors (stores ++ new) w' := by
  intro t key
  rw [visible, newest, lookup_ledger_append]
  cases lookupList key (new.map Store.binding).reverse with
  | some v => rfl
  | none =>
      rw [Option.none_or, Option.none_or]
      exact mirrors t key

theorem Durable.call (durable : Durable stores w) (resting : Resting w) {call : Call}
    (late : SyncedLate w (.write call)) (single : w.eng.opts.maxLevels ≤ 1) (keys : call.KeysFit)
    (limits : WithinLimits w'.sys) (run : Ends call.run w () w') :
    Durable (stores ++ call.stores w.eng.nextSeq w.sys.time) w' := by
  obtain ⟨flat, newest⟩ := resting.call_single keys limits single durable.flat run
  exact ⟨durable.logging.call resting keys limits single run,
    durable.matched.call resting durable.logging late keys limits run, flat,
    durable.mirrors.append newest⟩

theorem Durable.observed (durable : Durable stores w) (observed : Observed w w') :
    Durable stores w' := by
  have same := observed.versionsOf_eq
  obtain ⟨rs, logged, alike⟩ := durable.matched
  obtain ⟨c, m, n, rfl⟩ := observed.world
  refine ⟨⟨durable.logging.logs, durable.logging.log⟩, ⟨rs, logged.frame rfl rfl rfl, alike⟩,
    durable.flat, fun t key => ?_⟩
  rw [visible, same]
  exact durable.mirrors t key

/-! ## Closing, and opening again -/

theorem deeper_eq_nil (flat : Flat w.eng.manifest) : deeper w.eng = [] := by
  refine List.filterMap_eq_nil_iff.mpr fun sst member => ?_
  obtain ⟨level, inTail, atLevel⟩ := List.mem_flatten.mp member
  obtain ⟨i, within, rfl⟩ := List.mem_iff_getElem.mp inTail
  have empty := flat (i + 1) (Nat.le_add_left 1 i)
  rw [Manifest.sstsAtLevel, ← List.getElem?_tail, List.getElem?_eq_getElem within] at empty
  have none : w.eng.manifest.levels.tail[i] = [] := empty
  rw [none] at atLevel
  cases atLevel

theorem closesQuietly_of_single (single : w.eng.opts.maxLevels ≤ 1) : ClosesQuietly w := by
  intro _ level within
  omega

/-- What closing does to the log: a flush empties it, and what else it does leaves it alone. -/
theorem Logged.closed_single {rs : List Record} (logged : Logged w rs []) (resting : Resting w)
    (logging : Logging w) (single : w.eng.opts.maxLevels ≤ 1) (limits : WithinLimits w'.sys)
    (run : Ends close w () w') :
    Logging w' ∧
      ((frozen w = w ∧ Logged w' rs [] ∧ w'.eng.manifest = w.eng.manifest) ∨
        ∃ p w₁, Flush (thawed (frozen w)) p w₁ ∧ Logged w' [] [] ∧
          w'.eng.manifest = w₁.eng.manifest) := by
  obtain ⟨w₁, w₂, flushes, limits₁, flushed, did, same⟩ := resting.ends_close_steps limits run
  obtain ⟨logs, -, wal, eng⟩ := ends_walFlush flushed
  have finish : ∀ ts, Logged w₁ ts [] → Logging w₁ → Logging w' ∧ Logged w' ts [] := by
    intro ts logged₁ logging₁
    have logging₂ := logging₁.of_logs logs
    have sameWal : w'.eng.wal = w₂.eng.wal := by rw [same]
    refine ⟨⟨oneLog_manifestOps did logging₂.logs, by rw [sameWal]; exact logging₂.log⟩, ?_⟩
    have logged₂ := logged₁.flush flushed
    rw [List.append_nil] at logged₂
    exact logged₂.of_did did sameWal (by rw [logging₂.log]; simp [manifestOps, FsOp.file])
  have loggedFrozen : Logged (frozen w) rs [] := logged.frame rfl rfl rfl
  have manifest : w'.eng.manifest = w₁.eng.manifest := by rw [same, eng]
  rcases ends_maybeFlush_single resting.inv_frozen single limits₁ flushes with
    ⟨free, rfl⟩ | ⟨-, p, flush⟩
  · rcases resting.frozen_cases with ⟨unmoved, -⟩ | ⟨moved, -⟩
    · obtain ⟨logging', logged'⟩ := finish rs loggedFrozen ⟨logging.logs, logging.log⟩
      exact ⟨logging', Or.inl ⟨unmoved, logged', manifest⟩⟩
    · rw [moved] at free
      cases free
  · have thawedLogged : Logged (thawed (frozen w)) rs [] := logged.frame rfl rfl rfl
    obtain ⟨logging', logged'⟩ := finish [] (thawedLogged.flushed flush logging.log (Or.inl logged.buf))
      (Logging.flush (w := thawed (frozen w)) ⟨logging.logs, logging.log⟩ flush)
    exact ⟨logging', Or.inr ⟨p, w₁, flush, logged', manifest⟩⟩

theorem Flat.flush {p : Table} (flat : Flat w.eng.manifest) (flush : Flush w p w') :
    Flat w'.eng.manifest := by
  obtain ⟨metrics, eng⟩ := flush.eng
  intro level deep
  rw [eng]
  show (w.eng.manifest.addSst 0 p.1).sstsAtLevel level = []
  rw [Manifest.sstsAtLevel_addSst, if_neg (by omega), flat level deep]

/-- **Closing** flushes the memtable, and the log with it. -/
theorem Durable.closed (durable : Durable stores w) (resting : Resting w)
    (single : w.eng.opts.maxLevels ≤ 1) (limits : WithinLimits w'.sys)
    (run : Ends close w () w') : Durable stores w' := by
  obtain ⟨rs, logged, alike⟩ := durable.matched
  have shut := shut_of_close resting limits (closesQuietly_of_single single) run
  have emptied : ∀ key, w'.eng.memtable.active.contents.lookup key = none := by
    intro key
    have empty := shut.empty key
    rw [MemTable.versionsOf_none shut.resting.free] at empty
    exact Option.toList_eq_nil_iff.mp empty
  have mirrors : Mirrors stores w' := fun t key => by
    rw [visible, shut.versionsOf]
    exact durable.mirrors t key
  obtain ⟨logging, ⟨unmoved, logged', manifest⟩ | ⟨p, w₁, flush, logged', manifest⟩⟩ :=
    logged.closed_single resting durable.logging single limits run
  · refine ⟨logging, ⟨rs, logged', alike_of_empty emptied fun key => ?_⟩, ?_, mirrors⟩
    · -- nothing was flushed, so the log shows an empty memtable
      have same := alike key
      rcases resting.frozen_cases with ⟨-, empty⟩ | ⟨moved, -⟩
      · rw [empty, SortedMap.lookup_empty, Option.map_none, eq_comm, Option.map_eq_none_iff] at same
        exact same
      · rw [unmoved, resting.free] at moved
        cases moved
    · rw [manifest]
      exact durable.flat
  · refine ⟨logging, ⟨[], logged', alike_of_empty emptied fun key => SortedMap.lookup_empty⟩, ?_,
      mirrors⟩
    rw [manifest]
    exact Flat.flush (w := thawed (frozen w)) durable.flat flush

/-- What a directory with the tables of `e` and these records in its log shows. -/
def shownOnDisk (e : Engine) (rs : List Record) (t : Nat) (key : Bytes) : Option Bytes :=
  (((SortedMap.empty.insertAll (rs.map Record.binding)).lookup key).or
    (versionsIn key e.sstReaders.reverse).head?).bind (shown t)

/-- The directory holds the tables of `e` and these records in its log.  Opened again, it shows
what the stores leave. -/
structure Leaves (e : Engine) (crc : Bytes → UInt32) (d : Dir) (stores : List Store)
    (rs : List Record) : Prop where
  files : ∀ p ∈ e.sstReaders, ∃ data, d.lookup (.sst p.1.id) = some data ∧
    SSTableReader.parse data p.1.id = .ok p.2
  manifest : Saved d e.manifest
  logs : OneLog d
  log : logOf crc d = .ok rs
  keys : ∀ r ∈ rs, r.key.length < 2 ^ 16
  flat : Flat e.manifest
  shows : ∀ t key, shownOnDisk e rs t key = ((ledger stores).lookup key).bind (shown t)

/-- With a single level the tables are listed in the order in which they are searched. -/
theorem versionsIn_listing (inv : Inv w) (flat : Flat w.eng.manifest) (key : Bytes) :
    versionsIn key (listing w.eng.manifest w.eng.sstReaders).reverse =
      versionsIn key w.eng.sstReaders.reverse := by
  have none : versionsIn key (deeper w.eng) = [] := by
    rw [deeper_eq_nil flat]
    rfl
  rw [inv.listing_eq, deeper_eq_nil flat, List.append_nil, inv.versionsIn_eq none]

/-- **A durable engine leaves everything on disk.** -/
theorem Durable.leaves (durable : Durable stores w) (resting : Resting w) (fits : FilesFit w.sys) :
    ∃ rs, Leaves w.eng w.sys.env.crc w.sys.dir stores rs ∧
      w.sys.dir.lookup (.wal 1) = some (encodeLog w.sys.env.crc rs) ∧
      Logged w rs [] ∧
      Alike w.eng.memtable.active.contents (SortedMap.empty.insertAll (rs.map Record.binding)) := by
  obtain ⟨rs, logged, alike⟩ := durable.matched
  have file : w.sys.dir.lookup (.wal 1) = some (encodeLog w.sys.env.crc rs) :=
    durable.logging.log ▸ logged.file
  have short := logged.fits fits resting.inv.history
  rw [List.append_nil] at short
  refine ⟨rs, ⟨resting.stored.files, resting.stored.manifest, durable.logging.logs,
    logOf_of_lookup durable.logging.logs file short, alike.keys fun b member =>
      resting.inv.memKeys _ List.mem_cons_self b member, durable.flat, fun t key => ?_⟩, file, logged,
    alike⟩
  have before := durable.mirrors t key
  rw [visible, Engine.versionsOf, MemTable.versionsOf_none resting.free, List.head?_append,
    Option.head?_toList, alike.bind_or] at before
  exact before

namespace Leaves

variable {e : Engine} {s s' : Sys} {rs : List Record} {opts : Options}

/-- An engine with these tables would rest on this directory. -/
theorem resting {s₀ : Sys} (leaves : Leaves e s.env.crc s.dir stores rs) (resting : Resting ⟨e, s₀⟩)
    (history : s.dir = applyOps s.journal ∅) : Resting ⟨e, s⟩ where
  inv :=
    { tables := resting.inv.tables
      listed := resting.inv.listed
      apart := resting.inv.apart
      memtable := resting.inv.memtable
      memKeys := resting.inv.memKeys
      history }
  onDisk := ⟨leaves.files, resting.onDisk.log⟩
  free := resting.free
  ids := resting.ids
  manifest := leaves.manifest

/-- What opening replays and what the engine then shows. -/
theorem reopened {e' : Engine} (leaves : Leaves e s.env.crc s.dir stores rs)
    (resting : Resting ⟨e, s⟩) (fits : FilesFit s) (run : Ends (openWithOptions opts) s e' s') :
    Resting ⟨e', s'⟩ ∧ Reopened ⟨e, s⟩ opts rs e' ∧ Mirrors stores ⟨e', s'⟩ := by
  have keys : ∀ b ∈ e'.memtable.active.contents.entries, b.1.length < 2 ^ 16 := by
    obtain ⟨records, log, contents⟩ := (ends_openWithOptions run).1.log
    obtain rfl : rs = records := Except.ok.inj (leaves.log.symm.trans log)
    intro b member
    rw [contents] at member
    rcases SortedMap.mem_insertAll member with none | replayed
    · cases none
    · obtain ⟨r, isRecord, rfl⟩ := List.mem_map.mp replayed
      exact leaves.keys r isRecord
  obtain ⟨⟨records, log, reopened⟩, resting'⟩ := resting.reopened fits (.refl s) (by simp) run keys
  obtain rfl : rs = records := Except.ok.inj (leaves.log.symm.trans log)
  refine ⟨resting', reopened, fun t key => ?_⟩
  rw [← leaves.shows t key, visible, Engine.versionsOf, MemTable.versionsOf_none resting'.free,
    reopened.contents, reopened.readers, ← List.map_reverse, List.head?_append,
    Option.head?_toList, shownOnDisk, ← versionsIn_listing resting.inv leaves.flat key]
  rw [versionsIn, versionsIn, versions, versions, List.filterMap_map]
  rfl

/-- **Opening** a directory whose log ends with a whole record. -/
theorem opened {e' : Engine} (leaves : Leaves e s.env.crc s.dir stores rs)
    (resting : Resting ⟨e, s⟩) (fits : FilesFit s)
    (file : s.dir.lookup (.wal 1) = some (encodeLog s.env.crc rs))
    (run : Ends (openWithOptions opts) s e' s') :
    Durable stores ⟨e', s'⟩ ∧ Resting ⟨e', s'⟩ := by
  obtain ⟨resting', reopened, mirrors⟩ := leaves.reopened resting fits run
  refine ⟨⟨.opened leaves.logs run, ⟨rs, .opened leaves.logs (by rw [file]; rfl) run, ?_⟩,
    fun level deep => ?_, mirrors⟩, resting'⟩
  · rw [reopened.contents]
    exact .refl _
  · rw [reopened.manifest, Manifest.sstsAtLevel_reloaded, leaves.flat level deep]
    rfl

end Leaves

/-- Opened again, the directory shows what the stores leave, and its log ends with a whole
record. -/
def HasAll (stores : List Store) (s : Sys) : Prop :=
  ∃ e rs, Resting ⟨e, s⟩ ∧ Leaves e s.env.crc s.dir stores rs ∧
    s.dir.lookup (.wal 1) = some (encodeLog s.env.crc rs)

theorem Durable.hasAll (durable : Durable stores w) (resting : Resting w) (fits : FilesFit w.sys) :
    HasAll stores w.sys := by
  obtain ⟨rs, leaves, file, -, -⟩ := durable.leaves resting fits
  exact ⟨w.eng, rs, resting, leaves, file⟩

theorem HasAll.frame {s s' : Sys} (hasAll : HasAll stores s) (dir : s'.dir = s.dir)
    (journal : s'.journal = s.journal) (env : s'.env = s.env) : HasAll stores s' := by
  obtain ⟨e, rs, resting, leaves, file⟩ := hasAll
  rw [← dir, ← env] at leaves file
  refine ⟨e, rs, leaves.resting resting ?_, leaves, file⟩
  rw [dir, journal]
  exact resting.inv.history

/-- **However a session ends**, everything is left. -/
theorem Durable.left {s : Sys} (durable : Durable stores w) (resting : Resting w)
    (single : w.eng.opts.maxLevels ≤ 1) (left : Left w s) (fits : FilesFit s) :
    HasAll stores s := by
  -- the buffer is empty, so dropping the engine does nothing more
  have unbuffered : ∀ {w₁ : World}, Durable stores w₁ → drop w₁ = w₁.sys := by
    rintro w₁ ⟨-, ⟨rs, logged, -⟩, -, -⟩
    exact BufWriter.drop_of_empty logged.buf
  cases left with
  | @closed w₁ closes =>
      obtain ⟨ops, did, -⟩ := BufWriter.drop_did w₁.eng.wal.file w₁.sys
      have limits : WithinLimits w₁.sys := fits.withinLimits.of_extends ⟨ops, did⟩
      have durable₁ := durable.closed resting single limits closes
      rw [unbuffered durable₁] at fits ⊢
      exact durable₁.hasAll (resting.ends_close limits closes) fits
  | dropped =>
      rw [unbuffered durable] at fits ⊢
      exact durable.hasAll resting fits
  | killed => exact durable.hasAll resting fits

end KvEngine
