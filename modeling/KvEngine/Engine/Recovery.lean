import KvEngine.Engine.Files

/-!
# What opening a directory recovers

An engine that is opened on the files of another one answers from the records in the
log, and then from the tables in the reverse order of the manifest.
-/

namespace KvEngine

open Foundations Engine

variable {w : World} {s : Sys} {t : Nat} {opts : Options} {records : List Record} {e : Engine}

/-- The directory can be opened, and the lookups in the engine answer as `found` says. -/
def Recovers (opts : Options) (s : Sys) (found : Bytes → Option Bytes) : Prop :=
  ∃ e s', Ends (openWithOptions opts) s e s' ∧ ∀ key, answer (get key) ⟨e, s'⟩ = .ok (found key)

/-- What the tables of `w` show behind replayed records. -/
def replayed (w : World) (t : Nat) (records : List Record) (key : Bytes) : Option Bytes :=
  (((SortedMap.empty.insertAll (records.map Record.binding)).lookup key).or
    (versionsIn key (listing w.eng.manifest w.eng.sstReaders).reverse).head?).bind (shown t)

/-- What maps show, the last one first, behind replayed records. -/
def shownBehind (t : Nat) (records : List Record) (maps : List (SortedMap Bytes Bytes))
    (key : Bytes) : Option Bytes :=
  (((SortedMap.empty.insertAll (records.map Record.binding)).lookup key).or
    (versions (fun map => map.lookup key) maps.reverse).head?).bind (shown t)

theorem versions_map (key : Bytes) (tables : List Table) :
    versions (fun map => map.lookup key) (tables.map Table.map).reverse =
      versionsIn key tables.reverse := by
  rw [← List.map_reverse, versions, List.filterMap_map]
  rfl

theorem replayed_eq (w : World) (t : Nat) (records : List Record) :
    replayed w t records =
      shownBehind t records ((listing w.eng.manifest w.eng.sstReaders).map Table.map) := by
  funext key
  rw [replayed, shownBehind, versions_map]

/-- What is recovered is determined. -/
theorem Recovers.unique {found found' : Bytes → Option Bytes} (recovers : Recovers opts s found)
    (recovers' : Recovers opts s found') : found = found' := by
  obtain ⟨e, s', opened, answers⟩ := recovers
  obtain ⟨e', s'', opened', answers'⟩ := recovers'
  obtain ⟨rfl, rfl⟩ := Ends.unique opened opened'
  funext key
  have same := answers key
  rw [answers' key] at same
  exact (Except.ok.inj same).symm

/-- **A directory whose manifest, tables and log can be read** is opened, and every lookup
is answered from the records of the log and then from the tables, the last one first. -/
theorem opens_answering (faultless : s.env.Faultless) {m : Manifest} {tables : List Table}
    (manifest : manifestOf s.dir = .ok m) (opened : tablesOf s.dir m.levels.flatten = .ok tables)
    (readable : ∀ p ∈ tables, p.2.Holds p.map ∧ p.2.sstId = p.1.id ∧ p.1.id + 1 < u64Limit)
    (distinct : (tables.map (fun p => p.1.id)).Nodup)
    (log : logOf s.env.crc s.dir = .ok records) (opts : Options) :
    ∃ e s', Ends (openWithOptions opts) s e s' ∧ s.Did (openOps s.dir) s' ∧ ∀ key,
      answer (get key) ⟨e, s'⟩ = .ok (shownBehind s'.time records (tables.map Table.map) key) := by
  obtain ⟨e, s', opens⟩ := openWithOptions_run faultless opts manifest opened
    (fun p hp => (readable p hp).2.2) log
  obtain ⟨recovered, did⟩ := ends_openWithOptions opens
  refine ⟨e, s', opens, did, fun key => ?_⟩
  have readers : e.sstReaders = tables := by
    have decoded := recovered.manifest
    rw [manifest] at decoded
    have again := recovered.readers
    rw [← Except.ok.inj decoded, opened] at again
    exact (Except.ok.inj again).symm
  have active : e.memtable.active.contents =
      SortedMap.empty.insertAll (records.map Record.binding) := by
    obtain ⟨records', found, contents⟩ := recovered.log
    rw [log] at found
    cases found
    exact contents
  have served : Served (blockTruth e.sstReaders e.nextSstId) e.sstReaders e.blockCache := by
    refine ⟨fun p hp => (readable p (readers ▸ hp)).1, fun p hp => ?_, ?_⟩
    · refine serves_blockTruth (fun q hq => (readable q (readers ▸ hq)).2.1) (fun q hq => ?_)
        (readers ▸ distinct) hp
      rw [recovered.nextSstId]
      exact lt_nextIdAfter hq
    · rw [recovered.blockCache]
      exact coherent_new opts
  obtain ⟨c, metrics, n, -, run⟩ := get_served (w := ⟨e, s'⟩) recovered.memtable.1 served key
  rw [answer_of_ok run, visible, versionsOf, MemTable.versionsOf_none recovered.memtable.2.1, active,
    readers, shownBehind, versions_map, List.head?_append]
  show Except.ok (Option.bind (((SortedMap.empty.insertAll _).lookup key).toList.head?.or _) _) = _
  rw [Option.head?_toList]

/-- A table of a resting state can be read again. -/
theorem Resting.readable (resting : Resting w) {p : Table} (member : p ∈ w.eng.sstReaders) :
    p.reloaded.2.Holds p.reloaded.map ∧ p.reloaded.2.sstId = p.reloaded.1.id ∧
      p.reloaded.1.id + 1 < u64Limit := by
  have described := resting.inv.tables.described p member
  exact ⟨described.holds, described.named,
    lt_of_le_of_lt (resting.inv.tables.fresh p member) resting.ids⟩

/-- **A directory with the manifest of a resting state**, files of its tables and a readable
log is opened, and recovers what the tables that are there show behind the records. -/
theorem Resting.recovers_some (resting : Resting w) (fits : FilesFit w.sys)
    (faultless : s.env.Faultless) (still : s.ClockAt t)
    (manifest : s.dir.lookup .manifest = w.sys.dir.lookup .manifest)
    (files : ∀ p ∈ w.eng.sstReaders, ∀ data, s.dir.lookup (.sst p.1.id) = some data →
      w.sys.dir.lookup (.sst p.1.id) = some data)
    (log : logOf s.env.crc s.dir = .ok records) (opts : Options) :
    Recovers opts s (shownBehind t records
      (((listing w.eng.manifest w.eng.sstReaders).filter
        (fun p => (s.dir.lookup (.sst p.1.id)).isSome)).map Table.map)) := by
  have decoded : manifestOf s.dir = .ok w.eng.manifest.reloaded := by
    rw [← resting.stored.manifestOf_eq resting.inv resting.ids fits, manifestOf, manifestOf, manifest]
  have distinct : ((listing w.eng.manifest w.eng.sstReaders).map (fun p => p.1.id)).Nodup := by
    have ids := resting.inv.listed.distinct
    rw [Manifest.Distinct, ← resting.inv.listed.map_listing, List.map_map] at ids
    exact ids
  have readable : ∀ p ∈ ((listing w.eng.manifest w.eng.sstReaders).filter
      (fun p => (s.dir.lookup (.sst p.1.id)).isSome)).map Table.reloaded,
      p.2.Holds p.map ∧ p.2.sstId = p.1.id ∧ p.1.id + 1 < u64Limit := by
    intro p hp
    obtain ⟨q, hq, rfl⟩ := List.mem_map.mp hp
    exact resting.readable (mem_listing (List.mem_filter.mp hq).1)
  obtain ⟨e, s', opens, did, answers⟩ := opens_answering faultless decoded
    (resting.stored.tablesOf_some resting.inv files) readable (by
      rw [List.map_map]
      exact distinct.sublist (List.filter_sublist.map _)) log opts
  refine ⟨e, s', opens, fun key => ?_⟩
  rw [answers, (still.of_extends ⟨_, did⟩).time, List.map_map]
  rfl

/-- **A directory with the files of a resting state** and a readable log is opened, and
recovers what the tables show behind the records of the log. -/
theorem Resting.recovers (resting : Resting w) (fits : FilesFit w.sys) (faultless : s.env.Faultless)
    (still : s.ClockAt t) (files : ∀ f, (∀ n, f ≠ .wal n) → s.dir.lookup f = w.sys.dir.lookup f)
    (log : logOf s.env.crc s.dir = .ok records) (opts : Options) :
    Recovers opts s (replayed w t records) := by
  have some := resting.recovers_some fits faultless still (files .manifest (by simp))
    (fun p _ data found => files (.sst p.1.id) (by simp) ▸ found) log opts
  have all : (listing w.eng.manifest w.eng.sstReaders).filter
      (fun p => (s.dir.lookup (.sst p.1.id)).isSome) = listing w.eng.manifest w.eng.sstReaders := by
    refine List.filter_eq_self.mpr fun p member => ?_
    obtain ⟨data, present, -⟩ := resting.stored.files p (mem_listing member)
    rw [files _ (by simp), present]
    rfl
  rw [all] at some
  exact replayed_eq w t records ▸ some

/-- A directory with the files of a resting state and a readable log is opened. -/
theorem Resting.reopens (resting : Resting w) (fits : FilesFit w.sys) (faultless : s.env.Faultless)
    (files : ∀ f, (∀ n, f ≠ .wal n) → s.dir.lookup f = w.sys.dir.lookup f)
    (log : logOf s.env.crc s.dir = .ok records) (opts : Options) :
    ∃ e s', Ends (openWithOptions opts) s e s' := by
  have decoded : manifestOf s.dir = .ok w.eng.manifest.reloaded := by
    rw [← resting.stored.manifestOf_eq resting.inv resting.ids fits, manifestOf, manifestOf,
      files .manifest (by simp)]
  have readers := resting.stored.tablesOf_eq resting.inv fun id => files (.sst id) (by simp)
  refine openWithOptions_run faultless opts decoded readers (fun p hp => ?_) log
  obtain ⟨q, hq, rfl⟩ := List.mem_map.mp hp
  exact (resting.readable (mem_listing hq)).2.2

/-- The same for a directory that differs in the bytes of the log only. -/
theorem Resting.recovers_log (resting : Resting w) (kept : Kept w) (fits : FilesFit w.sys)
    (faultless : s.env.Faultless) (still : s.ClockAt t)
    (files : ∀ f, f ≠ .wal 1 → s.dir.lookup f = w.sys.dir.lookup f) {data : Bytes}
    (log : s.dir.lookup (.wal 1) = some data)
    (replays : WALReader.collect (WALReader.items s.env.crc data) = .ok records) (opts : Options) :
    Recovers opts s (replayed w t records) := by
  have logs : OneLog s.dir := by
    intro n different
    rw [files _ (by simpa using different)]
    exact kept.logs n different
  refine resting.recovers fits faultless still (fun f notLog => files f (notLog 1)) ?_ opts
  rw [logOf, logs.walPathOf, log]
  exact replays

/-! ## Recoveries that can be evaluated -/

/-- The directory can be opened, and then the lookup finds the value. -/
def recoversTo (opts : Options) (s : Sys) (key : Bytes) (found : Option Bytes) : Bool :=
  passes (openWithOptions opts) s fun e s' => passes (get key) ⟨e, s'⟩ fun x _ => x == found

theorem Recovers.eq_of_recoversTo {found : Bytes → Option Bytes} (recovers : Recovers opts s found)
    {key : Bytes} {value : Option Bytes} (passed : recoversTo opts s key value = true) :
    found key = value := by
  obtain ⟨e, s', opened, answers⟩ := recovers
  obtain ⟨e', s'', opened', rest⟩ := ends_of_passes passed
  obtain ⟨x, w', got, same⟩ := ends_of_passes rest
  obtain ⟨rfl, rfl⟩ := Ends.unique opened opened'
  have equal := answers key
  rw [answer_of_ok got, eq_of_beq same] at equal
  exact (Except.ok.inj equal).symm

end KvEngine
