import KvEngine.Engine.Cascade
import KvEngine.Engine.Open
import KvEngine.Wal.Recovery

/-!
# What opening a directory recovers

`Recovered` says what the engine holds that was opened on a directory: the tables
that the manifest lists level by level, as far as their files are there, and a
memtable with the records of the log.  Opening changes nothing on disk but to
create a missing log.
-/

namespace KvEngine

open Foundations

/-- The tables that a list of metadata stands for in a directory: the ones whose
files are there. -/
def tablesOf (d : Dir) : List SSTMeta → Result (List Table)
  | [] => .ok []
  | sst :: rest =>
      match d.lookup (.sst sst.id) with
      | none => tablesOf d rest
      | some data => do
          let reader ← SSTableReader.parse data sst.id
          let later ← tablesOf d rest
          .ok ((sst, reader) :: later)

/-- The next free id once the tables are open, when `next` was free before. -/
def nextIdAfter : List Table → Nat → Nat
  | [], next => next
  | p :: rest, next => nextIdAfter rest (if p.1.id ≥ next then p.1.id + 1 else next)

/-- The log that a directory offers for replay. -/
def walPathOf (d : Dir) : FileName := (d.keys.find? (fun f => f matches .wal _)).getD (.wal 1)

/-- The records of a directory's log. -/
def logOf (crc : Bytes → UInt32) (d : Dir) : Result (List Record) :=
  match d.lookup (walPathOf d) with
  | none => .ok []
  | some data => WALReader.collect (WALReader.items crc data)

/-- The manifest of a directory. -/
def manifestOf (d : Dir) : Result Manifest :=
  match d.lookup .manifest with
  | none => .ok Manifest.new
  | some data => Manifest.decode data

/-- What a replayed record puts into the memtable. -/
def Record.binding (r : Record) : Bytes × Bytes := (r.key, Engine.replayValue r)

/-- What the engine holds after it was opened on the directory `d`. -/
structure Recovered (opts : Options) (crc : Bytes → UInt32) (d : Dir) (e : Engine) : Prop where
  manifest : manifestOf d = .ok e.manifest
  readers : tablesOf d e.manifest.levels.flatten = .ok e.sstReaders
  nextSstId : e.nextSstId = nextIdAfter e.sstReaders 1
  log : ∃ records, logOf crc d = .ok records ∧
    e.memtable.active.contents = SortedMap.empty.insertAll (records.map Record.binding)
  memtable : e.memtable.Valid ∧ e.memtable.immutable = none ∧
    e.memtable.maxSize = opts.memtableSize
  wal : e.wal = ⟨⟨walPathOf d, []⟩⟩
  nextSeq : e.nextSeq = 1
  options : e.opts = opts
  blockCache : e.blockCache =
    if opts.blockCacheSize > 0 then some (BlockCache.new opts.blockCacheSize) else none

namespace Engine

variable {s s' : Sys}

theorem ends_fileExists {f : FileName} {b : Bool} :
    Ends (fileExists f) s b s' ↔ b = (s.dir.lookup f).isSome ∧ s' = s := by
  simp only [fileExists, ends_bind, ends_get, ends_pure]
  constructor
  · rintro ⟨a, s₁, ⟨rfl, rfl⟩, rfl, rfl⟩
    exact ⟨rfl, rfl⟩
  · rintro ⟨rfl, rfl⟩
    exact ⟨_, _, ⟨rfl, rfl⟩, rfl, rfl⟩

theorem ends_load {m : Manifest} (run : Ends (Manifest.load .manifest) s m s') :
    manifestOf s.dir = .ok m ∧ s.Did [] s' := by
  simp only [Manifest.load, ends_bind, ends_fileExists] at run
  obtain ⟨b, s₁, ⟨rfl, rfl⟩, rest⟩ := run
  unfold manifestOf
  cases found : s₁.dir.lookup .manifest with
  | none =>
      simp only [found, Option.isSome_none, Bool.false_eq_true, if_false, ends_pure] at rest
      obtain ⟨rfl, rfl⟩ := rest
      exact ⟨rfl, .refl _⟩
  | some data =>
      simp only [found, Option.isSome_some, if_true, ends_bind, ends_liftResult] at rest
      obtain ⟨data', s₂, read, decoded, rfl⟩ := rest
      obtain ⟨present, did⟩ := ends_readFile read
      rw [found] at present
      cases present
      exact ⟨decoded, did⟩

theorem ends_openLevel {ssts : List SSTMeta} {next next' : Nat} {tables : List Table}
    (run : Ends (openLevel ssts next) s (tables, next') s') :
    tablesOf s.dir ssts = .ok tables ∧ next' = nextIdAfter tables next ∧ s.Did [] s' := by
  induction ssts generalizing next tables s with
  | nil =>
      obtain ⟨same, rfl⟩ := ends_pure.mp run
      cases same
      exact ⟨rfl, rfl, .refl _⟩
  | cons sst ssts inductionHypothesis =>
      simp only [openLevel, ends_bind, ends_fileExists] at run
      obtain ⟨b, s₁, ⟨rfl, rfl⟩, rest⟩ := run
      rw [tablesOf]
      cases found : s₁.dir.lookup (.sst sst.id) with
      | none =>
          simp only [found, Option.isSome_none, Bool.false_eq_true, if_false] at rest
          exact inductionHypothesis rest
      | some data =>
          simp only [found, Option.isSome_some, if_true, ends_bind,
            SSTableReader.openWithCache, ends_liftResult] at rest
          obtain ⟨r, s₂, ⟨data', s₃, read, parsed, rfl⟩, next₁, s₄, ⟨step, rfl⟩, ⟨later, next₂⟩, s₅,
            rest, result⟩ := rest
          obtain ⟨present, did⟩ := ends_readFile read
          rw [found] at present
          cases present
          obtain ⟨same, rfl⟩ := ends_pure.mp result
          cases same
          have nextIs : next₁ = if sst.id ≥ next then sst.id + 1 else next := by
            unfold nextFreeId at step
            split at step
            · next large => rw [if_pos large, (checkedAdd_eq_ok.mp step).2]
            · next small =>
                cases step
                rw [if_neg small]
          subst nextIs
          obtain ⟨opened, nextId, didLater⟩ := inductionHypothesis rest
          rw [did.dir, applyOps_nil] at opened
          refine ⟨?_, nextId, did.trans didLater⟩
          simp only [parsed, Result.ok_bind, opened]

theorem tablesOf_append {d : Dir} {ssts₁ ssts₂ : List SSTMeta} {tables₁ tables₂ : List Table}
    (first : tablesOf d ssts₁ = .ok tables₁) (later : tablesOf d ssts₂ = .ok tables₂) :
    tablesOf d (ssts₁ ++ ssts₂) = .ok (tables₁ ++ tables₂) := by
  induction ssts₁ generalizing tables₁ with
  | nil =>
      cases first
      exact later
  | cons sst ssts₁ inductionHypothesis =>
      rw [tablesOf] at first
      rw [List.cons_append, tablesOf]
      cases found : d.lookup (.sst sst.id) with
      | none =>
          simp only [found] at first
          exact inductionHypothesis first
      | some data =>
          simp only [found, Result.bind_eq_ok, Except.ok.injEq] at first
          obtain ⟨r, parsed, rest, others, rfl⟩ := first
          simp only [parsed, Result.ok_bind, inductionHypothesis others, List.cons_append]

theorem nextIdAfter_append (tables₁ tables₂ : List Table) (next : Nat) :
    nextIdAfter (tables₁ ++ tables₂) next = nextIdAfter tables₂ (nextIdAfter tables₁ next) := by
  induction tables₁ generalizing next with
  | nil => rfl
  | cons p tables₁ inductionHypothesis => exact inductionHypothesis _

theorem ends_openLevels {levels : List (List SSTMeta)} {next next' : Nat} {tables : List Table}
    (run : Ends (openLevels levels next) s (tables, next') s') :
    tablesOf s.dir levels.flatten = .ok tables ∧ next' = nextIdAfter tables next ∧ s.Did [] s' := by
  induction levels generalizing next tables s with
  | nil =>
      obtain ⟨same, rfl⟩ := ends_pure.mp run
      cases same
      exact ⟨rfl, rfl, .refl _⟩
  | cons level levels inductionHypothesis =>
      simp only [openLevels, ends_bind, ends_pure] at run
      obtain ⟨⟨readers, next₁⟩, s₁, first, ⟨later, next₂⟩, s₂, rest, same, rfl⟩ := run
      cases same
      obtain ⟨opened, rfl, did⟩ := ends_openLevel first
      obtain ⟨openedLater, rfl, didLater⟩ := inductionHypothesis rest
      rw [did.dir, applyOps_nil] at openedLater
      exact ⟨tablesOf_append opened openedLater, (nextIdAfter_append _ _ _).symm,
        did.trans didLater⟩

/-- An opened table is read from its file. -/
theorem mem_tablesOf {d : Dir} {ssts : List SSTMeta} {tables : List Table}
    (readers : tablesOf d ssts = .ok tables) {p : Table} (member : p ∈ tables) :
    ∃ data, d.lookup (.sst p.1.id) = some data ∧ SSTableReader.parse data p.1.id = .ok p.2 := by
  induction ssts generalizing tables with
  | nil =>
      cases readers
      cases member
  | cons sst ssts inductionHypothesis =>
      rw [tablesOf] at readers
      cases found : d.lookup (.sst sst.id) with
      | none =>
          simp only [found] at readers
          exact inductionHypothesis readers member
      | some data =>
          simp only [found, Result.bind_eq_ok, Except.ok.injEq] at readers
          obtain ⟨r, parsed, later, others, rfl⟩ := readers
          rcases List.mem_cons.mp member with rfl | isLater
          · exact ⟨data, found, parsed⟩
          · exact inductionHypothesis others isLater

theorem le_nextIdAfter (tables : List Table) (next : Nat) : next ≤ nextIdAfter tables next := by
  induction tables generalizing next with
  | nil => exact le_rfl
  | cons p tables inductionHypothesis =>
      refine le_trans ?_ (inductionHypothesis _)
      split <;> omega

theorem lt_nextIdAfter {tables : List Table} {next : Nat} {p : Table} (member : p ∈ tables) :
    p.1.id < nextIdAfter tables next := by
  induction tables generalizing next with
  | nil => cases member
  | cons q tables inductionHypothesis =>
      rcases List.mem_cons.mp member with rfl | later
      · refine lt_of_lt_of_le ?_ (le_nextIdAfter tables _)
        split <;> omega
      · exact inductionHypothesis later

theorem nextIdAfter_lt {tables : List Table} {next limit : Nat} (start : next < limit)
    (ids : ∀ p ∈ tables, p.1.id + 1 < limit) : nextIdAfter tables next < limit := by
  induction tables generalizing next with
  | nil => exact start
  | cons p tables inductionHypothesis =>
      refine inductionHypothesis ?_ fun q hq => ids q (List.mem_cons_of_mem _ hq)
      split
      · exact ids p List.mem_cons_self
      · exact start

/-- The log of a directory is a log file. -/
theorem exists_walPathOf (d : Dir) : ∃ n, walPathOf d = .wal n := by
  unfold walPathOf
  cases found : d.keys.find? (fun f => f matches .wal _) with
  | none => exact ⟨1, rfl⟩
  | some f =>
      have isLog := List.find?_some found
      cases f with
      | wal n => exact ⟨n, rfl⟩
      | manifest => cases isLog
      | sst id => cases isLog

theorem ends_walPathForDir {path : FileName} (run : Ends walPathForDir s path s') :
    path = walPathOf s.dir ∧ s.Did [] s' := by
  simp only [walPathForDir, ends_bind, ends_nextFault] at run
  obtain ⟨r, s₁, ⟨rfl, rfl⟩, rest⟩ := run
  split at rest
  · simp at rest
  · simp only [ends_bind, ends_get, ends_pure] at rest
    obtain ⟨a, s₂, ⟨rfl, rfl⟩, rfl, rfl⟩ := rest
    exact ⟨rfl, ⟨rfl, by simp, rfl, le_rfl⟩⟩

/-! ## Replay -/

theorem ends_applyRecords {records : List Record} {m m' : MemTable} (valid : m.Valid)
    (run : Ends (applyRecords records m) s m' s') :
    m'.Valid ∧ m'.immutable = m.immutable ∧ m'.maxSize = m.maxSize ∧
      m'.active.contents = m.active.contents.insertAll (records.map Record.binding) ∧
      s.Did [] s' := by
  induction records generalizing m s with
  | nil =>
      obtain ⟨rfl, rfl⟩ := ends_pure.mp run
      exact ⟨valid, rfl, rfl, rfl, .refl _⟩
  | cons r records inductionHypothesis =>
      simp only [applyRecords, ends_bind, ends_liftResult] at run
      obtain ⟨trailing, s₁, drawn, m₁, s₂, ⟨puts, rfl⟩, rest⟩ := run
      obtain ⟨m₂, run, valid₁, contents, immutable, maxSize⟩ :=
        valid.putNoFreeze_ok trailing r.key (replayValue r)
      rw [puts] at run
      cases run
      obtain ⟨valid', immutable', maxSize', contents', did⟩ := inductionHypothesis valid₁ rest
      refine ⟨valid', immutable'.trans immutable, maxSize'.trans maxSize, ?_,
        (ends_drawTrailing drawn).trans did⟩
      rw [contents', contents]
      rfl

theorem ends_replayWal {path : FileName} {memtableSize : Nat} {m : MemTable}
    (path_ : path = walPathOf s.dir) (run : Ends (replayWal path memtableSize) s m s') :
    (∃ records, logOf s.env.crc s.dir = .ok records ∧
        m.active.contents = SortedMap.empty.insertAll (records.map Record.binding)) ∧
      (m.Valid ∧ m.immutable = none ∧ m.maxSize = memtableSize) ∧ s.Did [] s' := by
  obtain ⟨valid, empty⟩ := MemTable.valid_withMaxSize memtableSize
  subst path_
  simp only [replayWal, ends_bind, ends_fileExists] at run
  obtain ⟨b, s₁, ⟨rfl, rfl⟩, rest⟩ := run
  unfold logOf
  cases found : s₁.dir.lookup (walPathOf s₁.dir) with
  | none =>
      simp only [found, Option.isSome_none, Bool.false_eq_true, if_false, ends_pure] at rest
      obtain ⟨rfl, rfl⟩ := rest
      exact ⟨⟨[], rfl, empty⟩, ⟨valid, rfl, rfl⟩, .refl _⟩
  | some data =>
      simp only [found, Option.isSome_some, if_true, ends_bind, ends_get, ends_liftResult] at rest
      obtain ⟨data', s₂, read, a, s₃, ⟨rfl, rfl⟩, records, s₄, ⟨collected, rfl⟩, applied⟩ := rest
      obtain ⟨present, did⟩ := ends_readFile read
      rw [found] at present
      cases present
      rw [did.env] at collected
      obtain ⟨valid', immutable, maxSize, contents, didApply⟩ := ends_applyRecords valid applied
      refine ⟨⟨records, collected, ?_⟩, ⟨valid', immutable, maxSize⟩, did.trans didApply⟩
      rw [contents, empty]

/-- What opening does to the log: it is created if it is missing. -/
def openOps (d : Dir) : List FsOp :=
  if (d.lookup (walPathOf d)).isSome then [] else [.truncate (walPathOf d)]

/-- **Opening** recovers what is in the directory. -/
theorem ends_openWithOptions {opts : Options} {e : Engine}
    (run : Ends (openWithOptions opts) s e s') :
    Recovered opts s.env.crc s.dir e ∧ s.Did (openOps s.dir) s' := by
  simp only [openWithOptions, ends_bind] at run
  obtain ⟨u, s₁, created, m, s₂, loaded, ⟨tables, next⟩, s₃, levels, path, s₄, located, memtable, s₅,
    replayed, wal, s₆, opened, result⟩ := run
  have did₁ := ends_syncFile created
  obtain ⟨manifest, did₂⟩ := ends_load loaded
  have until₂ : s.Did [] s₂ := did₁.trans did₂
  obtain ⟨readers, nextId, did₃⟩ := ends_openLevels levels
  have until₃ : s.Did [] s₃ := until₂.trans did₃
  obtain ⟨pathIs, did₄⟩ := ends_walPathForDir located
  have until₄ : s.Did [] s₄ := until₃.trans did₄
  obtain ⟨log, memtableIs, did₅⟩ := ends_replayWal (by rw [did₄.dir]; exact pathIs) replayed
  have until₅ : s.Did [] s₅ := until₄.trans did₅
  rw [did₁.dir, applyOps_nil] at manifest
  rw [until₂.dir, applyOps_nil] at readers
  rw [until₃.dir, applyOps_nil] at pathIs
  rw [until₄.env, until₄.dir, applyOps_nil] at log
  simp only [WALWriter.openWal, ends_bind, ends_pure] at opened
  obtain ⟨u₂, s₇, appended, rfl, rfl⟩ := opened
  obtain ⟨rfl, rfl⟩ := ends_pure.mp result
  subst pathIs nextId
  refine ⟨⟨manifest, readers, rfl, log, memtableIs, rfl, rfl, rfl, rfl⟩, ?_⟩
  have lookup : s₅.dir = s.dir := by rw [until₅.dir, applyOps_nil]
  unfold openOps
  rcases ends_openAppend appended with ⟨present, did⟩ | ⟨missing, did⟩
  · rw [lookup] at present
    rw [if_pos present]
    exact until₅.trans did
  · rw [lookup] at missing
    rw [missing]
    exact until₅.trans did

/-! ## Opening succeeds -/

theorem load_run (faultless : s.env.Faultless) {m : Manifest} (manifest : manifestOf s.dir = .ok m) :
    ∃ s', Manifest.load .manifest s = .ok m s' := by
  unfold manifestOf at manifest
  rw [Manifest.load, bind_apply_ok (ends_fileExists.mpr ⟨rfl, rfl⟩)]
  cases found : s.dir.lookup .manifest with
  | none =>
      simp only [found] at manifest
      cases manifest
      exact ⟨s, rfl⟩
  | some data =>
      simp only [found] at manifest
      obtain ⟨s', read⟩ := readFile_run faultless found
      refine ⟨s', ?_⟩
      simp only [Option.isSome_some, if_true]
      rw [bind_apply_ok read, manifest]
      rfl

theorem openLevel_run (faultless : s.env.Faultless) {ssts : List SSTMeta} (next : Nat)
    {tables : List Table} (readers : tablesOf s.dir ssts = .ok tables)
    (ids : ∀ p ∈ tables, p.1.id + 1 < u64Limit) :
    ∃ s', openLevel ssts next s = .ok (tables, nextIdAfter tables next) s' := by
  induction ssts generalizing next tables s with
  | nil =>
      cases readers
      exact ⟨s, rfl⟩
  | cons sst ssts inductionHypothesis =>
      rw [tablesOf] at readers
      rw [openLevel, bind_apply_ok (ends_fileExists.mpr ⟨rfl, rfl⟩)]
      cases found : s.dir.lookup (.sst sst.id) with
      | none =>
          simp only [found] at readers
          exact inductionHypothesis faultless next readers ids
      | some data =>
          simp only [found, Result.bind_eq_ok, Except.ok.injEq] at readers
          obtain ⟨r, parsed, later, others, rfl⟩ := readers
          obtain ⟨s₁, read⟩ := readFile_run faultless found
          obtain ⟨-, did⟩ := ends_readFile read
          have opens : SSTableReader.openWithCache (.sst sst.id) sst.id s = .ok r s₁ := by
            rw [SSTableReader.openWithCache, bind_apply_ok read, parsed]
            rfl
          have small := ids _ List.mem_cons_self
          have free : nextFreeId sst.id next = .ok (if sst.id ≥ next then sst.id + 1 else next) := by
            unfold nextFreeId
            split
            · exact checkedAdd_eq_ok.mpr ⟨small, rfl⟩
            · rfl
          obtain ⟨s', rest⟩ := inductionHypothesis (s := s₁) (by rw [did.env]; exact faultless)
            (if sst.id ≥ next then sst.id + 1 else next) (by rw [did.dir]; exact others)
            (fun p hp => ids p (List.mem_cons_of_mem _ hp))
          refine ⟨s', ?_⟩
          simp only [Option.isSome_some, if_true]
          rw [bind_apply_ok opens, free, bind_apply_ok (rfl : liftResult _ s₁ = _),
            bind_apply_ok rest]
          rfl

/-- The tables of two lists are the tables of the first one, then those of the second. -/
theorem tablesOf_split {d : Dir} {ssts₁ ssts₂ : List SSTMeta} {tables : List Table}
    (all : tablesOf d (ssts₁ ++ ssts₂) = .ok tables) :
    ∃ tables₁ tables₂, tables = tables₁ ++ tables₂ ∧ tablesOf d ssts₁ = .ok tables₁ ∧
      tablesOf d ssts₂ = .ok tables₂ := by
  induction ssts₁ generalizing tables with
  | nil => exact ⟨[], tables, rfl, rfl, all⟩
  | cons sst ssts₁ inductionHypothesis =>
      rw [List.cons_append, tablesOf] at all
      rw [tablesOf]
      cases found : d.lookup (.sst sst.id) with
      | none =>
          simp only [found] at all
          exact inductionHypothesis all
      | some data =>
          simp only [found, Result.bind_eq_ok, Except.ok.injEq] at all
          obtain ⟨r, parsed, later, others, rfl⟩ := all
          obtain ⟨tables₁, tables₂, rfl, first, second⟩ := inductionHypothesis others
          exact ⟨(sst, r) :: tables₁, tables₂, rfl,
            by simp only [parsed, Result.ok_bind, first], second⟩

theorem openLevels_run (faultless : s.env.Faultless) {levels : List (List SSTMeta)} (next : Nat)
    {tables : List Table} (readers : tablesOf s.dir levels.flatten = .ok tables)
    (ids : ∀ p ∈ tables, p.1.id + 1 < u64Limit) :
    ∃ s', openLevels levels next s = .ok (tables, nextIdAfter tables next) s' := by
  induction levels generalizing next tables s with
  | nil =>
      cases readers
      exact ⟨s, rfl⟩
  | cons level levels inductionHypothesis =>
      obtain ⟨tables₁, tables₂, rfl, first, second⟩ := tablesOf_split readers
      obtain ⟨s₁, run₁⟩ := openLevel_run faultless next first
        (fun p hp => ids p (List.mem_append_left _ hp))
      obtain ⟨-, -, did⟩ := ends_openLevel run₁
      obtain ⟨s', rest⟩ := inductionHypothesis (s := s₁) (by rw [did.env]; exact faultless)
        (nextIdAfter tables₁ next) (by rw [did.dir]; exact second)
        (fun p hp => ids p (List.mem_append_right _ hp))
      refine ⟨s', ?_⟩
      rw [openLevels, bind_apply_ok run₁]
      simp only
      rw [bind_apply_ok rest, nextIdAfter_append]
      rfl

theorem applyRecords_run (records : List Record) {m : MemTable} (valid : m.Valid) (s : Sys) :
    ∃ m' s', applyRecords records m s = .ok m' s' := by
  induction records generalizing m s with
  | nil => exact ⟨m, s, rfl⟩
  | cons r records inductionHypothesis =>
      let trailing := s.env.towers s.draws
      let s₁ : Sys := { s with draws := s.draws + 1 }
      obtain ⟨m₁, puts, valid₁, -⟩ := valid.putNoFreeze_ok trailing r.key (replayValue r)
      obtain ⟨m', s', rest⟩ := inductionHypothesis valid₁ s₁
      refine ⟨m', s', ?_⟩
      rw [applyRecords, bind_apply_ok (rfl : drawTrailing s = .ok trailing s₁), puts,
        bind_apply_ok (rfl : liftResult _ s₁ = _)]
      exact rest

/-- A log whose records can be read is replayed. -/
theorem replayWal_runAt {path : FileName} {data : Bytes} {records : List Record}
    (faultless : s.env.Faultless) (onDisk : s.dir.lookup path = some data)
    (replays : WALReader.collect (WALReader.items s.env.crc data) = .ok records)
    (memtableSize : Nat) :
    ∃ m s', replayWal path memtableSize s = .ok m s' ∧ s.Did [] s' := by
  obtain ⟨s₁, read⟩ := readFile_run faultless onDisk
  obtain ⟨-, did⟩ := ends_readFile read
  obtain ⟨valid, -⟩ := MemTable.valid_withMaxSize memtableSize
  obtain ⟨m, s', applied⟩ := applyRecords_run records valid s₁
  obtain ⟨-, -, -, -, didApply⟩ := ends_applyRecords valid applied
  refine ⟨m, s', ?_, did.trans didApply⟩
  rw [replayWal]
  simp only
  rw [bind_apply_ok (ends_fileExists.mpr ⟨rfl, rfl⟩), onDisk]
  simp only [Option.isSome_some, if_true]
  rw [bind_apply_ok read, bind_apply_ok (rfl : (MonadState.get : SysM Sys) s₁ = _), did.env,
    replays, bind_apply_ok (rfl : liftResult _ s₁ = _)]
  exact applied

theorem replayWal_run (faultless : s.env.Faultless) {records : List Record}
    (log : logOf s.env.crc s.dir = .ok records) (memtableSize : Nat) :
    ∃ m s', replayWal (walPathOf s.dir) memtableSize s = .ok m s' := by
  unfold logOf at log
  cases found : s.dir.lookup (walPathOf s.dir) with
  | none =>
      refine ⟨MemTable.withMaxSize memtableSize, s, ?_⟩
      rw [replayWal]
      simp only
      rw [bind_apply_ok (ends_fileExists.mpr ⟨rfl, rfl⟩), found]
      rfl
  | some data =>
      rw [found] at log
      obtain ⟨m, s', replayed, -⟩ := replayWal_runAt faultless found log memtableSize
      exact ⟨m, s', replayed⟩

/-- **Opening succeeds** when manifest, tables and log can be read. -/
theorem openWithOptions_run (faultless : s.env.Faultless) (opts : Options) {m : Manifest}
    {tables : List Table} {records : List Record} (manifest : manifestOf s.dir = .ok m)
    (readers : tablesOf s.dir m.levels.flatten = .ok tables)
    (ids : ∀ p ∈ tables, p.1.id + 1 < u64Limit) (log : logOf s.env.crc s.dir = .ok records) :
    ∃ e s', openWithOptions opts s = .ok e s' := by
  obtain ⟨s₁, created⟩ := syncFile_run faultless
  have did₁ := ends_syncFile created
  obtain ⟨s₂, loaded⟩ := load_run (s := s₁) (by rw [did₁.env]; exact faultless)
    (by rw [did₁.dir]; exact manifest)
  have until₂ : s.Did [] s₂ := did₁.trans (ends_load loaded).2
  obtain ⟨s₃, opened⟩ := openLevels_run (s := s₂) (by rw [until₂.env]; exact faultless) 1
    (by rw [until₂.dir]; exact readers) ids
  have until₃ : s.Did [] s₃ := until₂.trans (ends_openLevels opened).2.2
  obtain ⟨s₄, located⟩ : ∃ s₄, walPathForDir s₃ = .ok (walPathOf s.dir) s₄ := by
    rw [walPathForDir, bind_apply_ok (nextFault_run (by rw [until₃.env]; exact faultless))]
    refine ⟨{ s₃ with ioCount := s₃.ioCount + 1 }, ?_⟩
    have same : s₃.dir = s.dir := by rw [until₃.dir, applyOps_nil]
    rw [walPathOf, ← same]
    rfl
  have until₄ : s.Did [] s₄ := until₃.trans (ends_walPathForDir located).2
  have same : s₄.dir = s.dir := by rw [until₄.dir, applyOps_nil]
  obtain ⟨memtable, s₅, replayed⟩ := replayWal_run (s := s₄) (by rw [until₄.env]; exact faultless)
    (by rw [until₄.env, same]; exact log) opts.memtableSize
  rw [same] at replayed
  have until₅ : s.Did [] s₅ := until₄.trans (ends_replayWal (by rw [same]) replayed).2.2
  obtain ⟨s₆, appended⟩ := openAppend_run (s := s₅) (by rw [until₅.env]; exact faultless)
    (walPathOf s.dir)
  have opensWal : WALWriter.openWal (walPathOf s.dir) s₅ = .ok ⟨⟨walPathOf s.dir, []⟩⟩ s₆ := by
    rw [WALWriter.openWal, bind_apply_ok appended]
    rfl
  refine ⟨{
    wal := ⟨⟨walPathOf s.dir, []⟩⟩, memtable, manifest := m, sstReaders := tables
    nextSstId := nextIdAfter tables 1, nextSeq := 1, opts, metrics := {}
    blockCache :=
      if opts.blockCacheSize > 0 then some (BlockCache.new opts.blockCacheSize) else none }, s₆, ?_⟩
  rw [openWithOptions, bind_apply_ok created, bind_apply_ok loaded]
  simp only
  rw [bind_apply_ok opened]
  simp only
  rw [bind_apply_ok located, bind_apply_ok replayed, bind_apply_ok opensWal]
  rfl

end Engine

end KvEngine
