import KvEngine.Engine.Recovery
import KvEngine.Engine.Repair

/-!
# What a repair leaves

In a directory whose SSTable files all open, a repair lists these files at level 0 in
the order in which they are enumerated, and empties the log.  Opened on it, an engine
asks the file that was enumerated last first.
-/

namespace KvEngine

open Foundations Engine

/-- The entry that a repair lists for a file. -/
def placeholder (id : Nat) : SSTMeta := { id, level := 0, minKey := [], maxKey := [] }

/-- The ids of the SSTable files among the entries of a directory. -/
def sstIds : List FileName → List Nat
  | [] => []
  | .sst id :: entries => id :: sstIds entries
  | _ :: entries => sstIds entries

/-- The manifest with a list of files at level 0. -/
def listAll (ids : List Nat) (m : Manifest) : Manifest :=
  ids.foldl (fun m id => m.addSst 0 (placeholder id)) m

/-- The map that an SSTable file holds. -/
def fileMap (d : Dir) (id : Nat) : SortedMap Bytes Bytes :=
  match d.lookup (.sst id) with
  | none => SortedMap.empty
  | some data =>
      match SSTableReader.parse data id with
      | .ok r => r.contents
      | .error _ => SortedMap.empty

/-- What the SSTable files say about a key, in the order of an enumeration. -/
def fileVersions (d : Dir) (entries : List FileName) (key : Bytes) : List Bytes :=
  versions (fun id => (fileMap d id).lookup key) (sstIds entries)

theorem mem_sstIds {entries : List FileName} {id : Nat} :
    id ∈ sstIds entries ↔ FileName.sst id ∈ entries := by
  induction entries with
  | nil => simp [sstIds]
  | cons entry entries inductionHypothesis =>
      cases entry with
      | sst id' => simp [sstIds, inductionHypothesis]
      | manifest => simp [sstIds, inductionHypothesis]
      | wal n => simp [sstIds, inductionHypothesis]

theorem nodup_sstIds {entries : List FileName} (nodup : entries.Nodup) : (sstIds entries).Nodup := by
  induction entries with
  | nil => exact List.nodup_nil
  | cons entry entries inductionHypothesis =>
      obtain ⟨absent, nodupRest⟩ := List.nodup_cons.mp nodup
      have rest := inductionHypothesis nodupRest
      cases entry with
      | sst id => exact List.nodup_cons.mpr ⟨fun member => absent (mem_sstIds.mp member), rest⟩
      | manifest => exact rest
      | wal n => exact rest

theorem length_sstIds (entries : List FileName) : (sstIds entries).length ≤ entries.length := by
  induction entries with
  | nil => exact le_rfl
  | cons entry entries inductionHypothesis =>
      cases entry with
      | sst id => exact Nat.succ_le_succ inductionHypothesis
      | manifest => exact Nat.le_succ_of_le inductionHypothesis
      | wal n => exact Nat.le_succ_of_le inductionHypothesis

/-! ## The rebuilt manifest -/

theorem listAll_levels (ids : List Nat) (level : List SSTMeta) :
    listAll ids ⟨[level]⟩ = ⟨[level ++ ids.map placeholder]⟩ := by
  induction ids generalizing level with
  | nil => simp [listAll]
  | cons id ids inductionHypothesis =>
      have step : Manifest.addSst ⟨[level]⟩ 0 (placeholder id) = ⟨[level ++ [placeholder id]]⟩ := rfl
      change listAll ids (Manifest.addSst ⟨[level]⟩ 0 (placeholder id)) = _
      rw [step, inductionHypothesis, List.append_assoc, List.map_cons, List.singleton_append]

theorem listAll_new (ids : List Nat) :
    listAll ids Manifest.new = if ids = [] then Manifest.new else ⟨[ids.map placeholder]⟩ := by
  cases ids with
  | nil => rfl
  | cons id ids =>
      have first : Manifest.addSst Manifest.new 0 (placeholder id) = ⟨[[placeholder id]]⟩ := rfl
      change listAll ids (Manifest.addSst Manifest.new 0 (placeholder id)) = _
      rw [first, listAll_levels, if_neg (List.cons_ne_nil _ _)]
      rfl

theorem entries_listAll (ids : List Nat) :
    (listAll ids Manifest.new).levels.flatten = ids.map placeholder := by
  rw [listAll_new]
  split
  · next none =>
      rw [none]
      rfl
  · simp

/-- The rebuilt manifest is read back. -/
theorem decode_listAll {ids : List Nat} (few : ids.length < 2 ^ 32)
    (room : ∀ id ∈ ids, id < u64Limit) :
    Manifest.decode (listAll ids Manifest.new).encode = .ok (listAll ids Manifest.new) := by
  rw [listAll_new]
  split
  · rfl
  · have fits : Manifest.Fits ⟨[ids.map placeholder]⟩ := by
      refine ⟨by simp, fun level hl => ?_, fun level hl sst hs => ?_⟩
      · rw [List.mem_singleton.mp hl, List.length_map]
        exact few
      · rw [List.mem_singleton.mp hl] at hs
        obtain ⟨id, member, rfl⟩ := List.mem_map.mp hs
        exact ⟨room id member, by simp [placeholder], by simp [placeholder]⟩
    rw [Manifest.decode_encode fits, Manifest.reloaded, List.map_singleton, List.map_map]
    rfl

/-! ## The run of a repair -/

variable {s s' : Sys}

theorem repairSst_run (faultless : s.env.Faultless) (legible : Legible s.dir) {id : Nat}
    {data : Bytes} (present : s.dir.lookup (.sst id) = some data) (m : Manifest)
    (report : RepairReport) :
    ∃ s', repairSst id m report s = .ok (m.addSst 0 (placeholder id),
      { report with recoveredSsts := report.recoveredSsts + 1 }) s' ∧ s.Did [] s' := by
  obtain ⟨-, r, parsed, -⟩ := legible id data present
  obtain ⟨s', read⟩ := readFile_run faultless present
  refine ⟨s', ?_, (ends_readFile read).2⟩
  have opens : SSTableReader.openWithCache (.sst id) 0 s = .ok { r with sstId := 0 } s' := by
    rw [SSTableReader.openWithCache, bind_apply_ok read, SSTableReader.parse_withId parsed 0]
    rfl
  have attempted : attempt (SSTableReader.openWithCache (.sst id) 0) s =
      .ok (.ok { r with sstId := 0 }) s' := by
    rw [attempt, opens]
  rw [repairSst, bind_apply_ok attempted]
  rfl

theorem repairEntries_run (faultless : s.env.Faultless) (legible : Legible s.dir)
    {entries : List FileName} (present : ∀ id ∈ sstIds entries, (s.dir.lookup (.sst id)).isSome)
    (m : Manifest) (report : RepairReport) :
    ∃ s', repairEntries entries m report s = .ok (listAll (sstIds entries) m,
      { report with recoveredSsts := report.recoveredSsts + (sstIds entries).length }) s' ∧
      s.Did [] s' := by
  induction entries generalizing m report s with
  | nil => exact ⟨s, rfl, .refl s⟩
  | cons entry entries inductionHypothesis =>
      obtain ⟨s₁, looked⟩ := syncFile_run faultless
      have did₁ := ends_syncFile looked
      have dir₁ : s₁.dir = s.dir := by rw [did₁.dir, applyOps_nil]
      cases entry with
      | sst id =>
          obtain ⟨data, found⟩ := Option.isSome_iff_exists.mp (present id List.mem_cons_self)
          obtain ⟨s₂, first, did₂⟩ := repairSst_run (s := s₁) (by rw [did₁.env]; exact faultless)
            (by rw [dir₁]; exact legible) (by rw [dir₁]; exact found) m report
          have until₂ := did₁.trans did₂
          have dir₂ : s₂.dir = s.dir := by rw [until₂.dir, List.append_nil, applyOps_nil]
          obtain ⟨s₃, rest, did₃⟩ := inductionHypothesis (s := s₂)
            (by rw [until₂.env]; exact faultless) (by rw [dir₂]; exact legible)
            (fun id' member => by rw [dir₂]; exact present id' (List.mem_cons_of_mem _ member))
            (m.addSst 0 (placeholder id))
            { report with recoveredSsts := report.recoveredSsts + 1 }
          refine ⟨s₃, ?_, until₂.trans did₃⟩
          rw [repairEntries, bind_apply_ok looked, bind_apply_ok first]
          simp only
          rw [rest, sstIds, List.length_cons, Nat.add_assoc, Nat.add_comm 1]
          rfl
      | manifest =>
          obtain ⟨s₂, rest, did₂⟩ := inductionHypothesis (s := s₁)
            (by rw [did₁.env]; exact faultless) (by rw [dir₁]; exact legible)
            (by rw [dir₁]; exact present) m report
          refine ⟨s₂, ?_, did₁.trans did₂⟩
          rw [repairEntries, bind_apply_ok looked]
          · exact rest
          · simp
      | wal n =>
          obtain ⟨s₂, rest, did₂⟩ := inductionHypothesis (s := s₁)
            (by rw [did₁.env]; exact faultless) (by rw [dir₁]; exact legible)
            (by rw [dir₁]; exact present) m report
          refine ⟨s₂, ?_, did₁.trans did₂⟩
          rw [repairEntries, bind_apply_ok looked]
          · exact rest
          · simp

theorem save_run (faultless : s.env.Faultless) (m : Manifest) :
    ∃ s', m.save .manifest s = .ok () s' ∧ s.Did (manifestOps m) s' := by
  obtain ⟨s₁, truncated⟩ := createTruncate_run faultless .manifest
  have did₁ := ends_createTruncate truncated
  obtain ⟨s₂, written⟩ := writeFile_run (s := s₁) (by rw [did₁.env]; exact faultless) .manifest m.encode
  have did₂ := did₁.trans (ends_writeFile written)
  obtain ⟨s₃, synced⟩ := syncFile_run (s := s₂) (by rw [did₂.env]; exact faultless)
  refine ⟨s₃, ?_, by simpa [manifestOps] using did₂.trans (ends_syncFile synced)⟩
  rw [Manifest.save, bind_apply_ok truncated, bind_apply_ok written, synced]

/-- The log is empty afterwards, or there is none. -/
theorem truncateWal_run (faultless : s.env.Faultless) :
    ∃ s' ops, truncateWal s = .ok () s' ∧ s.Did ops s' ∧ (∀ op ∈ ops, op.file = .wal 1) ∧
      (s'.dir.lookup (.wal 1)).getD [] = [] := by
  rw [truncateWal, bind_apply_ok (ends_fileExists.mpr ⟨rfl, rfl⟩)]
  cases found : s.dir.lookup (.wal 1) with
  | none => exact ⟨s, [], rfl, .refl s, by simp, by rw [found]; rfl⟩
  | some data =>
      obtain ⟨s', truncated⟩ := createTruncate_run faultless (.wal 1)
      have did := ends_createTruncate truncated
      refine ⟨s', _, ?_, did, by simp [FsOp.file], ?_⟩
      · simp only [Option.isSome_some, if_true, ignoring, truncated]
      · rw [did.dir, applyOps_cons, applyOps_nil, FsOp.lookup_truncate]
        rfl

/-- What a repair leaves of a directory whose SSTable files all open. -/
structure Repaired (s : Sys) (entries : List FileName) (s' : Sys) : Prop where
  env : s'.env = s.env
  ticks : s.ticks ≤ s'.ticks
  tables : ∀ id, s'.dir.lookup (.sst id) = s.dir.lookup (.sst id)
  manifest : s'.dir.lookup .manifest = some (listAll (sstIds entries) Manifest.new).encode
  log : (s'.dir.lookup (.wal 1)).getD [] = []
  logs : OneLog s.dir → OneLog s'.dir

/-- **A repair** of such a directory succeeds and removes no file. -/
theorem repair_run (faultless : s.env.Faultless) (legible : Legible s.dir)
    {entries : List FileName} (present : ∀ id ∈ sstIds entries, (s.dir.lookup (.sst id)).isSome) :
    ∃ s', repair entries s = .ok ⟨0, (sstIds entries).length⟩ s' ∧ Repaired s entries s' := by
  obtain ⟨s₁, read⟩ := syncFile_run faultless
  have did₁ := ends_syncFile read
  have dir₁ : s₁.dir = s.dir := by rw [did₁.dir, applyOps_nil]
  obtain ⟨s₂, scanned, scanDid⟩ := repairEntries_run (s := s₁) (by rw [did₁.env]; exact faultless)
    (by rw [dir₁]; exact legible) (by rw [dir₁]; exact present) Manifest.new ⟨0, 0⟩
  have did₂ := did₁.trans scanDid
  have dir₂ : s₂.dir = s.dir := by rw [did₂.dir, List.append_nil, applyOps_nil]
  obtain ⟨s₃, saved, saveDid⟩ := save_run (s := s₂) (by rw [did₂.env]; exact faultless)
    (listAll (sstIds entries) Manifest.new)
  obtain ⟨s₄, ops, truncated, walDid, onlyLog, empty⟩ := truncateWal_run (s := s₃)
    (by rw [saveDid.env, did₂.env]; exact faultless)
  have did₄ := (did₂.trans saveDid).trans walDid
  have other : ∀ op ∈ ops, op.OfLog := fun op member => ⟨1, onlyLog op member⟩
  refine ⟨s₄, ?_, did₄.env, did₄.ticks, fun id => ?_, ?_, empty, fun logs => ?_⟩
  · rw [repair, bind_apply_ok read, bind_apply_ok scanned]
    simp only
    rw [bind_apply_ok saved, bind_apply_ok truncated, Nat.zero_add]
    rfl
  · rw [walDid.lookup_of_log other (by simp), lookup_sst_manifestOps saveDid, dir₂]
  · rw [walDid.lookup_of_log other (by simp), lookup_manifestOps saveDid]
  · have logs₃ := oneLog_manifestOps saveDid (dir₂ ▸ logs)
    refine logs₃.of_did walDid fun op member n different => ?_
    rw [onlyLog op member]
    simpa using Ne.symm different

/-! ## Opening a repaired directory -/

/-- The tables that are opened from a list of files. -/
theorem tablesOf_placeholders {d : Dir} (legible : Legible d) {ids : List Nat}
    (present : ∀ id ∈ ids, (d.lookup (.sst id)).isSome) :
    ∃ tables, tablesOf d (ids.map placeholder) = .ok tables ∧
      tables.map (fun p => p.1.id) = ids ∧
      (∀ p ∈ tables, p.2.Holds p.map ∧ p.2.sstId = p.1.id ∧ p.1.id + 1 < u64Limit) ∧
      ∀ key, versionsIn key tables = versions (fun id => (fileMap d id).lookup key) ids := by
  induction ids with
  | nil => exact ⟨[], rfl, rfl, by simp, fun _ => rfl⟩
  | cons id ids inductionHypothesis =>
      obtain ⟨tables, opened, names, readable, same⟩ :=
        inductionHypothesis fun i hi => present i (List.mem_cons_of_mem _ hi)
      obtain ⟨data, found⟩ := Option.isSome_iff_exists.mp (present id List.mem_cons_self)
      obtain ⟨room, r, parsed, holds⟩ := legible id data found
      refine ⟨(placeholder id, r) :: tables, ?_, ?_, fun p hp => ?_, fun key => ?_⟩
      · rw [List.map_cons, tablesOf]
        have found' : d.lookup (.sst (placeholder id).id) = some data := found
        have parsed' : SSTableReader.parse data (placeholder id).id = .ok r := parsed
        simp only [found', parsed', Result.ok_bind, opened]
      · rw [List.map_cons, names]
        rfl
      · rcases List.mem_cons.mp hp with rfl | later
        · exact ⟨holds, SSTableReader.sstId_parse parsed, room⟩
        · exact readable p later
      · have first : Table.map (placeholder id, r) = fileMap d id := by
          simp only [fileMap, found, parsed]
          rfl
        rw [versionsIn, versions_cons, versions_cons, ← versionsIn, same, first]

/-- **Opening a repaired directory.** Every lookup is answered from the file that was
enumerated last among those that hold the key. -/
theorem Repaired.opens {entries : List FileName} (repaired : Repaired s entries s')
    (faultless : s.env.Faultless) (legible : Legible s.dir) (logs : OneLog s.dir)
    (present : ∀ id ∈ sstIds entries, (s.dir.lookup (.sst id)).isSome) (distinct : entries.Nodup)
    (few : entries.length < 2 ^ 32) (opts : Options) :
    ∃ e s'', openWithOptions opts s' = .ok e s'' ∧ s''.env = s.env ∧ s.ticks ≤ s''.ticks ∧
      ∀ key, answer (get key) ⟨e, s''⟩ =
        .ok ((fileVersions s.dir entries key).getLast?.bind (shown s''.time)) := by
  have legible' : Legible s'.dir := legible.mono fun id data found => repaired.tables id ▸ found
  have present' : ∀ id ∈ sstIds entries, (s'.dir.lookup (.sst id)).isSome := fun id member => by
    rw [repaired.tables]
    exact present id member
  obtain ⟨tables, opened, names, readable, same⟩ := tablesOf_placeholders legible' present'
  have manifest : manifestOf s'.dir = .ok (listAll (sstIds entries) Manifest.new) := by
    rw [manifestOf, repaired.manifest]
    refine decode_listAll ((length_sstIds entries).trans_lt few) fun id member => ?_
    obtain ⟨data, found⟩ := Option.isSome_iff_exists.mp (present id member)
    exact (Nat.lt_succ_self id).trans (legible id data found).1
  rw [← entries_listAll] at opened
  have log : logOf s'.env.crc s'.dir = .ok [] := by
    have empty := repaired.log
    rw [logOf, (repaired.logs logs).walPathOf]
    cases found : s'.dir.lookup (.wal 1) with
    | none => rfl
    | some data =>
        obtain rfl : data = [] := by simpa [found] using empty
        rfl
  have noFault : s'.env.Faultless := repaired.env ▸ faultless
  obtain ⟨e, s'', opens, did, answers⟩ := opens_answering noFault manifest opened readable
    (by rw [names]; exact nodup_sstIds distinct) log opts
  refine ⟨e, s'', opens, did.env.trans repaired.env, repaired.ticks.trans did.ticks, fun key => ?_⟩
  have sameFiles : (fun id => (fileMap s'.dir id).lookup key) =
      fun id => (fileMap s.dir id).lookup key := by
    funext id
    rw [fileMap, fileMap, repaired.tables]
  have reversed : versionsIn key tables.reverse = (versionsIn key tables).reverse :=
    List.filterMap_reverse
  rw [answers, shownBehind, versions_map, reversed, same, sameFiles, fileVersions, List.head?_reverse]
  rfl

end KvEngine
