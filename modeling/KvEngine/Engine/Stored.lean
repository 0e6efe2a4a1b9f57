import KvEngine.Engine.OpenSpec
import KvEngine.Engine.WriteSpec

/-!
# What is on disk

`Stored` says that the directory holds what the engine holds: the file of every
open table and the manifest.  Every step of the engine keeps it, so an engine that
is opened on the directory has the same tables, in the order in which the manifest
lists them.
-/

namespace KvEngine

open Foundations

/-- Every file that is ever written stays below the range of a `u32`. -/
def FilesFit (s : Sys) : Prop :=
  ∀ ops, ops <+: s.journal → ∀ f data, (applyOps ops ∅).lookup f = some data → data.length < 2 ^ 32

theorem FilesFit.withinLimits {s : Sys} (fits : FilesFit s) : WithinLimits s :=
  fun ops isPrefix id data => fits ops isPrefix (.sst id) data

theorem FilesFit.of_extends {s s' : Sys} (fits : FilesFit s') (goesOn : s.Extends s') :
    FilesFit s := by
  obtain ⟨ops, did⟩ := goesOn
  intro prior isPrefix
  refine fits prior (isPrefix.trans ?_)
  rw [did.journal]
  exact List.prefix_append _ _

/-- A run that writes few bytes stays within the limits. -/
theorem filesFit_of_added {s : Sys} (few : (s.journal.map FsOp.added).sum < 2 ^ 32) :
    FilesFit s := by
  intro ops isPrefix f data present
  have bound := length_lookup_applyOps ops ∅ present
  have part := (isPrefix.sublist.map FsOp.added).sum_le_sum fun _ _ => Nat.zero_le _
  simp only [AList.lookup_empty, Option.map_none, Option.getD_none] at bound
  omega

/-- A file that is there now is within the limits. -/
theorem FilesFit.lookup {s : Sys} (fits : FilesFit s) (history : s.dir = applyOps s.journal ∅)
    {f : FileName} {data : Bytes} (present : s.dir.lookup f = some data) : data.length < 2 ^ 32 :=
  fits s.journal (List.prefix_refl _) f data (history ▸ present)

/-! ## The invariant -/

/-- The directory holds the manifest; no file stands for the empty one. -/
def Saved (d : Dir) (m : Manifest) : Prop :=
  d.lookup .manifest = some m.encode ∨ (d.lookup .manifest = none ∧ m = Manifest.new)

/-- The directory holds what the engine holds. -/
structure Stored (w : World) : Prop where
  files : ∀ p ∈ w.eng.sstReaders, ∃ data, w.sys.dir.lookup (.sst p.1.id) = some data ∧
    SSTableReader.parse data p.1.id = .ok p.2
  manifest : Saved w.sys.dir w.eng.manifest
  log : ∃ n, w.eng.wal.file.path = .wal n

/-- The directory holds the file of every open table; the manifest may be behind. -/
structure OnDisk (w : World) : Prop where
  files : ∀ p ∈ w.eng.sstReaders, ∃ data, w.sys.dir.lookup (.sst p.1.id) = some data ∧
    SSTableReader.parse data p.1.id = .ok p.2
  log : ∃ n, w.eng.wal.file.path = .wal n

theorem Stored.onDisk {w : World} (stored : Stored w) : OnDisk w := ⟨stored.files, stored.log⟩

/-- The change is one of the log. -/
def FsOp.OfLog (op : FsOp) : Prop := ∃ n, op.file = .wal n

variable {w w' : World}

/-- Changes of the log leave tables and manifest alone. -/
theorem Sys.Did.lookup_of_log {s s' : Sys} {ops : List FsOp} (did : s.Did ops s')
    (onlyLog : ∀ op ∈ ops, op.OfLog) {f : FileName} (other : ∀ n, f ≠ .wal n) :
    s'.dir.lookup f = s.dir.lookup f := by
  refine did.lookup_of_ne fun op member same => ?_
  obtain ⟨n, isLog⟩ := onlyLog op member
  exact other n (same ▸ isLog)

theorem Saved.of_lookup {d d' : Dir} {m : Manifest} (saved : Saved d m)
    (same : d'.lookup .manifest = d.lookup .manifest) : Saved d' m := by
  unfold Saved
  rwa [same]

/-- A step that leaves the tables alone, in memory and on disk. -/
theorem OnDisk.frame (onDisk : OnDisk w) {ops : List FsOp}
    (readers : w'.eng.sstReaders = w.eng.sstReaders)
    (log : w'.eng.wal.file.path = w.eng.wal.file.path)
    (did : w.sys.Did ops w'.sys) (onlyLog : ∀ op ∈ ops, op.OfLog) : OnDisk w' where
  files p hp := by
    rw [did.lookup_of_log onlyLog (by simp)]
    exact onDisk.files p (readers ▸ hp)
  log := log ▸ onDisk.log

/-- A step that leaves tables and manifest alone, in memory and on disk. -/
theorem Stored.frame (stored : Stored w) {ops : List FsOp}
    (readers : w'.eng.sstReaders = w.eng.sstReaders) (manifest : w'.eng.manifest = w.eng.manifest)
    (log : w'.eng.wal.file.path = w.eng.wal.file.path)
    (did : w.sys.Did ops w'.sys) (onlyLog : ∀ op ∈ ops, op.OfLog) : Stored w' := by
  obtain ⟨files, path⟩ := stored.onDisk.frame readers log did onlyLog
  refine ⟨files, ?_, path⟩
  rw [manifest]
  exact stored.manifest.of_lookup (did.lookup_of_log onlyLog (by simp))

theorem lookup_manifestOps {s s' : Sys} {m : Manifest} (did : s.Did (Engine.manifestOps m) s') :
    s'.dir.lookup .manifest = some m.encode := by
  rw [did.dir, Engine.manifestOps, applyOps_cons, applyOps_cons, applyOps_nil]
  exact FsOp.lookup_append (FsOp.lookup_truncate _ _) _

theorem lookup_sst_manifestOps {s s' : Sys} {m : Manifest}
    (did : s.Did (Engine.manifestOps m) s') (id : Nat) :
    s'.dir.lookup (.sst id) = s.dir.lookup (.sst id) :=
  did.lookup_of_ne (by simp [Engine.manifestOps, FsOp.file])

namespace Built

variable {s s' : Sys} {p : Table}

theorem lookup_self (built : Built s p s') : ∃ data, s'.dir.lookup (.sst p.1.id) = some data ∧
    SSTableReader.parse data p.1.id = .ok p.2 := by
  obtain ⟨data, ops, -, -, present, parsed⟩ := built
  exact ⟨data, present, parsed⟩

theorem lookup_of_ne (built : Built s p s') {f : FileName} (other : f ≠ .sst p.1.id) :
    s'.dir.lookup f = s.dir.lookup f := by
  obtain ⟨ops, did, ofTable⟩ := built.writes
  exact did.lookup_of_ne fun op member same => other (same.symm.trans (ofTable op member))

end Built

/-- The file of a new table does not replace that of another one. -/
theorem OnDisk.built {p : Table} {s : Sys} (onDisk : OnDisk w) (inv : Inv w)
    (id : p.1.id = w.eng.nextSstId) (built : Built w.sys p s) :
    ∀ q ∈ w.eng.sstReaders ++ [p], ∃ data, s.dir.lookup (.sst q.1.id) = some data ∧
      SSTableReader.parse data q.1.id = .ok q.2 := by
  intro q member
  rcases List.mem_append.mp member with old | new
  · have different : q.1.id ≠ p.1.id := by
      rw [id]
      exact (inv.tables.fresh q old).ne
    rw [built.lookup_of_ne (by simpa using different)]
    exact onDisk.files q old
  · rw [List.mem_singleton.mp new]
    exact built.lookup_self

namespace Engine

theorem leftover_onlyLog {wal : WALWriter} {s : Sys} {rest : List FsOp}
    (leftover : BufWriter.Leftover wal.file s rest) (log : ∃ n, wal.file.path = .wal n) :
    ∀ op ∈ rest, op.OfLog := by
  intro op member
  obtain ⟨n, path⟩ := log
  rcases leftover with ⟨-, rfl⟩ | ⟨data, rfl, -⟩
  · cases member
  · rw [List.mem_singleton.mp member]
    exact ⟨n, path⟩

/-- Starting the log anew writes to logs only. -/
theorem reset_onlyLog {wal : WALWriter} {s : Sys} {rest : List FsOp}
    (leftover : BufWriter.Leftover wal.file s rest) (log : ∃ n, wal.file.path = .wal n) :
    ∀ op ∈ FsOp.truncate (.wal 1) :: rest, op.OfLog := by
  intro op member
  rcases List.mem_cons.mp member with rfl | isRest
  · exact ⟨1, rfl⟩
  · exact leftover_onlyLog leftover log op isRest

/-- A flush stores its table and the new manifest. -/
theorem Flush.stored {p : Table} (flush : Flush w p w') (inv : Inv w) (onDisk : OnDisk w) :
    Stored w' := by
  obtain ⟨metrics, eng⟩ := flush.eng
  obtain ⟨s₁, s₂, rest, built, saved, reset, leftover⟩ := flush.sys
  have onlyLog := reset_onlyLog leftover onDisk.log
  have tables : ∀ id, w'.sys.dir.lookup (.sst id) = s₁.dir.lookup (.sst id) := fun id => by
    rw [reset.lookup_of_log onlyLog (by simp), lookup_sst_manifestOps saved]
  refine ⟨fun q hq => ?_, Or.inl ?_, ⟨1, by rw [eng]; rfl⟩⟩
  · rw [eng] at hq
    rw [tables]
    exact onDisk.built inv flush.id built q hq
  · rw [reset.lookup_of_log onlyLog (by simp), lookup_manifestOps saved, eng]

/-- A compaction writes to no log. -/
theorem Compaction.lookup_wal {level : Nat} {time : Bytes → Nat} {added : Option Table}
    (compaction : Compaction w level time added w') (n : Nat) :
    w'.sys.dir.lookup (.wal n) = w.sys.dir.lookup (.wal n) := by
  obtain ⟨s₁, s₂, removals, built, removed, sub, saved⟩ := compaction.sys
  have afterBuild : s₁.dir.lookup (.wal n) = w.sys.dir.lookup (.wal n) := by
    cases added with
    | none => exact Sys.Did.lookup_of_ne built (by simp)
    | some p => exact Built.lookup_of_ne built (by simp)
  rw [saved.lookup_of_ne (by simp [manifestOps, FsOp.file]),
    removed.lookup_of_ne fun op member => ?_, afterBuild]
  obtain ⟨sst, -, rfl⟩ := List.mem_map.mp (sub.subset member)
  simp [FsOp.file]

/-- A compaction stores its table and the new manifest, and removes no file that is
still in use. -/
theorem Compaction.stored {level : Nat} {time : Bytes → Nat} {added : Option Table}
    (compaction : Compaction w level time added w') (inv : Inv w) (onDisk : OnDisk w) :
    Stored w' := by
  obtain ⟨nextSstId, blockCache, metrics, eng⟩ := compaction.eng
  obtain ⟨s₁, s₂, removals, built, removed, sub, saved⟩ := compaction.sys
  have inputIds : ∀ sst ∈ inputs w.eng.manifest level, ∃ q ∈ w.eng.sstReaders, q.1 = sst :=
    fun sst member => by
      rcases inputs_listed member with source | next
      · exact inv.listed.mem_tables source
      · exact inv.listed.mem_tables next
  have removedIds : ∀ id, (∀ sst ∈ inputs w.eng.manifest level, sst.id ≠ id) →
      s₂.dir.lookup (.sst id) = s₁.dir.lookup (.sst id) := by
    intro id others
    refine removed.lookup_of_ne fun op member same => ?_
    obtain ⟨sst, isInput, rfl⟩ := List.mem_map.mp (sub.subset member)
    have same : sst.id = id := by simpa [FsOp.file] using same
    exact others sst isInput same
  have afterBuild : ∀ id < w.eng.nextSstId,
      s₁.dir.lookup (.sst id) = w.sys.dir.lookup (.sst id) := by
    intro id small
    cases isNew : added with
    | none =>
        rw [isNew] at built
        exact Sys.Did.lookup_of_ne built (by simp)
    | some p =>
        rw [isNew] at built
        refine Built.lookup_of_ne built ?_
        have fresh := compaction.id_fresh isNew
        simp only [ne_eq, FileName.sst.injEq]
        omega
  refine ⟨fun q hq => ?_, Or.inl (lookup_manifestOps saved), ?_⟩
  · rw [lookup_sst_manifestOps saved]
    rw [eng] at hq
    rcases List.mem_append.mp hq with old | new
    · obtain ⟨member, left⟩ := List.mem_filter.mp old
      have left : q.1 ∉ inputs w.eng.manifest level := by simpa using left
      rw [removedIds q.1.id fun sst isInput same => left ?_,
        afterBuild _ (inv.tables.fresh q member)]
      · exact onDisk.files q member
      · obtain ⟨r, hr, rfl⟩ := inputIds sst isInput
        rwa [← inv.tables.eq_of_id hr member same]
    · have isNew : added = some q := Option.mem_toList.mp new
      have fresh := compaction.id_fresh isNew
      rw [isNew] at built
      rw [removedIds q.1.id fun sst isInput same => ?_]
      · exact Built.lookup_self built
      · obtain ⟨r, hr, rfl⟩ := inputIds sst isInput
        have := inv.tables.fresh r hr
        omega
  · rw [eng]
    exact onDisk.log

theorem Compactions.stored (compactions : Compactions w w') (stored : Stored w) : Stored w' := by
  induction compactions with
  | done => exact stored
  | step inv compaction _ inductionHypothesis =>
      exact inductionHypothesis (compaction.stored inv stored.onDisk)

theorem onDisk_thawed (onDisk : OnDisk w) : OnDisk (thawed w) :=
  onDisk.frame rfl rfl (.refl _) (by simp)

theorem Flushing.stored (flushing : Flushing w w') (stored : Stored w) : Stored w' := by
  cases flushing with
  | nothing _ same => exact same ▸ stored
  | flush _ invThawed flush _ compactions =>
      exact compactions.stored (flush.stored invThawed (onDisk_thawed stored.onDisk))

/-- A flush of a frozen list saves the manifest. -/
theorem Flushing.stored_of_frozen (flushing : Flushing w w') (onDisk : OnDisk w)
    (isFrozen : w.eng.memtable.immutable.isSome) : Stored w' := by
  cases flushing with
  | nothing free _ =>
      rw [free] at isFrozen
      cases isFrozen
  | flush _ invThawed flush _ compactions =>
      exact compactions.stored (flush.stored invThawed (onDisk_thawed onDisk))

theorem Flushing.onDisk (flushing : Flushing w w') (onDisk : OnDisk w) : OnDisk w' := by
  cases isFrozen : w.eng.memtable.immutable with
  | some imm => exact (flushing.stored_of_frozen onDisk (by rw [isFrozen]; rfl)).onDisk
  | none =>
      cases flushing with
      | nothing _ same => exact same ▸ onDisk
      | flush frozen => cases isFrozen.symm.trans frozen

end Engine

/-- Storing only writes to the log. -/
theorem Accepted.onlyLog {stores : List Store} {seqs : Nat} (accepted : Accepted w stores seqs w')
    (log : ∃ n, w.eng.wal.file.path = .wal n) :
    ∃ ops, w.sys.Did ops w'.sys ∧ ∀ op ∈ ops, op.OfLog := by
  obtain ⟨-, ⟨ops, did, appends⟩, -⟩ := accepted.logs
  obtain ⟨n, isLog⟩ := log
  refine ⟨ops, did, fun op member => ?_⟩
  obtain ⟨d, rfl⟩ := appends op member
  exact ⟨n, isLog⟩

theorem Accepted.onDisk {stores : List Store} {seqs : Nat}
    (accepted : Accepted w stores seqs w') (onDisk : OnDisk w) : OnDisk w' := by
  obtain ⟨wal, memtable, metrics, eng⟩ := accepted.eng
  obtain ⟨ops, did, onlyLog⟩ := accepted.onlyLog onDisk.log
  exact onDisk.frame (by rw [eng]) accepted.logs.1 did onlyLog

theorem Accepted.stored {stores : List Store} {seqs : Nat}
    (accepted : Accepted w stores seqs w') (stored : Stored w) : Stored w' := by
  obtain ⟨wal, memtable, metrics, eng⟩ := accepted.eng
  obtain ⟨ops, did, onlyLog⟩ := accepted.onlyLog stored.log
  exact stored.frame (by rw [eng]) (by rw [eng]) accepted.logs.1 did onlyLog

/-! ## The manifest fits its format -/

namespace Manifest

theorem length_encodeSst (sst : SSTMeta) : 16 ≤ (encodeSst sst).length := by
  simp only [encodeSst, encodeBytes, List.length_append, length_leBytes]
  omega

theorem length_flatMap_le {α : Type} {f : α → Bytes} {n : Nat} (l : List α)
    (each : ∀ a ∈ l, n ≤ (f a).length) : l.length * n ≤ (l.flatMap f).length := by
  induction l with
  | nil => simp
  | cons a l inductionHypothesis =>
      have first := each a List.mem_cons_self
      have later := inductionHypothesis fun b hb => each b (List.mem_cons_of_mem _ hb)
      rw [List.flatMap_cons, List.length_append, List.length_cons, Nat.add_mul]
      omega

theorem length_le_flatMap {α : Type} {f : α → Bytes} {l : List α} {a : α} (member : a ∈ l) :
    (f a).length ≤ (l.flatMap f).length := by
  induction l with
  | nil => cases member
  | cons b l inductionHypothesis =>
      rw [List.flatMap_cons, List.length_append]
      rcases List.mem_cons.mp member with rfl | later
      · exact Nat.le_add_right _ _
      · exact (inductionHypothesis later).trans (Nat.le_add_left _ _)

/-- A manifest whose file is small enough and whose entries fit is read back. -/
theorem fits_of_length {m : Manifest} (small : m.encode.length < 2 ^ 32)
    (ssts : ∀ level ∈ m.levels, ∀ sst ∈ level, SstFits sst) : Fits m := by
  have total : (m.levels.flatMap encodeLevel).length ≤ m.encode.length := by
    rw [encode, List.length_append]
    exact Nat.le_add_left _ _
  refine ⟨?_, fun level member => ?_, ssts⟩
  · have each := length_flatMap_le (f := encodeLevel) (n := 4) m.levels fun level _ => by
      simp [encodeLevel]
    omega
  · have part := length_le_flatMap (f := encodeLevel) member
    have each := length_flatMap_le (f := encodeSst) (n := 16) level fun sst _ => length_encodeSst sst
    rw [encodeLevel, List.length_append] at part
    omega

end Manifest

/-- **The manifest is read back** from the directory, up to the levels of its entries. -/
theorem Stored.manifestOf_eq (stored : Stored w) (inv : Inv w) (ids : w.eng.nextSstId < u64Limit)
    (fits : FilesFit w.sys) : manifestOf w.sys.dir = .ok w.eng.manifest.reloaded := by
  unfold manifestOf
  rcases stored.manifest with present | ⟨missing, new⟩
  · rw [present]
    refine Manifest.decode_encode (Manifest.fits_of_length (fits.lookup inv.history present) ?_)
    intro level hl sst hs
    obtain ⟨l, atLevel⟩ := Manifest.mem_entries.mp (List.mem_flatten_of_mem hl hs)
    obtain ⟨p, hp, rfl⟩ := inv.listed.mem_tables atLevel
    have described := inv.tables.described p hp
    obtain ⟨_, least⟩ := described.lookup_minKey
    obtain ⟨_, greatest⟩ := described.lookup_maxKey
    have short := described.keys _ (SortedMap.mem_entries.mpr least)
    have short' := described.keys _ (SortedMap.mem_entries.mpr greatest)
    simp only at short short'
    exact ⟨(inv.tables.fresh p hp).trans ids, by omega, by omega⟩
  · rw [missing, new]
    rfl

/-! ## Opening the directory again -/

/-- The table as it is opened again: the level of its metadata is not stored. -/
def Table.reloaded (p : Table) : Table := (Manifest.withoutLevel p.1, p.2)

@[simp] theorem Table.map_reloaded (p : Table) : p.reloaded.map = p.map := rfl

@[simp] theorem Table.id_reloaded (p : Table) : p.reloaded.1.id = p.1.id := rfl

/-- The open tables in the order in which the manifest lists them. -/
def listing (m : Manifest) (tables : List Table) : List Table :=
  m.entries.filterMap (fun sst => tables.find? (fun p => p.1 = sst))

/-- The tables that are opened under a list of metadata are those whose files are there. -/
theorem tablesOf_withoutLevel {d : Dir} {tables : List Table}
    (files : ∀ p ∈ tables, ∀ data, d.lookup (.sst p.1.id) = some data →
      SSTableReader.parse data p.1.id = .ok p.2) {ssts : List SSTMeta}
    (listed : ∀ sst ∈ ssts, ∃ p ∈ tables, p.1 = sst) :
    tablesOf d (ssts.map Manifest.withoutLevel) =
      .ok (((ssts.filterMap (fun sst => tables.find? (fun p => p.1 = sst))).filter
        (fun p => (d.lookup (.sst p.1.id)).isSome)).map Table.reloaded) := by
  induction ssts with
  | nil => rfl
  | cons sst ssts inductionHypothesis =>
      obtain ⟨q, hq, same⟩ := listed sst List.mem_cons_self
      obtain ⟨p, found⟩ : ∃ p, tables.find? (fun p => p.1 = sst) = some p :=
        Option.isSome_iff_exists.mp (List.find?_isSome.mpr ⟨q, hq, by simpa using same⟩)
      have named : p.1 = sst := by simpa using List.find?_some found
      have later := inductionHypothesis fun s hs => listed s (List.mem_cons_of_mem _ hs)
      subst named
      rw [List.map_cons, tablesOf, List.filterMap_cons, found]
      cases present : d.lookup (.sst p.1.id) with
      | none =>
          -- a file that is missing is passed over
          have missing : d.lookup (.sst (Manifest.withoutLevel p.1).id) = none := present
          simp only [missing, later, List.filter_cons, present]
          rfl
      | some data =>
          have present' : d.lookup (.sst (Manifest.withoutLevel p.1).id) = some data := present
          have parsed : SSTableReader.parse data (Manifest.withoutLevel p.1).id = .ok p.2 :=
            files p (List.mem_of_find?_eq_some found) data present
          simp only [present', parsed, Result.ok_bind, later, List.filter_cons, present]
          rfl

theorem Manifest.entries_reloaded (m : Manifest) :
    m.reloaded.entries = m.entries.map withoutLevel := by
  simp only [entries, reloaded, List.map_flatten]

theorem Manifest.sstsAtLevel_reloaded (m : Manifest) (level : Nat) :
    m.reloaded.sstsAtLevel level = (m.sstsAtLevel level).map withoutLevel := by
  unfold sstsAtLevel reloaded
  rw [List.getElem?_map]
  cases m.levels[level]? <;> rfl

theorem Manifest.Distinct.reloaded {m : Manifest} (distinct : Distinct m) : Distinct m.reloaded := by
  unfold Distinct at distinct ⊢
  rw [entries_reloaded, List.map_map]
  exact distinct

theorem RangesApart.reloaded {m : Manifest} (apart : RangesApart m) : RangesApart m.reloaded := by
  intro level positive
  rw [Manifest.sstsAtLevel_reloaded, List.pairwise_map]
  exact apart level positive

theorem Manifest.sstsAtLevel_sublist_entries (m : Manifest) (level : Nat) :
    (m.sstsAtLevel level).Sublist m.entries := by
  unfold sstsAtLevel entries
  cases found : m.levels[level]? with
  | none => exact List.nil_sublist _
  | some l => exact List.sublist_flatten_of_mem (List.mem_of_getElem? found)

/-- The open tables that are found by their metadata are listed in the same order. -/
theorem map_filterMap_find {tables : List Table} {metas : List SSTMeta}
    (isOpen : ∀ sst ∈ metas, ∃ p ∈ tables, p.1 = sst) :
    (metas.filterMap (fun sst => tables.find? (fun p => p.1 = sst))).map Prod.fst = metas := by
  have each : ∀ sst ∈ metas, (tables.find? (fun p => p.1 = sst)).map Prod.fst = some sst := by
    intro sst member
    obtain ⟨q, hq, same⟩ := isOpen sst member
    obtain ⟨p, found⟩ : ∃ p, tables.find? (fun p => p.1 = sst) = some p :=
      Option.isSome_iff_exists.mp (List.find?_isSome.mpr ⟨q, hq, by simpa using same⟩)
    rw [found]
    simpa using List.find?_some found
  rw [List.map_filterMap, List.filterMap_congr each, List.filterMap_some]

namespace Listed

variable {m : Manifest} {tables : List Table}

theorem mem_entries (listed : Listed m tables) {sst : SSTMeta} (member : sst ∈ m.entries) :
    ∃ p ∈ tables, p.1 = sst := by
  obtain ⟨l, atLevel⟩ := Manifest.mem_entries.mp member
  exact listed.mem_tables atLevel

/-- The listing holds the open tables, each once, in the order of the manifest. -/
theorem map_listing (listed : Listed m tables) : (listing m tables).map Prod.fst = m.entries :=
  map_filterMap_find fun _ => listed.mem_entries

end Listed

theorem mem_listing {m : Manifest} {tables : List Table} {p : Table}
    (member : p ∈ listing m tables) : p ∈ tables := by
  obtain ⟨sst, -, found⟩ := List.mem_filterMap.mp member
  exact List.mem_of_find?_eq_some found

/-- An engine that was opened on the directory that another one left. -/
structure Reopened (w : World) (opts : Options) (records : List Record) (e : Engine) : Prop where
  manifest : e.manifest = w.eng.manifest.reloaded
  readers : e.sstReaders = (listing w.eng.manifest w.eng.sstReaders).map Table.reloaded
  nextSstId : e.nextSstId = nextIdAfter e.sstReaders 1
  contents : e.memtable.active.contents = SortedMap.empty.insertAll (records.map Record.binding)
  memtable : e.memtable.Valid ∧ e.memtable.immutable = none
  nextSeq : e.nextSeq = 1
  options : e.opts = opts
  blockCache : e.blockCache =
    if opts.blockCacheSize > 0 then some (BlockCache.new opts.blockCacheSize) else none

/-- Of a directory in which files of tables may be missing the others are opened. -/
theorem Stored.tablesOf_some (stored : Stored w) (inv : Inv w) {d : Dir}
    (left : ∀ p ∈ w.eng.sstReaders, ∀ data, d.lookup (.sst p.1.id) = some data →
      w.sys.dir.lookup (.sst p.1.id) = some data) :
    tablesOf d w.eng.manifest.reloaded.levels.flatten =
      .ok (((listing w.eng.manifest w.eng.sstReaders).filter
        (fun p => (d.lookup (.sst p.1.id)).isSome)).map Table.reloaded) := by
  rw [← Manifest.entries, Manifest.entries_reloaded]
  refine tablesOf_withoutLevel (fun p hp data found => ?_) fun sst member => ?_
  · obtain ⟨data', present, parsed⟩ := stored.files p hp
    obtain rfl : data' = data := Option.some.inj (present.symm.trans (left p hp data found))
    exact parsed
  · obtain ⟨l, atLevel⟩ := Manifest.mem_entries.mp member
    exact inv.listed.mem_tables atLevel

/-- The tables that opening reads are the open ones, in the order of the manifest. -/
theorem Stored.tablesOf_eq (stored : Stored w) (inv : Inv w) {d : Dir}
    (left : ∀ id, d.lookup (.sst id) = w.sys.dir.lookup (.sst id)) :
    tablesOf d w.eng.manifest.reloaded.levels.flatten =
      .ok ((listing w.eng.manifest w.eng.sstReaders).map Table.reloaded) := by
  have all : (listing w.eng.manifest w.eng.sstReaders).filter
      (fun p => (d.lookup (.sst p.1.id)).isSome) = listing w.eng.manifest w.eng.sstReaders := by
    refine List.filter_eq_self.mpr fun p member => ?_
    obtain ⟨data, present, -⟩ := stored.files p (mem_listing member)
    rw [left, present]
    rfl
  rw [stored.tablesOf_some inv fun p _ data found => left p.1.id ▸ found, all]

/-- **Opening again.** The tables are the same, in the order of the manifest, and the
memtable is what the log replays to. -/
theorem Stored.reopened (stored : Stored w) (inv : Inv w) (ids : w.eng.nextSstId < u64Limit)
    (fits : FilesFit w.sys) {s s' : Sys} {opts : Options} {e : Engine}
    (left : ∀ f, (∀ n, f ≠ .wal n) → s.dir.lookup f = w.sys.dir.lookup f)
    (run : Ends (Engine.openWithOptions opts) s e s') :
    ∃ records, logOf s.env.crc s.dir = .ok records ∧ Reopened w opts records e := by
  obtain ⟨recovered, -⟩ := Engine.ends_openWithOptions run
  obtain ⟨records, log, contents⟩ := recovered.log
  have manifest : e.manifest = w.eng.manifest.reloaded := by
    have decoded := recovered.manifest
    unfold manifestOf at decoded
    rw [left .manifest (by simp), ← manifestOf, stored.manifestOf_eq inv ids fits] at decoded
    exact (Except.ok.inj decoded).symm
  refine ⟨records, log, manifest, ?_, recovered.nextSstId, contents,
    ⟨recovered.memtable.1, recovered.memtable.2.1⟩, recovered.nextSeq, recovered.options,
    recovered.blockCache⟩
  have opened := recovered.readers
  rw [manifest, stored.tablesOf_eq inv fun id => left _ (by simp)] at opened
  exact (Except.ok.inj opened).symm

namespace Reopened

variable {opts : Options} {records : List Record} {e : Engine}

theorem map_fst_readers (reopened : Reopened w opts records e) (inv : Inv w) :
    e.sstReaders.map Prod.fst = e.manifest.entries := by
  rw [reopened.manifest, Manifest.entries_reloaded, ← inv.listed.map_listing, reopened.readers,
    List.map_map, List.map_map]
  rfl

/-- The tables are readable again. -/
theorem tables (reopened : Reopened w opts records e) (inv : Inv w) :
    Tables e.sstReaders e.nextSstId e.blockCache := by
  have names := reopened.map_fst_readers inv
  refine ⟨fun p hp => ?_, fun p hp => ?_, ?_, ?_⟩
  · rw [reopened.readers] at hp
    obtain ⟨q, hq, rfl⟩ := List.mem_map.mp hp
    have described := inv.tables.described q (mem_listing hq)
    exact ⟨described.holds, described.named, described.first, described.last, described.keys⟩
  · exact reopened.nextSstId ▸ Engine.lt_nextIdAfter hp
  · have ids : e.sstReaders.map (fun p => p.1.id) = e.manifest.entries.map SSTMeta.id := by
      rw [← names, List.map_map]
      rfl
    rw [ids, reopened.manifest]
    exact inv.listed.distinct.reloaded
  · rw [reopened.blockCache]
    exact coherent_new opts

/-- The invariant holds again, but for the keys of the log, which have to fit. -/
theorem inv (reopened : Reopened w opts records e) (inv : Inv w) {s : Sys}
    (keys : ∀ b ∈ e.memtable.active.contents.entries, b.1.length < 2 ^ 16)
    (history : s.dir = applyOps s.journal ∅) : Inv ⟨e, s⟩ := by
  have names := reopened.map_fst_readers inv
  refine ⟨reopened.tables inv, ⟨?_, fun level => ?_, fun p hp => ?_⟩, ?_, reopened.memtable.1,
    fun map hm b hb => ?_, history⟩
  · rw [reopened.manifest]
    exact inv.listed.distinct.reloaded
  · rw [names]
    exact e.manifest.sstsAtLevel_sublist_entries level
  · rw [← names]
    exact List.mem_map_of_mem hp
  · rw [reopened.manifest]
    exact inv.apart.reloaded
  · have only : map = e.memtable.active.contents := by
      simpa [MemTable.layers, reopened.memtable.2] using hm
    exact keys b (only ▸ hb)

theorem encode_reloaded (m : Manifest) : m.reloaded.encode = m.encode := by
  have ssts : ∀ level : List SSTMeta,
      Manifest.encodeLevel (level.map Manifest.withoutLevel) = Manifest.encodeLevel level := by
    intro level
    simp only [Manifest.encodeLevel, List.length_map, List.flatMap_map]
    rfl
  simp only [Manifest.encode, Manifest.reloaded, List.length_map, List.flatMap_map, ssts]

/-- The directory holds what the new engine holds. -/
theorem stored (reopened : Reopened w opts records e) (stored : Stored w) {s : Sys}
    (tables : ∀ id, s.dir.lookup (.sst id) = w.sys.dir.lookup (.sst id))
    (manifest : s.dir.lookup .manifest = w.sys.dir.lookup .manifest)
    (log : ∃ n, e.wal.file.path = .wal n) : Stored ⟨e, s⟩ := by
  refine ⟨fun p hp => ?_, ?_, log⟩
  · rw [reopened.readers] at hp
    obtain ⟨q, hq, rfl⟩ := List.mem_map.mp hp
    rw [tables]
    exact stored.files q (mem_listing hq)
  · have saved := stored.manifest.of_lookup manifest
    rw [reopened.manifest]
    rcases saved with present | ⟨missing, new⟩
    · exact Or.inl (by rw [encode_reloaded]; exact present)
    · exact Or.inr ⟨missing, by rw [new]; rfl⟩

theorem ids (reopened : Reopened w opts records e) (inv : Inv w)
    (ids : w.eng.nextSstId < u64Limit) : e.nextSstId < u64Limit := by
  rw [reopened.nextSstId]
  refine Engine.nextIdAfter_lt (by decide) fun p hp => ?_
  rw [reopened.readers] at hp
  obtain ⟨q, hq, rfl⟩ := List.mem_map.mp hp
  exact lt_of_le_of_lt (inv.tables.fresh q (mem_listing hq)) ids

end Reopened

end KvEngine
