import KvEngine.Engine.Growth
import KvEngine.Engine.RepairSpec

/-!
# When calls succeed

Where no file operation fails, a call ends with `Ok` as long as there is room: for one more
sequence number, for the ids of the tables that it makes, and for their bytes.  `Schedulable`
says of the options that no threshold of a level is zero or overflows.
-/

namespace KvEngine

open Foundations Sstable

/-- No level below level 0 that may be compacted has a threshold of zero, or one that
overflows.  Level 0 is not empty when its threshold is looked at. -/
def Options.Schedulable (opts : Options) : Prop :=
  ∀ level < opts.maxLevels - 1, 0 < level →
    0 < opts.l0CompactionThreshold * 10 ^ level ∧ opts.l0CompactionThreshold * 10 ^ level < 2 ^ 64

namespace Options.Schedulable

variable {opts : Options}

/-- There are few levels then. -/
theorem maxLevels_le (schedulable : opts.Schedulable) : opts.maxLevels ≤ 21 := by
  by_contra many
  obtain ⟨positive, bounded⟩ := schedulable 20 (by omega) (by omega)
  have large : 10 ^ 20 ≤ opts.l0CompactionThreshold * 10 ^ 20 :=
    Nat.le_mul_of_pos_left _ (Nat.pos_of_mul_pos_right positive)
  omega

theorem levelThreshold_eq (schedulable : opts.Schedulable) {level : Nat}
    (within : level < opts.maxLevels - 1) :
    Engine.levelThreshold opts level = .ok (opts.l0CompactionThreshold * 10 ^ level) := by
  have few := schedulable.maxLevels_le
  unfold Engine.levelThreshold
  split
  · next top => rw [top, pow_zero, Nat.mul_one]
  · next deeper =>
      obtain ⟨positive, bounded⟩ := schedulable level within (Nat.pos_of_ne_zero deeper)
      have exponent : level % u32Limit = level := Nat.mod_eq_of_lt (by unfold u32Limit; omega)
      have power : 10 ^ level < u64Limit :=
        (Nat.le_mul_of_pos_left _ (Nat.pos_of_mul_pos_right positive)).trans_lt bounded
      rw [exponent, if_pos power]
      exact checkedMul_eq_ok.mpr ⟨bounded, rfl⟩

end Options.Schedulable

namespace Engine

variable {w w₁ w' : World} {u : Unit}

theorem self_run (w : World) : Ends self w w.eng w := rfl

theorem modifySelf_run (w : World) (f : Engine → Engine) :
    Ends (modifySelf f) w () { w with eng := f w.eng } := rfl

/-! ## New tables -/

/-- What was done to other files leaves the tables within their limits. -/
theorem withinLimits_of_others {s s' : Sys} {ops : List FsOp} (limits : WithinLimits s)
    (history : s.dir = applyOps s.journal ∅) (did : s.Did ops s')
    (others : ∀ op ∈ ops, ∀ id, op.file ≠ .sst id) : WithinLimits s' :=
  withinLimits_iff.mpr fun id =>
    (withinLimits_iff.mp limits id).untouched history did fun op member => others op member id

/-- **A new table** is written and opened if it is not too large. -/
theorem newTable_run {map : SortedMap Bytes Bytes} (faultless : w.sys.env.Faultless)
    (history : w.sys.dir = applyOps w.sys.journal ∅) (limits : WithinLimits w.sys)
    (nonempty : map.entries ≠ []) (keys : ∀ b ∈ map.entries, b.1.length < 2 ^ 16)
    (small : (SSTableBuilder.fileBytes w.eng.opts.blockSize map.entries).length < 2 ^ 32)
    (sstId level : Nat) :
    ∃ w₁ sst r w₂, Ends (writeSst sstId map.entries) w () w₁ ∧
      metaOf sstId level map.entries = .ok sst ∧
      Ends (onSys (SSTableReader.openWithCache (.sst sstId) sstId)) w₁ r w₂ ∧
      w₂.eng = w.eng ∧ w₂.sys.env = w.sys.env ∧ w₂.sys.dir = applyOps w₂.sys.journal ∅ ∧
      WithinLimits w₂.sys := by
  have length := SSTableBuilder.length_fileBytes w.eng.opts.blockSize map.entries
  obtain ⟨s₁, built, created⟩ := SSTableBuilder.build_run faultless (.sst sstId)
    w.eng.opts.blockSize map.entries (by omega)
  obtain ⟨ops, did, appends⟩ := created.did
  -- what was written is read back
  obtain ⟨data, created', isImage⟩ := SSTableBuilder.ends_build built
  obtain rfl : data = SSTableBuilder.fileBytes w.eng.opts.blockSize map.entries :=
    Option.some.inj (created'.present.symm.trans created.present)
  obtain ⟨blocks, bloom, entries, notEmpty, filter, image_⟩ := isImage (by omega)
  obtain ⟨r, parsed, -⟩ := SSTableReader.parse_built sstId
    (by rw [← image_]; omega) keys entries notEmpty filter
  rw [← image_] at parsed
  obtain ⟨s₂, read⟩ := readFile_run (s := s₁) (by rw [did.env]; exact faultless) created.present
  obtain ⟨-, waited⟩ := ends_readFile read
  obtain ⟨sst, described⟩ : ∃ sst, metaOf sstId level map.entries = .ok sst := by
    unfold metaOf
    rw [List.head?_eq_some_head nonempty, List.getLast?_eq_some_getLast nonempty]
    exact ⟨_, rfl⟩
  have opened : Ends (SSTableReader.openWithCache (.sst sstId) sstId) s₁ r s₂ :=
    Ends.bind read (ends_liftResult.mpr ⟨parsed, rfl⟩)
  have total := did.trans waited
  refine ⟨{ w with sys := s₁ }, sst, r, { w with sys := s₂ },
    (self_run w).bind (ends_onSys.mpr ⟨s₁, built, rfl⟩), described,
    ends_onSys.mpr ⟨s₂, opened, rfl⟩, rfl, total.env, total.history history, ?_⟩
  rw [List.append_nil] at total
  refine withinLimits_iff.mpr fun id => ?_
  have before := withinLimits_iff.mp limits id
  by_cases same : id = sstId
  · subst same
    have present := created.present
    rw [← waited.lookup_of_ne (by simp)] at present
    exact before.rewritten history total appends present (by omega)
  · refine before.untouched history total fun op member => ?_
    rcases List.mem_cons.mp member with rfl | later
    · exact fun isFile => same (FileName.sst.inj isFile).symm
    · obtain ⟨d, rfl⟩ := appends op later
      exact fun isFile => same (FileName.sst.inj isFile).symm

theorem saveManifest_run (faultless : w.sys.env.Faultless) :
    ∃ w', Ends saveManifest w () w' := by
  obtain ⟨s, saved, -⟩ := save_run faultless w.eng.manifest
  exact ⟨_, (self_run w).bind (ends_onSys.mpr ⟨s, saved, rfl⟩)⟩

theorem resetWal_run (faultless : w.sys.env.Faultless) : ∃ w', Ends resetWal w () w' := by
  obtain ⟨s₁, truncated⟩ := createTruncate_run faultless (.wal 1)
  have did := ends_createTruncate truncated
  obtain ⟨s₂, opened⟩ := openAppend_run (s := s₁) (by rw [did.env]; exact faultless) (.wal 1)
  have writer : Ends (WALWriter.openWal (.wal 1)) s₁ freshWal s₂ := Ends.bind opened rfl
  exact ⟨_, (ends_onSys.mpr ⟨s₁, truncated, rfl⟩).bind ((ends_onSys.mpr ⟨s₂, writer, rfl⟩).bind rfl)⟩

theorem takeSstId_run (room : w.eng.nextSstId + 1 < u64Limit) : Ends takeSstId w w.eng.nextSstId
    { w with eng := { w.eng with nextSstId := w.eng.nextSstId + 1 } } :=
  (self_run w).bind <| (ends_liftResult.mpr ⟨checkedAdd_eq_ok.mpr ⟨room, rfl⟩, rfl⟩).bind <|
    (modifySelf_run w _).bind rfl

/-- Room for what a flush or a compaction writes. -/
structure Able (w : World) : Prop where
  faultless : w.sys.env.Faultless
  history : w.sys.dir = applyOps w.sys.journal ∅
  limits : WithinLimits w.sys

theorem Able.of_others {ops : List FsOp} (able : Able w) (did : w.sys.Did ops w'.sys)
    (others : ∀ op ∈ ops, ∀ id, op.file ≠ .sst id) : Able w' :=
  ⟨by rw [did.env]; exact able.faultless, did.history able.history,
    withinLimits_of_others able.limits able.history did others⟩

theorem Able.saved (able : Able w) (run : Ends saveManifest w u w') : Able w' := by
  refine able.of_others (ends_saveManifest run).1 fun op member id => ?_
  rcases List.mem_pair.mp member with rfl | rfl <;> simp [FsOp.file]

theorem Able.reset (able : Able w) (log : w.eng.wal.file.path = .wal 1)
    (run : Ends resetWal w u w') : Able w' := by
  obtain ⟨-, rest, did, leftover⟩ := ends_resetWal run
  refine able.of_others did fun op member id => ?_
  rw [Kept.file_of_reset leftover log op member]
  simp

/-! ## Flushes -/

/-- Without a frozen list there is nothing to flush. -/
theorem maybeFlush_nothing (free : w.eng.memtable.immutable = none) : Ends maybeFlush w () w := by
  refine (self_run w).bind ?_
  simp only [MemTable.takeImmutable, free]
  rfl

/-- **The entries of a map** are flushed if they are not too many. -/
theorem flushEntries_run {map : SortedMap Bytes Bytes} (able : Able w)
    (log : w.eng.wal.file.path = .wal 1) (nonempty : map.entries ≠ [])
    (keys : ∀ b ∈ map.entries, b.1.length < 2 ^ 16) (small : map.weight footprint + 40 < 2 ^ 32)
    (sstId : Nat) : ∃ w', Ends (flushEntries sstId map.entries) w () w' ∧ Able w' := by
  obtain ⟨w₁, sst, r, w₂, wrote, described, opened, eng, env, history, limits⟩ :=
    newTable_run able.faultless able.history able.limits nonempty keys
      ((SSTableBuilder.length_fileBytes_le _ _).trans_lt small) sstId 0
  have able₂ : Able w₂ := ⟨by rw [env]; exact able.faultless, history, limits⟩
  let w₃ : World := { w₂ with eng := { w₂.eng with
    manifest := w₂.eng.manifest.addSst 0 sst
    sstReaders := w₂.eng.sstReaders ++ [(sst, r)] } }
  have able₃ : Able w₃ := ⟨able₂.faultless, able₂.history, able₂.limits⟩
  obtain ⟨w₄, saved⟩ := saveManifest_run able₃.faultless
  have able₄ := able₃.saved saved
  have log₄ : w₄.eng.wal.file.path = .wal 1 := by
    rw [(ends_saveManifest saved).2]
    change w₂.eng.wal.file.path = _
    rw [eng, log]
  obtain ⟨w₅, reset⟩ := resetWal_run able₄.faultless
  have able₅ := able₄.reset log₄ reset
  refine ⟨_, wrote.bind <| Ends.bind (ends_liftResult.mpr ⟨described, rfl⟩) <| opened.bind <|
    (modifySelf_run w₂ _).bind <| saved.bind <| reset.bind (modifySelf_run w₅ _), ?_⟩
  exact ⟨able₅.faultless, able₅.history, able₅.limits⟩

/-! ## Compactions -/

/-- Removing tables never fails: an error of `remove_file` is ignored. -/
theorem removeTables_run (ids : List Nat) (w : World) : ∃ w', Ends (removeTables ids) w () w' := by
  induction ids generalizing w with
  | nil => exact ⟨w, rfl⟩
  | cons id ids inductionHypothesis =>
      obtain ⟨s, ignored⟩ : ∃ s, Ends (ignoring (removeFile (.sst id))) w.sys () s := by
        obtain ⟨s, ⟨outcome, -⟩ | ⟨e, outcome, -⟩⟩ := removeFile_outcome (.sst id) w.sys
        · exact ⟨s, by simp only [Ends, ignoring, outcome]⟩
        · exact ⟨s, by simp only [Ends, ignoring, outcome]⟩
      obtain ⟨w', later⟩ := inductionHypothesis _
      exact ⟨w', (modifySelf_run w _).bind <| Ends.bind (ends_onSys.mpr ⟨s, ignored, rfl⟩) later⟩

theorem Able.removed {ids : List Nat} (able : Able w) (run : Ends (removeTables ids) w u w') :
    Able w' := by
  obtain ⟨-, ops, did, sub⟩ := ends_removeTables run
  refine ⟨by rw [did.env]; exact able.faultless, did.history able.history, ?_⟩
  refine withinLimits_iff.mpr fun id =>
    (withinLimits_iff.mp able.limits id).removed able.history did fun op member => ?_
  obtain ⟨id', -, rfl⟩ := List.mem_map.mp (sub.subset member)
  exact ⟨_, rfl⟩

theorem finishCompaction_run (able : Able w) (ids : List Nat) :
    ∃ w', Ends (finishCompaction ids) w () w' ∧ Able w' ∧ w'.eng.nextSstId = w.eng.nextSstId := by
  obtain ⟨w₁, removed⟩ := removeTables_run ids w
  have able₁ := able.removed removed
  obtain ⟨w₂, saved⟩ := saveManifest_run able₁.faultless
  have able₂ := able₁.saved saved
  refine ⟨_, removed.bind (saved.bind (modifySelf_run w₂ _)),
    ⟨able₂.faultless, able₂.history, able₂.limits⟩, ?_⟩
  rw [(ends_saveManifest saved).2]
  change w₁.eng.nextSstId = _
  rw [(ends_removeTables removed).1]

/-- **The merged entries** are installed if they are not too many. -/
theorem installMerged_run {map : SortedMap Bytes Bytes} (able : Able w)
    (room : w.eng.nextSstId + 1 < u64Limit) (nonempty : map.entries ≠ [])
    (keys : ∀ b ∈ map.entries, b.1.length < 2 ^ 16)
    (small : (SSTableBuilder.fileBytes w.eng.opts.blockSize map.entries).length < 2 ^ 32)
    (level : Nat) : ∃ w', Ends (installMerged level map.entries) w () w' ∧ Able w' ∧
      w'.eng.nextSstId = w.eng.nextSstId + 1 := by
  let w₀ : World := { w with eng := { w.eng with nextSstId := w.eng.nextSstId + 1 } }
  obtain ⟨w₁, sst, r, w₂, wrote, described, opened, eng, env, history, limits⟩ :=
    newTable_run (w := w₀) able.faultless able.history able.limits nonempty keys small
      w.eng.nextSstId level
  have last : orPanic ((w₂.eng.manifest.addSst level sst).sstsAtLevel level).getLast? = .ok sst := by
    rw [Manifest.sstsAtLevel_addSst, if_pos rfl, List.getLast?_concat]
    rfl
  refine ⟨_, (takeSstId_run room).bind <| wrote.bind <|
    Ends.bind (ends_liftResult.mpr ⟨described, rfl⟩) <| opened.bind <| (modifySelf_run w₂ _).bind <|
    (self_run _).bind <| Ends.bind (ends_liftResult.mpr ⟨last, rfl⟩) (modifySelf_run _ _), ?_⟩
  refine ⟨⟨by rw [env]; exact able.faultless, history, limits⟩, ?_⟩
  change w₂.eng.nextSstId = _
  rw [eng]

theorem exists_minKey {keys : List Bytes} (nonempty : keys ≠ []) : ∃ low, minKey keys = some low := by
  cases keys with
  | nil => exact absurd rfl nonempty
  | cons k keys =>
      rw [minKey]
      split <;> exact ⟨_, rfl⟩

theorem exists_maxKey {keys : List Bytes} (nonempty : keys ≠ []) :
    ∃ high, maxKey keys = some high := by
  cases keys with
  | nil => exact absurd rfl nonempty
  | cons k keys =>
      rw [maxKey]
      split <;> exact ⟨_, rfl⟩

/-- The table that compacting the level makes stays below the range of its offsets. -/
def MergeFits (w : World) (level : Nat) : Prop :=
  (SSTableBuilder.fileBytes w.eng.opts.blockSize (live (examinedAt w level)
    (merged w.eng.manifest w.eng.sstReaders level)).entries).length < 2 ^ 32

/-- It does if the engine does not hold too much. -/
theorem mergeFits_of_load (inv : Inv w) (small : w.eng.load + 40 < 2 ^ 32) (level : Nat) :
    MergeFits w level := by
  have kept := SortedMap.weight_filter_le (c := footprint)
    (merged w.eng.manifest w.eng.sstReaders level)
    (fun b => (shown (examinedAt w level b.1) b.2).isSome)
  have taken := weight_merged_le inv level
  have parts := tablesLoad_filter_add w.eng.sstReaders
    (fun p => p.1 ∈ inputs w.eng.manifest level)
  have light : (live (examinedAt w level)
      (merged w.eng.manifest w.eng.sstReaders level)).weight footprint ≤ w.eng.load := by
    unfold Engine.load
    exact kept.trans (by omega)
  refine (SSTableBuilder.length_fileBytes_le _ _).trans_lt (lt_of_le_of_lt ?_ small)
  exact Nat.add_le_add_right light 40

/-- **A level that is not empty** is compacted, if the table that this makes is not too large. -/
theorem compactLevel_run {level : Nat} (able : Able w) (inv : Inv w)
    (room : w.eng.nextSstId + 1 < u64Limit) (some : w.eng.manifest.sstsAtLevel level ≠ [])
    (small : MergeFits w level) :
    ∃ w', Ends (compactLevel level) w () w' ∧ Able w' ∧
      w'.eng.nextSstId ≤ w.eng.nextSstId + 1 := by
  obtain ⟨low, least⟩ := exists_minKey (mt List.map_eq_nil_iff.mp some : _ ≠ [])
  obtain ⟨high, greatest⟩ := exists_maxKey (mt List.map_eq_nil_iff.mp some : _ ≠ [])
  have overlap : ∃ dst, overlapping (w.eng.manifest.sstsAtLevel level)
      (w.eng.manifest.sstsAtLevel (level + 1)) = .ok dst := by
    rw [overlapping, least, greatest]
    exact ⟨_, rfl⟩
  obtain ⟨dst, overlap⟩ := overlap
  obtain ⟨blockCache, n, tables, -, same⟩ := compactLevel_eq inv overlap
  have did := w.sys.did_later n
  have able₁ : Able ⟨{ w.eng with blockCache }, w.sys.later n⟩ :=
    able.of_others did (by simp)
  unfold Ends
  rw [same]
  simp only
  split
  · obtain ⟨w₂, finished, able₂, ids⟩ := finishCompaction_run able₁ _
    exact ⟨w₂, finished, able₂, ids.le.trans (Nat.le_succ _)⟩
  · next holds =>
      obtain ⟨w₂, installed, able₂, ids⟩ := installMerged_run able₁ room (by simpa using holds)
        (keys_live inv _ level) small (level + 1)
      obtain ⟨w₃, finished, able₃, ids'⟩ := finishCompaction_run able₂ _
      exact ⟨w₃, installed.bind finished, able₃, (ids'.trans ids).le⟩

/-- **The loop comes to its end** if no threshold is in its way and level 0 is not empty. -/
theorem compactFrom_run (n level : Nat) (able : Able w) (inv : Inv w)
    (schedulable : w.eng.opts.Schedulable) (within : level + n ≤ w.eng.opts.maxLevels - 1)
    (top : level = 0 → w.eng.manifest.sstsAtLevel 0 ≠ []) (ids : w.eng.nextSstId + n < u64Limit)
    (merges : ∀ k < n, ∀ w', Ends (compactFrom k level) w () w' → MergeFits w' (level + k)) :
    ∃ w', Ends (compactFrom n level) w () w' := by
  induction n generalizing w level with
  | zero => exact ⟨w, rfl⟩
  | succ n inductionHypothesis =>
      have here : level < w.eng.opts.maxLevels - 1 := by omega
      have threshold := schedulable.levelThreshold_eq here
      obtain ⟨w₁, first, able₁, inv₁, opts₁, ids₁⟩ : ∃ w₁, Ends (compactIfFull level) w () w₁ ∧
          Able w₁ ∧ Inv w₁ ∧ w₁.eng.opts = w.eng.opts ∧
          w₁.eng.nextSstId ≤ w.eng.nextSstId + 1 := by
        by_cases few : (w.eng.manifest.sstsAtLevel level).length <
            w.eng.opts.l0CompactionThreshold * 10 ^ level
        · refine ⟨w, (self_run w).bind <| Ends.bind (ends_liftResult.mpr ⟨threshold, rfl⟩) ?_, able,
            inv, rfl, Nat.le_succ _⟩
          rw [if_pos few]
          rfl
        · have some : w.eng.manifest.sstsAtLevel level ≠ [] := by
            rcases Nat.eq_zero_or_pos level with isTop | deeper
            · rw [isTop]
              exact top isTop
            · intro empty
              rw [empty, List.length_nil] at few
              exact few (schedulable level here deeper).1
          obtain ⟨w₁, run, able₁, ids₁⟩ := compactLevel_run able inv (by omega) some
            (merges 0 (Nat.succ_pos n) w rfl)
          obtain ⟨time, added, compaction⟩ := ends_compactLevel inv able₁.limits run
          refine ⟨w₁, (self_run w).bind <| Ends.bind (ends_liftResult.mpr ⟨threshold, rfl⟩) ?_,
            able₁, compaction.inv inv, compaction.opts_eq, ids₁⟩
          rw [if_neg few]
          exact run
      obtain ⟨w', rest⟩ := inductionHypothesis (level + 1) able₁ inv₁ (opts₁ ▸ schedulable)
        (by rw [opts₁]; omega) (fun isTop => absurd isTop (Nat.succ_ne_zero level)) (by omega)
        (fun k less w' run => by
          have fits := merges (k + 1) (Nat.succ_lt_succ less) w' (first.bind run)
          rwa [Nat.add_right_comm])
      exact ⟨w', first.bind rest⟩

/-! ## Writes -/

theorem takeSeq_run (room : w.eng.nextSeq + 1 < u64Limit) : Ends takeSeq w w.eng.nextSeq
    { w with eng := { w.eng with nextSeq := w.eng.nextSeq + 1 } } :=
  (self_run w).bind <| (ends_liftResult.mpr ⟨checkedAdd_eq_ok.mpr ⟨room, rfl⟩, rfl⟩).bind <|
    (modifySelf_run w _).bind rfl

theorem appendRecord_run (faultless : w.sys.env.Faultless) (record : Record) :
    ∃ w', Ends (onWal (WALWriter.appendRecord record)) w () w' := by
  obtain ⟨q, wrote⟩ := BufWriter.writeAll_run (p := (w.eng.wal.file, w.sys)) faultless
    (record.encode w.sys.env.crc)
  have appended : Ends (WALWriter.appendRecord record) (w.eng.wal, w.sys) () (⟨q.1⟩, q.2) :=
    Ends.bind (ends_get.mpr ⟨rfl, rfl⟩) (ends_zoom.mpr ⟨q, wrote, rfl⟩)
  exact ⟨_, ends_onWal.mpr ⟨_, appended, rfl⟩⟩

theorem walFlush_run (faultless : w.sys.env.Faultless) :
    ∃ w', Ends (onWal WALWriter.flush) w () w' := by
  obtain ⟨q, flushed⟩ := BufWriter.flushBuf_run (p := (w.eng.wal.file, w.sys)) faultless
  have env := (BufWriter.wrote_flushBuf flushed).1.env
  obtain ⟨s, synced⟩ := syncFile_run (s := q.2) (by rw [env]; exact faultless)
  have flush : Ends WALWriter.flush (w.eng.wal, w.sys) () (⟨q.1⟩, s) :=
    Ends.bind (ends_zoom.mpr ⟨q, flushed, rfl⟩) (ends_zoom.mpr ⟨s, synced, rfl⟩)
  exact ⟨_, ends_onWal.mpr ⟨_, flush, rfl⟩⟩

theorem syncWal_run (faultless : w.sys.env.Faultless) : ∃ w', Ends syncWal w () w' := by
  obtain ⟨w', flushed⟩ := walFlush_run faultless
  cases synced : w.eng.opts.syncWal with
  | true => exact ⟨w', (self_run w).bind (by rw [synced]; exact flushed)⟩
  | false => exact ⟨w, (self_run w).bind (by rw [synced]; rfl)⟩

theorem memtablePut_run (valid : w.eng.memtable.Valid) (key value : Bytes) :
    ∃ w', Ends (memtablePut key value) w () w' := by
  obtain ⟨memtable, put, -⟩ := valid.put_ok (w.sys.env.towers w.sys.draws) key value
  exact ⟨_, (self_run w).bind <| Ends.bind (ends_onSys.mpr ⟨_, rfl, rfl⟩) <|
    Ends.bind (ends_liftResult.mpr ⟨put, rfl⟩) (modifySelf_run _ _)⟩

/-- A record is logged and applied. -/
theorem logAndApply_run (faultless : w.sys.env.Faultless) (valid : w.eng.memtable.Valid)
    (record : Record) (count : Metrics → Metrics) : ∃ w', Ends (logAndApply record count) w () w' := by
  obtain ⟨w₁, appended⟩ := appendRecord_run faultless record
  obtain ⟨logs₁, wal₁, eng₁⟩ := ends_appendRecord appended
  obtain ⟨w₂, synced⟩ := syncWal_run (w := w₁) (by rw [logs₁.env]; exact faultless)
  obtain ⟨-, -, wal₂, eng₂⟩ := ends_syncWal synced
  obtain ⟨w₃, put⟩ := memtablePut_run (w := w₂) (by rw [eng₂, eng₁]; exact valid) record.key
    record.value
  exact ⟨_, appended.bind <| synced.bind <| put.bind (modifySelf_run _ _)⟩

theorem logBatch_run (faultless : w.sys.env.Faultless) (ops : List BatchOp) :
    ∃ w', Ends (logBatch ops) w () w' := by
  induction ops generalizing w with
  | nil => exact ⟨w, rfl⟩
  | cons op ops inductionHypothesis =>
      obtain ⟨w₁, appended⟩ := appendRecord_run faultless (batchRecord op)
      have env := (ends_appendRecord appended).1.env
      obtain ⟨w₂, later⟩ := inductionHypothesis (w := w₁) (by rw [env]; exact faultless)
      exact ⟨w₂, appended.bind later⟩

theorem applyBatch_run (valid : w.eng.memtable.Valid) (ops : List BatchOp) :
    ∃ w', Ends (applyBatch ops) w () w' := by
  induction ops generalizing w with
  | nil => exact ⟨w, rfl⟩
  | cons op ops inductionHypothesis =>
      obtain ⟨w₁, put⟩ := memtablePut_run valid op.key (batchValue op)
      obtain ⟨⟨trailing, run⟩, -, -⟩ := ends_memtablePut put
      have valid₁ : w₁.eng.memtable.Valid := by
        obtain ⟨m, run', valid', -⟩ := valid.put_ok trailing op.key (batchValue op)
        rwa [Except.ok.inj (run.symm.trans run')]
      obtain ⟨w₂, later⟩ := inductionHypothesis valid₁
      exact ⟨w₂, put.bind later⟩

/-- The clock can be added to the time to live. -/
def TtlFits (w : World) : Call → Prop
  | .putWithTtl _ _ ttl => w.sys.time + ttl < u64Limit
  | _ => True

/-- **A call is stored** where the log can be written. -/
theorem store_run (faultless : w.sys.env.Faultless) (valid : w.eng.memtable.Valid)
    (room : w.eng.nextSeq + 1 < u64Limit) {call : Call} (ttlFits : TtlFits w call) :
    ∃ w', Ends call.store w () w' := by
  cases call with
  | put key value =>
      obtain ⟨w', applied⟩ := logAndApply_run
        (w := { w with eng := { w.eng with nextSeq := w.eng.nextSeq + 1 } }) faultless valid
        { op := .put, key, value := encodeWithSeq value w.eng.nextSeq } countWrite
      exact ⟨w', (takeSeq_run room).bind applied⟩
  | delete key =>
      obtain ⟨w', applied⟩ := logAndApply_run
        (w := { w with eng := { w.eng with nextSeq := w.eng.nextSeq + 1 } }) faultless valid
        { op := .delete, key, value := encodeWithSeq tombstone w.eng.nextSeq } countDelete
      exact ⟨w', (takeSeq_run room).bind applied⟩
  | putWithTtl key value ttl =>
      let w₁ : World := { w with sys := w.sys.later 1 }
      obtain ⟨w', applied⟩ := logAndApply_run
        (w := { w₁ with eng := { w.eng with nextSeq := w.eng.nextSeq + 1 } }) faultless valid
        { op := .put, key
          value := encodeWithSeq (encodeTtl (w.sys.time + ttl) value) w.eng.nextSeq } countWrite
      have read : Ends (onSys now) w w.sys.time w₁ := ends_onSys.mpr ⟨_, now_run _, rfl⟩
      exact ⟨w', read.bind <| Ends.bind
        (ends_liftResult.mpr ⟨checkedAdd_eq_ok.mpr ⟨ttlFits, rfl⟩, rfl⟩) <|
        (takeSeq_run (w := w₁) room).bind applied⟩
  | writeBatch batch =>
      show ∃ w', Ends (if batch.isEmpty then pure () else storeBatch batch.ops) w () w'
      split
      · exact ⟨w, rfl⟩
      · obtain ⟨w₁, logged⟩ := logBatch_run faultless batch.ops
        obtain ⟨logs₁, wal₁, eng₁⟩ := ends_logBatch logged
        obtain ⟨w₂, flushed⟩ := walFlush_run (w := w₁) (by rw [logs₁.env]; exact faultless)
        obtain ⟨-, -, wal₂, eng₂⟩ := ends_walFlush flushed
        obtain ⟨w₃, applied⟩ := applyBatch_run (w := w₂) (by rw [eng₂, eng₁]; exact valid) batch.ops
        exact ⟨w₃, logged.bind (flushed.bind applied)⟩

/-! ## Reads -/

/-- **A read** never fails, and changes at most the cache and a counter. -/
theorem read_run (inv : Inv w) {request : Request} (isRead : ∀ call, request ≠ .write call) :
    ∃ response w', Observed w w' ∧ Ends request.run w response w' := by
  cases request with
  | write call => exact absurd rfl (isRead call)
  | get key =>
      obtain ⟨w', observed, run⟩ := get_run inv key
      exact ⟨_, w', observed, Ends.bind run rfl⟩
  | getAt key snap =>
      obtain ⟨w', observed, run⟩ := getAt_run_newest inv key snap
      exact ⟨_, w', observed, Ends.bind run rfl⟩
  | scan start stop =>
      obtain ⟨w', map, t, t', observed, -, -, run⟩ := scan_run inv start stop
      exact ⟨_, w', observed, Ends.bind run rfl⟩

end Engine

end KvEngine
