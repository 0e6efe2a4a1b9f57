import KvEngine.Engine.Reached

/-!
# The structure of the tree

Between two requests the manifest and the open tables list the same files, each of
which is on disk and sorted, and from level 1 on the key ranges of a level are
disjoint.
-/

namespace KvEngine

open Foundations Engine

/-- The structure of the tree between two requests. -/
structure LsmStructure (w : World) : Prop where
  /-- The manifest lists the open tables, each once. -/
  sameTables : (w.eng.sstReaders.map Prod.fst).Perm w.eng.manifest.entries
  distinctIds : (w.eng.sstReaders.map (fun p => p.1.id)).Nodup
  freshIds : ∀ p ∈ w.eng.sstReaders, p.1.id < w.eng.nextSstId
  /-- The file of every table is there and opens as the table. -/
  onDisk : ∀ p ∈ w.eng.sstReaders, ∃ data, w.sys.dir.lookup (.sst p.1.id) = some data ∧
    SSTableReader.parse data p.1.id = .ok p.2
  /-- The entries of a table are sorted, and its bounds are its first and last key. -/
  sorted : ∀ p ∈ w.eng.sstReaders, ∃ entries cache, p.2.iter w.eng.blockCache = .ok entries cache ∧
    entries.Pairwise (fun a b => a.1 < b.1) ∧
    entries.head?.map Prod.fst = some p.1.minKey ∧ entries.getLast?.map Prod.fst = some p.1.maxKey
  /-- From level 1 on no two tables of a level overlap. -/
  disjoint : ∀ level, 1 ≤ level → (w.eng.manifest.sstsAtLevel level).Pairwise
    (fun a b => a.maxKey < b.minKey ∨ b.maxKey < a.minKey)

variable {w : World}

theorem Listed.perm {m : Manifest} {tables : List Table} (listed : Listed m tables)
    (distinct : (tables.map (fun p => p.1.id)).Nodup) :
    (tables.map Prod.fst).Perm m.entries := by
  have nodup : m.entries.Nodup := List.Nodup.of_map _ listed.distinct
  refine (List.perm_ext_iff_of_nodup (nodup_metas distinct) nodup).mpr fun sst => ?_
  constructor
  · intro member
    obtain ⟨p, hp, rfl⟩ := List.mem_map.mp member
    exact listed.listed p hp
  · intro member
    obtain ⟨level, atLevel⟩ := Manifest.mem_entries.mp member
    obtain ⟨p, hp, rfl⟩ := listed.mem_tables atLevel
    exact List.mem_map_of_mem hp

/-- **The structure of the tree** holds in every reachable state. -/
theorem lsm_structure {env : Env} (reached : Reached env w) (fits : FilesFit w.sys) :
    LsmStructure w := by
  have resting := reached.resting fits
  obtain ⟨tables, listed, apart, -, -, -⟩ := resting.inv
  refine ⟨listed.perm tables.distinct, tables.distinct, tables.fresh, resting.stored.files,
    fun p hp => ?_, apart⟩
  obtain ⟨cache, iterates, -⟩ := tables.iter_ok hp
  have described := tables.described p hp
  exact ⟨(Table.map p).entries, cache, iterates, (Table.map p).ascending, described.first,
    described.last⟩

/-- A session with flushes and compactions into two levels. -/
theorem lsm_structure_session :
    ∃ w, Reached .steady w ∧ LsmStructure w := by
  obtain ⟨e, s, w, opened, ran, -, few⟩ := exists_session
    { memtableSize := 0, l0CompactionThreshold := 1, maxLevels := 3 } .steady
    [.put [1] [7], .putWithTtl [3] [5] 60, .put [2] [8], .delete [1],
      .writeBatch ⟨[.put [4] [8], .delete [3]]⟩]
    (fun w => decide ((w.sys.journal.map FsOp.added).sum < 2 ^ 32)) (by decide +kernel)
  have reached : Reached .steady w := (ReachedBy.opened opened).runCalls
    (by unfold Call.KeysFit; decide) (fun _ _ _ _ => trivial) ran
  exact ⟨w, reached, lsm_structure reached (filesFit_of_added (of_decide_eq_true few))⟩

end KvEngine
