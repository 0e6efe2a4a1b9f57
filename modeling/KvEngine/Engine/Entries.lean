import KvEngine.Engine.Reached

/-!
# Properties of every entry

Flushes and compactions only move and drop entries, so what holds of every entry
that the engine holds goes on holding; a write has to establish it for what it stores.
-/

namespace KvEngine

open Foundations Engine

/-- `P` holds of every entry in the memtable and in the open tables. -/
structure EveryEntry (P : Bytes × Bytes → Prop) (e : Engine) : Prop where
  memtable : ∀ map ∈ e.memtable.layers, ∀ b ∈ map.entries, P b
  tables : ∀ p ∈ e.sstReaders, ∀ b ∈ (Table.map p).entries, P b

variable {P Q : Bytes × Bytes → Prop} {w w' : World}

namespace EveryEntry

theorem mono {e : Engine} (every : EveryEntry P e) (weaken : ∀ b, P b → Q b) : EveryEntry Q e :=
  ⟨fun map hm b hb => weaken b (every.memtable map hm b hb),
    fun p hp b hb => weaken b (every.tables p hp b hb)⟩

/-- Every version of a key is an entry. -/
theorem of_mem_versionsOf {e : Engine} (every : EveryEntry P e) {key v : Bytes}
    (member : v ∈ e.versionsOf key) : P (key, v) := by
  rcases List.mem_append.mp member with inMemory | inTable
  · obtain ⟨map, hm, found⟩ := mem_versions.mp inMemory
    exact every.memtable map hm _ (SortedMap.mem_entries.mpr found)
  · obtain ⟨p, hp, found⟩ := mem_versions.mp inTable
    exact every.tables p (List.mem_reverse.mp hp) _ (SortedMap.mem_entries.mpr found)

end EveryEntry

namespace Engine

theorem Flush.everyEntry {p : Table} (flush : Flush w p w') (every : EveryEntry P w.eng)
    (new : ∀ b ∈ p.map.entries, P b) : EveryEntry P w'.eng := by
  obtain ⟨metrics, eng⟩ := flush.eng
  rw [eng]
  refine ⟨every.memtable, fun q hq b hb => ?_⟩
  rcases List.mem_append.mp hq with old | added
  · exact every.tables q old b hb
  · rw [List.mem_singleton.mp added] at hb
    exact new b hb

theorem thawed_everyEntry (every : EveryEntry P w.eng) : EveryEntry P (thawed w).eng := by
  refine ⟨fun m hm => ?_, every.tables⟩
  obtain rfl : m = w.eng.memtable.active.contents := by
    simpa [thawed, MemTable.takeImmutable, MemTable.layers] using hm
  exact every.memtable _ List.mem_cons_self

/-- The entries of a frozen list move to a table. -/
theorem Flush.everyEntry_thawed {imm : SkipList} {p : Table} (flush : Flush (thawed w) p w')
    (frozen : w.eng.memtable.immutable = some imm) (map : p.map = imm.contents)
    (every : EveryEntry P w.eng) : EveryEntry P w'.eng := by
  refine flush.everyEntry (thawed_everyEntry every) fun b hb => ?_
  rw [map] at hb
  exact every.memtable imm.contents (by simp [MemTable.layers, frozen]) b hb

theorem Compaction.everyEntry {level : Nat} {time : Bytes → Nat} {added : Option Table}
    (compaction : Compaction w level time added w') (every : EveryEntry P w.eng) :
    EveryEntry P w'.eng := by
  constructor
  · obtain ⟨nextSstId, blockCache, metrics, eng⟩ := compaction.eng
    rw [eng]
    exact every.memtable
  · intro q hq b hb
    rw [compaction.readers] at hq
    rcases List.mem_append.mp hq with old | added
    · exact every.tables q (List.mem_filter.mp old).1 b hb
    · -- what is merged comes from the tables that are taken up
      rw [(compaction.new q (Option.mem_toList.mp added)).2.2] at hb
      obtain ⟨p, hp, -, found⟩ :=
        exists_of_lookup_merged (SortedMap.mem_entries.mp (List.mem_filter.mp hb).1)
      exact every.tables p hp b (SortedMap.mem_entries.mpr found)

theorem Compactions.everyEntry (compactions : Compactions w w') (every : EveryEntry P w.eng) :
    EveryEntry P w'.eng := by
  induction compactions with
  | done => exact every
  | step _ compaction _ inductionHypothesis =>
      exact inductionHypothesis (compaction.everyEntry every)

theorem Flushing.everyEntry (flushing : Flushing w w') (every : EveryEntry P w.eng) :
    EveryEntry P w'.eng := by
  cases flushing with
  | nothing _ same => exact same ▸ every
  | flush isFrozen _ flush map compactions =>
      exact compactions.everyEntry (flush.everyEntry_thawed isFrozen map every)

end Engine

/-- A write adds what it stores. -/
theorem Accepted.everyEntry {stores : List Store} {seqs : Nat}
    (accepted : Accepted w stores seqs w') (inv : Inv w) (every : EveryEntry P w.eng)
    (new : ∀ s ∈ stores, P s.binding) : EveryEntry P w'.eng := by
  refine ⟨accepted.memtable.mem_layers inv.memtable every.memtable fun b hb => ?_, ?_⟩
  · obtain ⟨s, hs, rfl⟩ := List.mem_map.mp hb
    exact new s hs
  · obtain ⟨wal, memtable, metrics, eng⟩ := accepted.eng
    rw [eng]
    exact every.tables

/-- Freezing moves the entries of the active list. -/
theorem EveryEntry.frozen (every : EveryEntry P w.eng) (resting : Resting w) :
    EveryEntry P (frozen w).eng := by
  rcases resting.frozen_cases with ⟨same, -⟩ | ⟨moved, empty⟩
  · rw [same]
    exact every
  · refine ⟨fun map hm b hb => ?_, every.tables⟩
    simp only [MemTable.layers, moved, empty, Option.map_some, Option.toList_some,
      List.mem_cons, List.not_mem_nil, or_false] at hm
    rcases hm with rfl | rfl
    · cases hb
    · exact every.memtable _ List.mem_cons_self b hb

/-- Closing flushes. -/
theorem EveryEntry.closed {u : Unit} (every : EveryEntry P w.eng) (resting : Resting w)
    (limits : WithinLimits w'.sys) (run : Ends close w u w') : EveryEntry P w'.eng := by
  obtain ⟨w₁, w₂, flushes, limits₁, flushed, did, same⟩ := resting.ends_close_steps limits run
  obtain ⟨-, -, wal, eng⟩ := ends_walFlush flushed
  have every₁ := (flushing_of_maybeFlush resting.inv_frozen limits₁ flushes).everyEntry
    (every.frozen resting)
  rw [same, eng]
  exact ⟨every₁.memtable, every₁.tables⟩

/-- A reopened engine holds the entries of its tables and of its log. -/
theorem Reopened.everyEntry {opts : Options} {records : List Record} {e : Engine}
    (reopened : Reopened w opts records e)
    (tables : ∀ p ∈ w.eng.sstReaders, ∀ b ∈ (Table.map p).entries, P b)
    (log : ∀ b ∈ e.memtable.active.contents.entries, P b) : EveryEntry P e := by
  refine ⟨fun map hm b hb => ?_, fun p hp b hb => ?_⟩
  · obtain rfl : map = e.memtable.active.contents := by
      simpa [MemTable.layers, reopened.memtable.2] using hm
    exact log b hb
  · rw [reopened.readers] at hp
    obtain ⟨q, hq, rfl⟩ := List.mem_map.mp hp
    exact tables q (mem_listing hq) b hb

end KvEngine
