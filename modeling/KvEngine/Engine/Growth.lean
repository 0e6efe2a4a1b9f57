import KvEngine.Engine.Files
import KvEngine.Sstable.FileSize

/-!
# How an engine grows

`load` bounds the bytes that the tables of an engine would take up together with its memtable.
A call adds at most the footprint of what it stores; a flush moves a part of the load to a
table, and a compaction makes it no larger.  The load bounds the manifest as well, which lists
two keys of each table.

`FileFits` follows one file over everything that is done to it.
-/

namespace KvEngine

open Foundations Sstable

/-- What the entries of a memtable take up. -/
def MemTable.load (m : MemTable) : Nat := (m.layers.map (SortedMap.weight footprint)).sum

/-- What the entries of tables take up. -/
def tablesLoad (tables : List Table) : Nat :=
  (tables.map (fun p => p.map.weight footprint)).sum

/-- What all entries of an engine take up. -/
def Engine.load (e : Engine) : Nat := e.memtable.load + tablesLoad e.sstReaders

/-! ## The memtable -/

namespace MemTable

variable {m m' : MemTable}

theorem load_eq (m : MemTable) : m.load = m.active.contents.weight footprint +
    ((m.immutable.map SkipList.contents).map (SortedMap.weight footprint)).getD 0 := by
  unfold load layers
  cases m.immutable <;> simp

theorem Valid.load_put_le (valid : Valid m) {trailing : Nat} {key value : Bytes}
    (run : m.put trailing key value = .ok m') : m'.load ≤ m.load + footprint (key, value) := by
  obtain ⟨m'', run', -, -, cases_⟩ := valid.put_ok trailing key value
  obtain rfl : m'' = m' := Except.ok.inj (run'.symm.trans run)
  have grown := SortedMap.weight_insert_le (c := footprint) m.active.contents key value
  rw [load_eq, load_eq]
  rcases cases_ with ⟨active, immutable⟩ | ⟨free, active, imm, frozen, contents⟩
  · rw [active, immutable]
    omega
  · rw [active, frozen, free, Option.map_some, Option.map_some, contents]
    simp only [SortedMap.weight_empty, Option.getD_some, Option.map_none, Option.getD_none]
    omega

theorem Puts.load_le {bindings : List (Bytes × Bytes)} (puts : Puts m bindings m')
    (valid : Valid m) : m'.load ≤ m.load + weigh footprint bindings := by
  induction puts with
  | nil => exact le_rfl
  | @cons m m₁ m' trailing key value rest first later inductionHypothesis =>
      have step := valid.load_put_le first
      have valid₁ : Valid m₁ := ((Puts.cons first (.nil m₁)).valid valid).1
      have others := inductionHypothesis valid₁
      rw [weigh_cons]
      omega

end MemTable

/-! ## The tables -/

theorem tablesLoad_append (tables new : List Table) :
    tablesLoad (tables ++ new) = tablesLoad tables + tablesLoad new := by
  simp [tablesLoad]

@[simp] theorem tablesLoad_singleton (p : Table) : tablesLoad [p] = p.map.weight footprint := by
  simp [tablesLoad]

theorem tablesLoad_filter_add (tables : List Table) (keep : Table → Bool) :
    tablesLoad (tables.filter keep) + tablesLoad (tables.filter (fun p => !keep p)) =
      tablesLoad tables := by
  induction tables with
  | nil => rfl
  | cons p tables inductionHypothesis =>
      unfold tablesLoad at inductionHypothesis ⊢
      cases kept : keep p with
      | true =>
          simp only [List.filter_cons, kept, Bool.not_true, Bool.false_eq_true, if_true, if_false,
            List.map_cons, List.sum_cons]
          omega
      | false =>
          simp only [List.filter_cons, kept, Bool.not_false, Bool.false_eq_true, if_true, if_false,
            List.map_cons, List.sum_cons]
          omega

namespace Engine

variable {w w' : World}

/-- The tables that a compaction merges take up no more than those it removes. -/
theorem weight_merged_le (inv : Inv w) (level : Nat) :
    (merged w.eng.manifest w.eng.sstReaders level).weight footprint ≤
      tablesLoad (w.eng.sstReaders.filter (fun p => p.1 ∈ inputs w.eng.manifest level)) := by
  refine (SortedMap.weight_mergeAll_le _).trans ?_
  rw [List.map_map]
  change tablesLoad (among _ _ ++ among _ _) ≤ _
  rw [tablesLoad_append, Nat.add_comm]
  -- no table is listed both at the level and at the next one
  have apart : ∀ p ∈ w.eng.sstReaders, p.1 ∈ w.eng.manifest.sstsAtLevel level →
      p.1 ∉ overlaps w.eng.manifest level := fun p _ source next => by
    have same := inv.listed.level_unique source (overlaps_subset _ _ next)
    omega
  unfold among
  generalize w.eng.sstReaders = tables at apart
  induction tables with
  | nil => exact le_rfl
  | cons p tables inductionHypothesis =>
      have rest := inductionHypothesis fun q hq => apart q (List.mem_cons_of_mem _ hq)
      have here := apart p List.mem_cons_self
      unfold tablesLoad at rest ⊢
      by_cases source : p.1 ∈ w.eng.manifest.sstsAtLevel level
      · have taken : p.1 ∈ inputs w.eng.manifest level := List.mem_append_left _ source
        simp only [List.filter_cons, source, here source, taken, decide_true, decide_false, if_true,
          Bool.false_eq_true, if_false, List.map_cons, List.sum_cons]
        omega
      · by_cases next : p.1 ∈ overlaps w.eng.manifest level
        · have taken : p.1 ∈ inputs w.eng.manifest level := List.mem_append_right _ next
          simp only [List.filter_cons, source, next, taken, decide_true, decide_false, if_true,
            Bool.false_eq_true, if_false, List.map_cons, List.sum_cons]
          omega
        · have left : p.1 ∉ inputs w.eng.manifest level := fun taken =>
            (List.mem_append.mp taken).elim source next
          simp only [List.filter_cons, source, next, left, decide_false, Bool.false_eq_true, if_false]
          exact rest

/-- **A compaction** makes the load no larger. -/
theorem Compaction.load_le {level : Nat} {time : Bytes → Nat} {added : Option Table}
    (compaction : Compaction w level time added w') (inv : Inv w) : w'.eng.load ≤ w.eng.load := by
  have readers : w'.eng.sstReaders =
      w.eng.sstReaders.filter (fun p : Table => p.1 ∉ inputs w.eng.manifest level) ++ added.toList :=
    compaction.readers
  obtain ⟨nextSstId, blockCache, metrics, eng⟩ := compaction.eng
  have memtable : w'.eng.memtable = w.eng.memtable := by rw [eng]
  have parts := tablesLoad_filter_add w.eng.sstReaders (fun p => p.1 ∈ inputs w.eng.manifest level)
  have bound := weight_merged_le inv level
  have new : tablesLoad added.toList ≤
      (merged w.eng.manifest w.eng.sstReaders level).weight footprint := by
    cases isNew : added with
    | none => exact Nat.zero_le _
    | some p =>
        have holds : p.map = live time _ := (compaction.new p isNew).2.2
        rw [Option.toList_some, tablesLoad_singleton, holds]
        exact SortedMap.weight_filter_le _ _
  rw [Engine.load, Engine.load, memtable, readers, tablesLoad_append]
  simp only [decide_not]
  omega

/-- **A flush** moves the frozen list to a table. -/
theorem Flush.load_eq {imm : SkipList} {p : Table} (flush : Flush (thawed w) p w')
    (frozen : w.eng.memtable.immutable = some imm) (map : p.map = imm.contents) :
    w'.eng.load = w.eng.load := by
  obtain ⟨metrics, eng⟩ := flush.eng
  rw [eng]
  simp only [Engine.load, thawed, MemTable.takeImmutable, tablesLoad_append, tablesLoad_singleton, map,
    MemTable.load_eq, frozen, Option.map_some, Option.map_none, Option.getD_some, Option.getD_none]
  omega

end Engine

/-- What a call stores is added to the load. -/
theorem Accepted.load_le {w w' : World} {stores : List Store} {seqs : Nat}
    (accepted : Accepted w stores seqs w')
    (valid : w.eng.memtable.Valid) :
    w'.eng.load ≤ w.eng.load + weigh footprint (stores.map Store.binding) := by
  have grown := accepted.memtable.load_le valid
  obtain ⟨wal, memtable, metrics, eng⟩ := accepted.eng
  have readers : w'.eng.sstReaders = w.eng.sstReaders := by rw [eng]
  rw [Engine.load, Engine.load, readers]
  omega

/-! ## The manifest -/

namespace Manifest

theorem length_levels_addSst (m : Manifest) (level : Nat) (sst : SSTMeta) :
    (m.addSst level sst).levels.length = max m.levels.length (level + 1) := by
  simp only [addSst, List.length_modify, List.length_append, List.length_replicate]
  omega

theorem length_removeFrom (id : Nat) (levels : List (List SSTMeta)) :
    (removeFrom id levels).1.length = levels.length := by
  induction levels with
  | nil => rfl
  | cons level levels inductionHypothesis =>
      unfold removeFrom
      simp only
      split
      · rfl
      · simpa using inductionHypothesis

theorem length_levels_removeAll (ids : List Nat) (m : Manifest) :
    (m.removeAll ids).levels.length = m.levels.length := by
  induction ids generalizing m with
  | nil => rfl
  | cons id ids inductionHypothesis =>
      exact (inductionHypothesis _).trans (length_removeFrom id m.levels)

/-- The bytes that the manifest needs for a table. -/
def listing (sst : SSTMeta) : Nat := sst.minKey.length + sst.maxKey.length + 16

theorem length_encode (m : Manifest) :
    m.encode.length = 12 + 4 * m.levels.length + (m.entries.map listing).sum := by
  have level : ∀ l : List SSTMeta, (encodeLevel l).length = 4 + (l.map listing).sum := by
    intro l
    rw [encodeLevel, List.length_append, length_leBytes, List.length_flatMap]
    congr 2
    refine List.map_congr_left fun sst _ => ?_
    simp only [encodeSst, encodeBytes, List.length_append, length_leBytes, listing]
    omega
  have levels : ∀ ls : List (List SSTMeta), (ls.flatMap encodeLevel).length =
      4 * ls.length + (ls.flatten.map listing).sum := by
    intro ls
    induction ls with
    | nil => rfl
    | cons l ls inductionHypothesis =>
        rw [List.flatMap_cons, List.length_append, inductionHypothesis, level, List.length_cons,
          List.flatten_cons, List.map_append, List.sum_append]
        omega
  rw [encode, List.length_append, levels]
  simp only [List.length_append, length_leBytes, magic, List.length_cons, List.length_nil, entries]
  omega

end Manifest

/-- A table takes up more than the manifest needs for it. -/
theorem Table.Described.listing_le {p : Table} (described : p.Described) :
    Manifest.listing p.1 ≤ 2 * p.map.weight footprint := by
  obtain ⟨first, isFirst⟩ := described.lookup_minKey
  obtain ⟨last, isLast⟩ := described.lookup_maxKey
  have low := le_weigh_of_mem (c := footprint) (SortedMap.mem_entries.mpr isFirst)
  have high := le_weigh_of_mem (c := footprint) (SortedMap.mem_entries.mpr isLast)
  unfold Manifest.listing
  simp only [footprint] at low high
  unfold SortedMap.weight
  omega

/-- **A bound for the size of the manifest.** -/
theorem length_encode_manifest_le {m : Manifest} {tables : List Table} (listed : Listed m tables)
    (described : ∀ p ∈ tables, p.Described) :
    m.encode.length ≤ 12 + 4 * m.levels.length + 2 * tablesLoad tables := by
  have nodup : m.entries.Nodup := List.Nodup.of_map _ listed.distinct
  have among : m.entries ⊆ tables.map Prod.fst := by
    intro sst member
    obtain ⟨level, atLevel⟩ := Manifest.mem_entries.mp member
    exact (listed.inOrder level).subset atLevel
  obtain ⟨entries, same, sub⟩ := nodup.subperm among
  have listing : (m.entries.map Manifest.listing).sum ≤ 2 * tablesLoad tables := by
    rw [← (same.map Manifest.listing).sum_eq]
    refine ((sub.map Manifest.listing).sum_le_sum fun _ _ => Nat.zero_le _).trans ?_
    rw [List.map_map, tablesLoad, ← List.sum_map_mul_left]
    exact List.sum_le_sum fun p hp => (described p hp).listing_le
  rw [Manifest.length_encode]
  omega

/-! ## The size of a file over time -/

/-- The file has stayed below the range of a `u32`. -/
def FileFits (f : FileName) (s : Sys) : Prop :=
  ∀ ops, ops <+: s.journal → ∀ data, (applyOps ops ∅).lookup f = some data → data.length < 2 ^ 32

theorem filesFit_iff {s : Sys} : FilesFit s ↔ ∀ f, FileFits f s :=
  ⟨fun fits f ops isPrefix => fits ops isPrefix f, fun fits ops isPrefix f => fits f ops isPrefix⟩

theorem withinLimits_iff {s : Sys} : WithinLimits s ↔ ∀ id, FileFits (.sst id) s :=
  ⟨fun fits id ops isPrefix => fits ops isPrefix id, fun fits ops isPrefix id => fits id ops isPrefix⟩

namespace FileFits

variable {f : FileName} {s s' : Sys} {ops : List FsOp}

/-- The file is small at every moment of a part that was added to the journal. -/
theorem of_did (fits : FileFits f s) (history : s.dir = applyOps s.journal ∅) (did : s.Did ops s')
    (along : ∀ before, before <+: ops → ∀ data, (applyOps before s.dir).lookup f = some data →
      data.length < 2 ^ 32) : FileFits f s' := by
  intro journal isPrefix data present
  rw [did.journal] at isPrefix
  rcases List.prefix_or_prefix_of_prefix isPrefix (List.prefix_append _ _) with old | new
  · exact fits journal old data present
  · obtain ⟨before, rfl⟩ := new
    refine along before ((List.prefix_append_right_inj _).mp isPrefix) data ?_
    rw [history, ← applyOps_append]
    exact present

theorem small (fits : FileFits f s) (history : s.dir = applyOps s.journal ∅) {data : Bytes}
    (present : s.dir.lookup f = some data) : data.length < 2 ^ 32 :=
  fits s.journal (List.prefix_refl _) data (history ▸ present)

/-- Nothing was done to the file. -/
theorem untouched (fits : FileFits f s) (history : s.dir = applyOps s.journal ∅)
    (did : s.Did ops s') (others : ∀ op ∈ ops, op.file ≠ f) : FileFits f s' := by
  refine fits.of_did history did fun before begins data present => fits.small history ?_
  rwa [lookup_applyOps_of_ne _ fun op member => others op (begins.subset member)] at present

/-- Files were removed. -/
theorem removed (fits : FileFits f s) (history : s.dir = applyOps s.journal ∅)
    (did : s.Did ops s') (removals : ∀ op ∈ ops, ∃ g, op = .remove g) : FileFits f s' :=
  fits.of_did history did fun _ begins _ present => fits.small history
    (lookup_of_removals (fun op member => removals op (begins.subset member)) _ present)

/-- A file that is written at its end only grows. -/
theorem length_le_of_appends {d : Dir} (appends : ∀ op ∈ ops, ∃ data, op = .append f data)
    {old new : Bytes} (before : d.lookup f = some old) (after : (applyOps ops d).lookup f = some new) :
    old.length ≤ new.length := by
  induction ops generalizing d old with
  | nil =>
      rw [applyOps_nil, before] at after
      rw [Option.some.inj after]
  | cons op ops inductionHypothesis =>
      obtain ⟨data, rfl⟩ := appends op List.mem_cons_self
      have step := inductionHypothesis (fun op member => appends op (List.mem_cons_of_mem _ member))
        (FsOp.lookup_append before data) after
      rw [List.length_append] at step
      omega

/-- More was written at the end of the file. -/
theorem appended (fits : FileFits f s) (history : s.dir = applyOps s.journal ∅)
    (did : s.Did ops s') (appends : ∀ op ∈ ops, ∃ data, op = .append f data) {new : Bytes}
    (after : s'.dir.lookup f = some new) (isSmall : new.length < 2 ^ 32) : FileFits f s' := by
  refine fits.of_did history did fun first begins data present => ?_
  obtain ⟨rest, rfl⟩ := begins
  rw [did.dir, applyOps_append] at after
  exact (length_le_of_appends (fun op member => appends op (List.mem_append_right _ member))
    present after).trans_lt isSmall

/-- The file was written anew. -/
theorem rewritten (fits : FileFits f s) (history : s.dir = applyOps s.journal ∅)
    (did : s.Did (.truncate f :: ops) s') (appends : ∀ op ∈ ops, ∃ data, op = .append f data)
    {new : Bytes} (after : s'.dir.lookup f = some new) (isSmall : new.length < 2 ^ 32) :
    FileFits f s' := by
  refine fits.of_did history did fun first begins data present => ?_
  rcases List.prefix_cons_iff.mp begins with rfl | ⟨before, rfl, begins'⟩
  · exact fits.small history present
  · obtain ⟨rest, rfl⟩ := begins'
    rw [did.dir, ← List.cons_append, applyOps_append] at after
    exact (length_le_of_appends (fun op member => appends op (List.mem_append_right _ member))
      present after).trans_lt isSmall

end FileFits

end KvEngine
