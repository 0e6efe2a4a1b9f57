import KvEngine.Engine.FlushSpec

/-!
# What a compaction does

A compaction merges the tables of a level and the overlapping ones of the next
level, older ones first, drops what shows nothing, and puts the rest into a new
table.  `Compaction` states this of one step of the cascade.
-/

namespace KvEngine

open Foundations Sstable

namespace Engine

variable {w w₁ w₂ w' : World} {u : Unit}

/-! ## The overlapping tables -/

theorem minKey_le {keys : List Bytes} {low : Bytes} (least : minKey keys = some low) :
    ∀ k ∈ keys, low ≤ k := by
  induction keys generalizing low with
  | nil => simp
  | cons k keys inductionHypothesis =>
      rw [minKey] at least
      cases rest : minKey keys with
      | none =>
          rw [rest] at least
          cases least
          cases keys with
          | nil => simp
          | cons k' keys =>
              rw [minKey] at rest
              split at rest <;> cases rest
      | some m =>
          rw [rest] at least
          cases least
          intro k' member
          rcases List.mem_cons.mp member with rfl | later
          · split
            · next less => exact less.le
            · exact le_rfl
          · have bound := inductionHypothesis rest k' later
            split
            · exact bound
            · next notLess => exact (not_lt.mp notLess).trans bound

theorem le_maxKey {keys : List Bytes} {high : Bytes} (greatest : maxKey keys = some high) :
    ∀ k ∈ keys, k ≤ high := by
  induction keys generalizing high with
  | nil => simp
  | cons k keys inductionHypothesis =>
      rw [maxKey] at greatest
      cases rest : maxKey keys with
      | none =>
          rw [rest] at greatest
          cases greatest
          cases keys with
          | nil => simp
          | cons k' keys =>
              rw [maxKey] at rest
              split at rest <;> cases rest
      | some m =>
          rw [rest] at greatest
          cases greatest
          intro k' member
          rcases List.mem_cons.mp member with rfl | later
          · split
            · exact le_rfl
            · next notLess => exact not_lt.mp notLess
          · have bound := inductionHypothesis rest k' later
            split
            · next less => exact bound.trans less.le
            · exact bound

/-- The hull of the source tables, and the tables that meet it. -/
theorem overlapping_ok {src all dst : List SSTMeta} (run : overlapping src all = .ok dst) :
    src ≠ [] ∧ ∃ low high, (∀ sst ∈ src, low ≤ sst.minKey ∧ sst.maxKey ≤ high) ∧
      dst = all.filter (fun m => low ≤ m.maxKey ∧ m.minKey ≤ high) := by
  simp only [overlapping, Result.bind_eq_ok, orPanic_eq_ok, Except.ok.injEq] at run
  obtain ⟨low, least, high, greatest, rfl⟩ := run
  refine ⟨?_, low, high, fun sst member => ⟨?_, ?_⟩, rfl⟩
  · rintro rfl
    cases least
  · exact minKey_le least _ (List.mem_map_of_mem member)
  · exact le_maxKey greatest _ (List.mem_map_of_mem member)

/-- The tables of the next level that a compaction takes up. -/
def overlaps (m : Manifest) (level : Nat) : List SSTMeta :=
  match overlapping (m.sstsAtLevel level) (m.sstsAtLevel (level + 1)) with
  | .ok dst => dst
  | .error _ => []

theorem overlaps_subset (m : Manifest) (level : Nat) {sst : SSTMeta}
    (member : sst ∈ overlaps m level) : sst ∈ m.sstsAtLevel (level + 1) := by
  unfold overlaps at member
  split at member
  · next dst run =>
      obtain ⟨-, low, high, -, rfl⟩ := overlapping_ok run
      exact (List.mem_filter.mp member).1
  · cases member

theorem overlaps_sublist (m : Manifest) (level : Nat) :
    (overlaps m level).Sublist (m.sstsAtLevel (level + 1)) := by
  unfold overlaps
  split
  · next dst run =>
      obtain ⟨-, low, high, -, rfl⟩ := overlapping_ok run
      exact List.filter_sublist
  · exact List.nil_sublist _

/-- The metadata of the tables that compacting a level takes up. -/
def inputs (m : Manifest) (level : Nat) : List SSTMeta := m.sstsAtLevel level ++ overlaps m level

/-- The map that compacting a level merges: the next level first, as the older one. -/
def merged (m : Manifest) (tables : List Table) (level : Nat) : SortedMap Bytes Bytes :=
  SortedMap.mergeAll
    ((among (overlaps m level) tables ++ among (m.sstsAtLevel level) tables).map Table.map)

/-- A table that is taken up neither from the level nor from the next one is
beyond all that are. -/
theorem apart_of_not_overlapping {m : Manifest} {tables : List Table} {level : Nat} {q : Table}
    (runs : ∃ dst, overlapping (m.sstsAtLevel level) (m.sstsAtLevel (level + 1)) = .ok dst)
    (apart : RangesApart m) (described : ∀ p ∈ tables, p.Described)
    (listed : Listed m tables) (hq : q ∈ tables) (atNext : q.1 ∈ m.sstsAtLevel (level + 1))
    (left : q.1 ∉ overlaps m level) :
    (∀ sst ∈ inputs m level, q.1.maxKey < sst.minKey) ∨
      (∀ sst ∈ inputs m level, sst.maxKey < q.1.minKey) := by
  obtain ⟨dst, run⟩ := runs
  have dstIs : overlaps m level = dst := by simp only [overlaps, run]
  obtain ⟨-, low, high, bounds, rfl⟩ := overlapping_ok run
  have pairs : ∀ d ∈ overlaps m level, Apart q.1 d ∧ d.minKey ≤ d.maxKey ∧
      low ≤ d.maxKey ∧ d.minKey ≤ high := by
    intro d hd
    have atLevel := overlaps_subset m level hd
    obtain ⟨r, hr, rfl⟩ := listed.mem_tables atLevel
    refine ⟨?_, (described r hr).min_le_max, ?_⟩
    · have different : q.1 ≠ r.1 := fun same => left (same ▸ hd)
      exact (apart (level + 1) (by omega)).forall atNext atLevel different
    · rw [dstIs] at hd
      simpa using (List.mem_filter.mp hd).2
  have ordered := (described q hq).min_le_max
  have outside : q.1.maxKey < low ∨ high < q.1.minKey := by
    rw [dstIs] at left
    by_contra inside
    push Not at inside
    exact left (List.mem_filter.mpr ⟨atNext, by simpa using inside⟩)
  rcases outside with below | above
  · refine Or.inl fun sst member => ?_
    rcases List.mem_append.mp member with source | next
    · exact below.trans_le (bounds sst source).1
    · obtain ⟨either, -, reaches, -⟩ := pairs sst next
      rcases either with before | after
      · exact before
      · -- it would end before `low`, which it reaches
        exact absurd (reaches.trans_lt (after.trans_le ordered)) below.not_gt
  · refine Or.inr fun sst member => ?_
    rcases List.mem_append.mp member with source | next
    · exact (bounds sst source).2.trans_lt above
    · obtain ⟨either, -, -, starts⟩ := pairs sst next
      rcases either with before | after
      · exact absurd (above.trans_le (ordered.trans (before.le.trans starts))) (lt_irrefl _)
      · exact after

/-! ## Merging -/

/-- Merging the tables of `ts` lays their maps over each other, the last one on top. -/
theorem mergeTables_run (ts : List Table) (open_ : ∀ p ∈ ts, p ∈ w.eng.sstReaders)
    (tables : Tables w.eng.sstReaders w.eng.nextSstId w.eng.blockCache)
    (all : SortedMap Bytes Bytes) :
    ∃ blockCache, Tables w.eng.sstReaders w.eng.nextSstId blockCache ∧
      mergeTables (ts.map (fun p => p.1.id)) all w =
        .ok (ts.foldl (fun acc p => acc.insertAll p.map.entries) all)
          { w with eng := { w.eng with blockCache } } := by
  induction ts generalizing w all with
  | nil => exact ⟨_, tables, rfl⟩
  | cons p ts inductionHypothesis =>
      have member := open_ p List.mem_cons_self
      obtain ⟨c₁, iterates, tables₁⟩ := tables.iter_ok member
      obtain ⟨c₂, tables₂, run⟩ := inductionHypothesis
        (w := { w with eng := { w.eng with blockCache := c₁ } })
        (fun q hq => open_ q (List.mem_cons_of_mem _ hq)) tables₁ (all.insertAll p.map.entries)
      refine ⟨c₂, tables₂, ?_⟩
      have found : w.eng.sstReaders.find? (fun q => q.1.id = p.1.id) = some p := by
        obtain ⟨q, isFound⟩ : ∃ q, w.eng.sstReaders.find? (fun q => q.1.id = p.1.id) = some q :=
          Option.isSome_iff_exists.mp (List.find?_isSome.mpr ⟨p, member, by simp⟩)
        rw [isFound, tables.eq_of_id (List.mem_of_find?_eq_some isFound) member
          (by simpa using List.find?_some isFound)]
      have stepped : onCache p.2.iter w =
          .ok p.map.entries { w with eng := { w.eng with blockCache := c₁ } } := by
        simp only [onCache, zoom, iterates]
      rw [List.map_cons, mergeTables, bind_apply_ok (rfl : self w = .ok w.eng w)]
      simp only [found]
      rw [bind_apply_ok stepped]
      exact run

/-- The bindings of a map that show something, each at its own time. -/
def live (time : Bytes → Nat) (map : SortedMap Bytes Bytes) : SortedMap Bytes Bytes :=
  map.filter (fun b => (shown (time b.1) b.2).isSome)

/-- How often the filter of a compaction reads the clock before it comes to `key`. -/
def readsBefore (entries : Entries) (key : Bytes) : Nat :=
  ((entries.filter (fun b => b.1 < key)).map (fun b => clockReads b.2)).sum

theorem readsBefore_le (entries : Entries) (key : Bytes) :
    readsBefore entries key ≤ (entries.map (fun b => clockReads b.2)).sum :=
  ((List.filter_sublist (l := entries)).map _).sum_le_sum fun _ _ => Nat.zero_le _

/-- **The filter of a compaction** examines each entry with a reading of its own. -/
theorem retainVisible_run {entries : Entries} (ascending : AscendingKeys entries) (s : Sys) :
    retainVisible entries s =
      .ok (entries.filter (fun b =>
          (shown (s.env.clock (s.ticks + readsBefore entries b.1)) b.2).isSome))
        (s.later (entries.map (fun b => clockReads b.2)).sum) := by
  induction entries generalizing s with
  | nil => rfl
  | cons b rest inductionHypothesis =>
      obtain ⟨k, v⟩ := b
      obtain ⟨above, ascendingRest⟩ := List.pairwise_cons.mp ascending
      have first : readsBefore ((k, v) :: rest) k = 0 := by
        have noneBelow : ((k, v) :: rest).filter (fun b => b.1 < k) = [] := by
          refine List.filter_eq_nil_iff.mpr fun b hb => ?_
          rcases List.mem_cons.mp hb with rfl | later
          · simp
          · simpa using (above b later).le
        rw [readsBefore, noneBelow]
        rfl
      have others : ∀ b ∈ rest, readsBefore ((k, v) :: rest) b.1 =
          clockReads v + readsBefore rest b.1 := by
        intro b hb
        have earlier : k < b.1 := above b hb
        simp [readsBefore, earlier]
      have tail : rest.filter (fun b => (shown (s.env.clock
            (s.ticks + readsBefore ((k, v) :: rest) b.1)) b.2).isSome) =
          rest.filter (fun b => (shown ((s.later (clockReads v)).env.clock
            ((s.later (clockReads v)).ticks + readsBefore rest b.1)) b.2).isSome) :=
        List.filter_congr fun b hb => by
          rw [others b hb, Sys.later_env, Sys.later_ticks, Nat.add_assoc]
      rw [retainVisible, bind_apply_ok (isVisible_reads s false v),
        bind_apply_ok (inductionHypothesis ascendingRest (s.later (clockReads v))),
        Sys.later_later, List.filter_cons, tail, first]
      rfl

/-! ## Removing the inputs -/

theorem ends_removeTables {ids : List Nat} (run : Ends (removeTables ids) w u w') :
    w'.eng = { w.eng with
        manifest := w.eng.manifest.removeAll ids
        sstReaders := w.eng.sstReaders.filter (fun p => p.1.id ∉ ids) } ∧
      ∃ ops, w.sys.Did ops w'.sys ∧ ops.Sublist (ids.map (fun id => .remove (.sst id))) := by
  induction ids generalizing w with
  | nil =>
      obtain ⟨-, rfl⟩ := ends_pure.mp run
      exact ⟨by simp [Manifest.removeAll], [], .refl _, List.Sublist.refl _⟩
  | cons id ids inductionHypothesis =>
      simp only [removeTables, ends_bind, ends_modifySelf, ends_onSys] at run
      obtain ⟨u₁, w₁, rfl, u₂, w₂, ⟨s, removed, rfl⟩, later⟩ := run
      obtain ⟨eng, ops, did, sub⟩ := inductionHypothesis later
      refine ⟨?_, ?_⟩
      · rw [eng]
        simp only [Manifest.removeAll, List.filter_filter, List.mem_cons, not_or, Bool.decide_and,
          Bool.and_comm, ne_eq, List.foldl_cons]
      · rcases ends_ignoring_removeFile removed with gone | kept
        · exact ⟨_, gone.trans did, sub.cons_cons _⟩
        · exact ⟨_, kept.trans did, sub.cons _⟩

/-! ## One compaction -/

/-- The manifest once the new table, if there is one, is listed at `level`. -/
def withAdded (m : Manifest) (level : Nat) : Option Table → Manifest
  | none => m
  | some p => m.addSst level p.1

/-- Between `s` and `s'` only the file of the new table, if there is one, was created. -/
def BuiltIfAny (s : Sys) (added : Option Table) (s' : Sys) : Prop :=
  match added with
  | none => s.Did [] s'
  | some p => Built s p s'

/-- Nothing is listed above `level`. -/
def Topmost (m : Manifest) (level : Nat) : Prop := ∀ l < level, m.sstsAtLevel l = []

/-- The versions of a key in the tables that compacting `level` takes up, newest first. -/
def takenVersions (e : Engine) (level : Nat) (key : Bytes) : List Bytes :=
  versionsIn key (among (inputs e.manifest level) e.sstReaders).reverse

/-- The versions of a key in the tables that compacting `level` leaves, newest first. -/
def leftVersions (e : Engine) (level : Nat) (key : Bytes) : List Bytes :=
  versionsIn key (e.sstReaders.filter (fun p => p.1 ∉ inputs e.manifest level)).reverse

/-- The reading of the clock with which compacting `level` examines the merged entry
of a key. -/
def examinedAt (w : World) (level : Nat) (key : Bytes) : Nat :=
  w.sys.env.clock
    (w.sys.ticks + readsBefore (merged w.eng.manifest w.eng.sstReaders level).entries key)

theorem reads_examinedAt (w : World) (level : Nat) (key : Bytes) :
    w.sys.Reads (examinedAt w level key) := ⟨_, Nat.le_add_right _ _, rfl⟩

/-- What compacting `level` does: the tables it takes up make way for at most one
table, which holds what the merged map shows. -/
structure Compaction (w : World) (level : Nat) (time : Bytes → Nat) (added : Option Table)
    (w' : World) : Prop where
  overlap : ∃ dst, overlapping (w.eng.manifest.sstsAtLevel level)
    (w.eng.manifest.sstsAtLevel (level + 1)) = .ok dst
  clock : ∀ key, w.sys.Reads (time key)
  nothing : added = none → (live time (merged w.eng.manifest w.eng.sstReaders level)).entries = []
  new : ∀ p, added = some p → p.Described ∧ p.1.id = w.eng.nextSstId ∧
    p.map = live time (merged w.eng.manifest w.eng.sstReaders level)
  tables : Tables w'.eng.sstReaders w'.eng.nextSstId w'.eng.blockCache
  eng : ∃ nextSstId blockCache metrics, w'.eng =
    { w.eng with
      manifest := (withAdded w.eng.manifest (level + 1) added).removeAll
        ((inputs w.eng.manifest level).map SSTMeta.id)
      sstReaders := w.eng.sstReaders.filter (fun p => p.1 ∉ inputs w.eng.manifest level) ++
        added.toList
      nextSstId, blockCache, metrics }
  sys : ∃ s₁ s₂ removals, BuiltIfAny w.sys added s₁ ∧ s₁.Did removals s₂ ∧
    removals.Sublist ((inputs w.eng.manifest level).map (fun sst => .remove (.sst sst.id))) ∧
    s₂.Did (manifestOps w'.eng.manifest) w'.sys

/-- **The new table of a compaction.** -/
theorem ends_installMerged {level : Nat} {map : SortedMap Bytes Bytes}
    (history : w.sys.dir = applyOps w.sys.journal ∅) (limits : WithinLimits w'.sys)
    (keys : ∀ b ∈ map.entries, b.1.length < 2 ^ 16)
    (run : Ends (installMerged level map.entries) w u w') :
    ∃ p, p.Described ∧ p.1.id = w.eng.nextSstId ∧ p.map = map ∧ Built w.sys p w'.sys ∧
      w'.eng = { w.eng with
        manifest := w.eng.manifest.addSst level p.1
        sstReaders := w.eng.sstReaders ++ [p]
        nextSstId := w.eng.nextSstId + 1 } := by
  simp only [installMerged, ends_bind, ends_liftResult, ends_modifySelf, ends_self,
    orPanic_eq_ok] at run
  obtain ⟨id, w₁, took, u₁, w₂, wrote, sst, w₃, ⟨meta_, rfl⟩, r, w₄, opened, u₂, w₅, rfl, e, w₆,
    ⟨rfl, rfl⟩, pushed, w₇, ⟨last, rfl⟩, rfl⟩ := run
  obtain ⟨rfl, rfl, -⟩ := ends_takeSstId took
  obtain ⟨described, mapIs, idIs, -, built, rest⟩ := ends_newTable wrote meta_ opened history
    limits keys
  rw [Manifest.sstsAtLevel_addSst, if_pos rfl, List.getLast?_concat] at last
  cases last
  refine ⟨(sst, r), described, idIs, mapIs, built, ?_⟩
  rw [rest]

/-- The merged map answers with the newest table that is taken up. -/
theorem lookup_merged (m : Manifest) (tables : List Table) (level : Nat) (key : Bytes) :
    (merged m tables level).lookup key =
      (versionsIn key
        (among (overlaps m level) tables ++ among (m.sstsAtLevel level) tables).reverse).head? := by
  rw [merged, lookup_mergeAll_eq_head, ← List.map_reverse, versions, List.filterMap_map]
  rfl

/-- A binding of the merged map comes from a table that is taken up. -/
theorem exists_of_lookup_merged {m : Manifest} {tables : List Table} {level : Nat}
    {key value : Bytes} (found : (merged m tables level).lookup key = some value) :
    ∃ p ∈ tables, p.1 ∈ inputs m level ∧ p.map.lookup key = some value := by
  rw [lookup_merged] at found
  obtain ⟨p, hp, answer⟩ := mem_versions.mp (List.mem_of_head? found)
  rcases List.mem_append.mp (List.mem_reverse.mp hp) with next | source
  · obtain ⟨open_, member⟩ := List.mem_filter.mp next
    exact ⟨p, open_, List.mem_append_right _ (by simpa using member), answer⟩
  · obtain ⟨open_, member⟩ := List.mem_filter.mp source
    exact ⟨p, open_, List.mem_append_left _ (by simpa using member), answer⟩

theorem lookup_live (time : Bytes → Nat) (map : SortedMap Bytes Bytes) (key : Bytes) :
    (live time map).lookup key = (map.lookup key).filter (fun v => (shown (time key) v).isSome) :=
  SortedMap.lookup_filter _

/-- The tables that a compaction merges are open, and their ids are what the
manifest lists. -/
theorem map_id_inputs (inv : Inv w) (level : Nat) :
    (overlaps w.eng.manifest level).map SSTMeta.id ++
        (w.eng.manifest.sstsAtLevel level).map SSTMeta.id =
      (among (overlaps w.eng.manifest level) w.eng.sstReaders ++
        among (w.eng.manifest.sstsAtLevel level) w.eng.sstReaders).map (fun p => p.1.id) := by
  have next := map_among inv.tables.distinct
    ((overlaps_sublist w.eng.manifest level).trans (inv.listed.inOrder (level + 1)))
  have source := map_among inv.tables.distinct (inv.listed.inOrder level)
  conv_lhs => rw [← next, ← source]
  rw [List.map_append, List.map_map, List.map_map]
  rfl

theorem inputs_listed {m : Manifest} {level : Nat} {sst : SSTMeta} (member : sst ∈ inputs m level) :
    sst ∈ m.sstsAtLevel level ∨ sst ∈ m.sstsAtLevel (level + 1) := by
  rcases List.mem_append.mp member with source | next
  · exact Or.inl source
  · exact Or.inr (overlaps_subset m level next)

theorem inputs_open (inv : Inv w) {level : Nat} {sst : SSTMeta}
    (member : sst ∈ inputs w.eng.manifest level) : ∃ p ∈ w.eng.sstReaders, p.1 = sst := by
  rcases inputs_listed member with source | next
  · exact inv.listed.mem_tables source
  · exact inv.listed.mem_tables next

/-- Among open tables, being taken up can be told from the id. -/
theorem mem_inputs_iff (inv : Inv w) (level : Nat) {p : Table} (hp : p ∈ w.eng.sstReaders) :
    p.1.id ∈ (inputs w.eng.manifest level).map SSTMeta.id ↔ p.1 ∈ inputs w.eng.manifest level := by
  refine ⟨fun member => ?_, List.mem_map_of_mem⟩
  obtain ⟨sst, hs, same⟩ := List.mem_map.mp member
  obtain ⟨q, hq, rfl⟩ := inputs_open inv hs
  rwa [← inv.tables.eq_of_id hq hp same]

/-- An id that is not in use yet is not taken up. -/
theorem not_mem_inputs (inv : Inv w) (level : Nat) :
    w.eng.nextSstId ∉ (inputs w.eng.manifest level).map SSTMeta.id := by
  intro member
  obtain ⟨sst, hs, same⟩ := List.mem_map.mp member
  obtain ⟨q, hq, rfl⟩ := inputs_open inv hs
  exact absurd same (inv.tables.fresh q hq).ne

/-- The inputs are removed once the new table is open. -/
theorem filter_not_mem_inputs (inv : Inv w) (level : Nat) {added : Option Table}
    (new : ∀ p, added = some p → p.1.id = w.eng.nextSstId) :
    (w.eng.sstReaders ++ added.toList).filter
        (fun p => p.1.id ∉ (inputs w.eng.manifest level).map SSTMeta.id) =
      w.eng.sstReaders.filter (fun p => p.1 ∉ inputs w.eng.manifest level) ++ added.toList := by
  rw [List.filter_append]
  congr 1
  · exact List.filter_congr fun p hp => by simp only [mem_inputs_iff inv level hp]
  · refine List.filter_eq_self.mpr fun p hp => ?_
    rw [new p (Option.mem_toList.mp hp)]
    exact decide_eq_true (not_mem_inputs inv level)

/-- What is left to do once the inputs are removed: the manifest is saved. -/
theorem Compaction.of_removed {v w₂ : World} {level : Nat} {time : Bytes → Nat}
    {added : Option Table} {nextSstId : Nat} {blockCache : Option BlockCache} (inv : Inv w)
    (overlap : ∃ dst, overlapping (w.eng.manifest.sstsAtLevel level)
      (w.eng.manifest.sstsAtLevel (level + 1)) = .ok dst)
    (clock : ∀ key, w.sys.Reads (time key))
    (nothing : added = none →
      (live time (merged w.eng.manifest w.eng.sstReaders level)).entries = [])
    (new : ∀ p, added = some p → p.Described ∧ p.1.id = w.eng.nextSstId ∧
      p.map = live time (merged w.eng.manifest w.eng.sstReaders level))
    (built : BuiltIfAny w.sys added v.sys)
    (tables : Tables (w.eng.sstReaders ++ added.toList) nextSstId blockCache)
    (eng : v.eng = { w.eng with
      manifest := withAdded w.eng.manifest (level + 1) added
      sstReaders := w.eng.sstReaders ++ added.toList
      nextSstId, blockCache })
    (removed : Ends (removeTables ((w.eng.manifest.sstsAtLevel level).map SSTMeta.id ++
      (overlaps w.eng.manifest level).map SSTMeta.id)) v u w₂)
    {s : Sys} (saved : w₂.sys.Did (manifestOps w₂.eng.manifest) s) (metrics : Metrics) :
    Compaction w level time added ⟨{ w₂.eng with metrics }, s⟩ := by
  rw [← List.map_append, ← inputs] at removed
  obtain ⟨eng₂, removals, didRemove, sub⟩ := ends_removeTables removed
  rw [eng] at eng₂
  refine ⟨overlap, clock, nothing, new, ?_, ⟨nextSstId, blockCache, metrics, ?_⟩, v.sys, w₂.sys,
    removals, built, didRemove, ?_, saved⟩
  · rw [eng₂]
    exact tables.sublist List.filter_sublist
  · rw [eng₂]
    simp only [filter_not_mem_inputs inv level fun p isNew => (new p isNew).2.1]
  · rw [List.map_map] at sub
    exact sub

/-- What is left to do once the new table is open. -/
theorem Compaction.of_finish {v : World} {level : Nat} {time : Bytes → Nat} {added : Option Table}
    {nextSstId : Nat} {blockCache : Option BlockCache} (inv : Inv w)
    (overlap : ∃ dst, overlapping (w.eng.manifest.sstsAtLevel level)
      (w.eng.manifest.sstsAtLevel (level + 1)) = .ok dst)
    (clock : ∀ key, w.sys.Reads (time key))
    (nothing : added = none →
      (live time (merged w.eng.manifest w.eng.sstReaders level)).entries = [])
    (new : ∀ p, added = some p → p.Described ∧ p.1.id = w.eng.nextSstId ∧
      p.map = live time (merged w.eng.manifest w.eng.sstReaders level))
    (built : BuiltIfAny w.sys added v.sys)
    (tables : Tables (w.eng.sstReaders ++ added.toList) nextSstId blockCache)
    (eng : v.eng = { w.eng with
      manifest := withAdded w.eng.manifest (level + 1) added
      sstReaders := w.eng.sstReaders ++ added.toList
      nextSstId, blockCache })
    (run : Ends (finishCompaction ((w.eng.manifest.sstsAtLevel level).map SSTMeta.id ++
      (overlaps w.eng.manifest level).map SSTMeta.id)) v u w') :
    Compaction w level time added w' := by
  simp only [finishCompaction, ends_bind, ends_modifySelf] at run
  obtain ⟨u₁, w₂, removed, u₂, w₃, saved, rfl⟩ := run
  obtain ⟨didSave, rest⟩ := ends_saveManifest saved
  have compaction := Compaction.of_removed inv overlap clock nothing new built tables eng removed
    didSave { w₃.eng.metrics with compactions := bump w₃.eng.metrics.compactions }
  have same : w₃.eng = w₂.eng := by rw [rest]
  rw [same] at compaction ⊢
  exact compaction

/-- The entries that a compaction keeps have keys that fit. -/
theorem keys_live (inv : Inv w) (time : Bytes → Nat) (level : Nat) :
    ∀ b ∈ (live time (merged w.eng.manifest w.eng.sstReaders level)).entries,
      b.1.length < 2 ^ 16 := by
  intro b hb
  obtain ⟨p, hp, -, found⟩ :=
    exists_of_lookup_merged (SortedMap.mem_entries.mp (List.mem_filter.mp hb).1)
  exact (inv.tables.described p hp).keys _ (SortedMap.mem_entries.mpr found)

/-- **Merging touches only the cache and the clock.** What is left of `compactLevel` then
is to install the entries that show something and to remove the inputs. -/
theorem compactLevel_eq {level : Nat} {dst : List SSTMeta} (inv : Inv w)
    (overlap : overlapping (w.eng.manifest.sstsAtLevel level)
      (w.eng.manifest.sstsAtLevel (level + 1)) = .ok dst) :
    ∃ blockCache n, Tables w.eng.sstReaders w.eng.nextSstId blockCache ∧
      (∀ key, readsBefore (merged w.eng.manifest w.eng.sstReaders level).entries key ≤ n) ∧
      compactLevel level w = (
        let finish := finishCompaction ((w.eng.manifest.sstsAtLevel level).map SSTMeta.id ++
          (overlaps w.eng.manifest level).map SSTMeta.id)
        let kept := (live (examinedAt w level) (merged w.eng.manifest w.eng.sstReaders level)).entries
        if kept.isEmpty then finish
        else installMerged (level + 1) kept >>= fun _ => finish)
        ⟨{ w.eng with blockCache }, w.sys.later n⟩ := by
  obtain rfl : dst = overlaps w.eng.manifest level := by simp only [overlaps, overlap]
  obtain ⟨blockCache, tables, merging⟩ := mergeTables_run (w := w)
    (among (overlaps w.eng.manifest level) w.eng.sstReaders ++
      among (w.eng.manifest.sstsAtLevel level) w.eng.sstReaders)
    (fun p hp => by
      rcases List.mem_append.mp hp with next | source
      · exact (List.mem_filter.mp next).1
      · exact (List.mem_filter.mp source).1) inv.tables SortedMap.empty
  have isMerged : ∀ ts : List Table,
      ts.foldl (fun acc p => acc.insertAll p.map.entries) SortedMap.empty =
        SortedMap.mergeAll (ts.map Table.map) := fun ts => by rw [SortedMap.mergeAll, List.foldl_map]
  rw [← map_id_inputs inv level, isMerged, ← merged] at merging
  obtain ⟨n, enough, retaining⟩ :
      ∃ n, (∀ key, readsBefore (merged w.eng.manifest w.eng.sstReaders level).entries key ≤ n) ∧
        retainVisible (merged w.eng.manifest w.eng.sstReaders level).entries w.sys =
          .ok (live (examinedAt w level) (merged w.eng.manifest w.eng.sstReaders level)).entries
            (w.sys.later n) :=
    ⟨_, readsBefore_le _,
      retainVisible_run (merged w.eng.manifest w.eng.sstReaders level).ascending w.sys⟩
  refine ⟨blockCache, n, tables, enough, ?_⟩
  have retained : onSys (retainVisible (merged w.eng.manifest w.eng.sstReaders level).entries)
      ⟨{ w.eng with blockCache }, w.sys⟩ =
      .ok (live (examinedAt w level) (merged w.eng.manifest w.eng.sstReaders level)).entries
        ⟨{ w.eng with blockCache }, w.sys.later n⟩ := by
    simp only [onSys, zoom, retaining]
  rw [compactLevel, bind_apply_ok (rfl : self w = .ok w.eng w)]
  simp only
  rw [overlap, bind_apply_ok (rfl : liftResult _ w = _), bind_apply_ok merging,
    bind_apply_ok retained]

/-- **What `compactLevel` does.** -/
theorem ends_compactLevel_examined {level : Nat} (inv : Inv w) (limits : WithinLimits w'.sys)
    (run : Ends (compactLevel level) w u w') :
    ∃ added, Compaction w level (examinedAt w level) added w' ∧
      ∀ key, w.sys.ticks + readsBefore (merged w.eng.manifest w.eng.sstReaders level).entries key ≤
        w'.sys.ticks := by
  obtain ⟨dst, overlap⟩ : ∃ dst, overlapping (w.eng.manifest.sstsAtLevel level)
      (w.eng.manifest.sstsAtLevel (level + 1)) = .ok dst := by
    simp only [compactLevel, ends_bind, ends_self, ends_liftResult] at run
    obtain ⟨e, w₁, ⟨rfl, rfl⟩, dst, w₂, ⟨overlap, rfl⟩, -⟩ := run
    exact ⟨dst, overlap⟩
  obtain ⟨blockCache, n, tables, enough, same⟩ := compactLevel_eq inv overlap
  have clock := reads_examinedAt w level
  simp only [Ends, same] at run
  have waited := w.sys.did_later n
  have ticks : w.sys.ticks + n ≤ w'.sys.ticks → ∀ key, w.sys.ticks +
      readsBefore (merged w.eng.manifest w.eng.sstReaders level).entries key ≤ w'.sys.ticks := by
    intro all key
    have := enough key
    omega
  split at run
  · next empty =>
      have goesOn := (extending_finishCompaction _ _ _ _ run).sys
      exact ⟨none, .of_finish inv ⟨_, overlap⟩ clock (fun _ => by simpa using empty)
        (by simp) (v := ⟨{ w.eng with blockCache }, w.sys.later n⟩) waited
        (by simpa using tables) (by simp [withAdded]) run, ticks goesOn.ticks_le⟩
  · next nonempty =>
      obtain ⟨u₁, w₅, installed, rest⟩ := ends_bind.mp run
      have later : WithinLimits w₅.sys := limits.of_extends
        (extending_finishCompaction _ _ _ _ rest).sys
      obtain ⟨p, described, id, map, built, eng⟩ :=
        ends_installMerged (w := ⟨{ w.eng with blockCache }, w.sys.later n⟩)
          (waited.history inv.history) later (keys_live inv _ level) installed
      have goesOn := (extending_installMerged _ _ _ _ _ installed).sys.trans
        (extending_finishCompaction _ _ _ _ rest).sys
      refine ⟨some p, .of_finish inv ⟨_, overlap⟩ clock (by simp) ?_ (built.of_did waited)
        (tables.push described id) (by simpa [withAdded] using eng) rest, ticks goesOn.ticks_le⟩
      rintro _ ⟨⟩
      exact ⟨described, id, map⟩

theorem ends_compactLevel {level : Nat} (inv : Inv w) (limits : WithinLimits w'.sys)
    (run : Ends (compactLevel level) w u w') :
    ∃ time added, Compaction w level time added w' := by
  obtain ⟨added, compaction, -⟩ := ends_compactLevel_examined inv limits run
  exact ⟨_, added, compaction⟩

namespace Compaction

variable {level : Nat} {time : Bytes → Nat} {added : Option Table}

theorem did (compaction : Compaction w level time added w') : w.sys.Extends w'.sys := by
  obtain ⟨s₁, s₂, removals, built, removed, -, saved⟩ := compaction.sys
  have first : w.sys.Extends s₁ := by
    cases added with
    | none => exact ⟨_, built⟩
    | some p =>
        obtain ⟨ops, did, -⟩ := Built.writes built
        exact ⟨_, did⟩
  exact first.trans ⟨_, removed.trans saved⟩

theorem id_fresh (compaction : Compaction w level time added w') {p : Table} (isNew : added = some p) :
    p.1.id = w.eng.nextSstId := (compaction.new p isNew).2.1

theorem readers (compaction : Compaction w level time added w') :
    w'.eng.sstReaders =
      w.eng.sstReaders.filter (fun p => p.1 ∉ inputs w.eng.manifest level) ++ added.toList := by
  obtain ⟨nextSstId, blockCache, metrics, eng⟩ := compaction.eng
  rw [eng]

/-- Before the inputs are removed, the new table is listed beside them. -/
theorem listed_withAdded (compaction : Compaction w level time added w') (inv : Inv w) :
    Listed (withAdded w.eng.manifest (level + 1) added) (w.eng.sstReaders ++ added.toList) := by
  cases isNew : added with
  | none => simpa [withAdded] using inv.listed
  | some p =>
      refine inv.listed.push fun q hq => ?_
      rw [compaction.id_fresh isNew]
      exact (inv.tables.fresh q hq).ne

theorem listed (compaction : Compaction w level time added w') (inv : Inv w) :
    Listed w'.eng.manifest w'.eng.sstReaders := by
  have removed := (compaction.listed_withAdded inv).removeAll
    ((inputs w.eng.manifest level).map SSTMeta.id)
  rw [filter_not_mem_inputs inv level fun p isNew => compaction.id_fresh isNew] at removed
  obtain ⟨nextSstId, blockCache, metrics, eng⟩ := compaction.eng
  rw [eng]
  exact removed

/-- What each level lists afterwards. -/
theorem sstsAtLevel_eq (compaction : Compaction w level time added w') (inv : Inv w) (l : Nat) :
    w'.eng.manifest.sstsAtLevel l =
      (w.eng.manifest.sstsAtLevel l).filter (fun sst => sst ∉ inputs w.eng.manifest level) ++
        (if l = level + 1 then added.toList.map Prod.fst else []) := by
  have old : ∀ sst ∈ w.eng.manifest.sstsAtLevel l,
      (sst.id ∈ (inputs w.eng.manifest level).map SSTMeta.id ↔
        sst ∈ inputs w.eng.manifest level) := by
    intro sst member
    obtain ⟨q, hq, rfl⟩ := inv.listed.mem_tables member
    exact mem_inputs_iff inv level hq
  have kept : (w.eng.manifest.sstsAtLevel l).filter
      (fun sst => sst.id ∉ (inputs w.eng.manifest level).map SSTMeta.id) =
      (w.eng.manifest.sstsAtLevel l).filter (fun sst => sst ∉ inputs w.eng.manifest level) :=
    List.filter_congr fun sst member => by simp only [old sst member]
  have distinct := (compaction.listed_withAdded inv).distinct
  obtain ⟨nextSstId, blockCache, metrics, eng⟩ := compaction.eng
  rw [eng]
  simp only
  rw [Manifest.sstsAtLevel_removeAll distinct]
  cases isNew : added with
  | none => simpa [withAdded] using kept
  | some p =>
      simp only [withAdded, Manifest.sstsAtLevel_addSst]
      split
      · have stays : [p.1].filter
            (fun sst => sst.id ∉ (inputs w.eng.manifest level).map SSTMeta.id) = [p.1] := by
          refine List.filter_eq_self.mpr fun sst hs => ?_
          rw [List.mem_singleton.mp hs, compaction.id_fresh isNew]
          exact decide_eq_true (not_mem_inputs inv level)
        rw [List.filter_append, kept, stays]
        rfl
      · rw [kept, List.append_nil]

/-- A key of the new table is within the bounds of a table that was taken up. -/
theorem within_input (compaction : Compaction w level time added w') (inv : Inv w) {p : Table}
    (isNew : added = some p) {key value : Bytes} (found : p.map.lookup key = some value) :
    ∃ sst ∈ inputs w.eng.manifest level, sst.minKey ≤ key ∧ key ≤ sst.maxKey := by
  rw [(compaction.new p isNew).2.2, lookup_live] at found
  obtain ⟨q, hq, taken, answer⟩ :=
    exists_of_lookup_merged (Option.filter_eq_some_iff.mp found).1
  exact ⟨q.1, taken, (inv.tables.described q hq).bounds answer⟩

/-- The new table overlaps none that is left at its level. -/
theorem apart_new (compaction : Compaction w level time added w') (inv : Inv w) {p q : Table}
    (isNew : added = some p) (hq : q ∈ w.eng.sstReaders)
    (atNext : q.1 ∈ w.eng.manifest.sstsAtLevel (level + 1))
    (left : q.1 ∉ overlaps w.eng.manifest level) : Apart q.1 p.1 := by
  have described := (compaction.new p isNew).1
  rcases apart_of_not_overlapping compaction.overlap inv.apart inv.tables.described inv.listed hq
    atNext left with before | after
  · obtain ⟨value, found⟩ := described.lookup_minKey
    obtain ⟨sst, taken, lower, -⟩ := compaction.within_input inv isNew found
    exact Or.inl ((before sst taken).trans_le lower)
  · obtain ⟨value, found⟩ := described.lookup_maxKey
    obtain ⟨sst, taken, -, upper⟩ := compaction.within_input inv isNew found
    exact Or.inr (upper.trans_lt (after sst taken))

theorem apart (compaction : Compaction w level time added w') (inv : Inv w) :
    RangesApart w'.eng.manifest := by
  intro l positive
  rw [compaction.sstsAtLevel_eq inv]
  have kept := (inv.apart l positive).filter (fun sst => sst ∉ inputs w.eng.manifest level)
  split
  · next next =>
      subst next
      refine List.pairwise_append.mpr ⟨kept, ?_, fun sst hs t ht => ?_⟩
      · cases added with
        | none => exact List.Pairwise.nil
        | some p => exact List.pairwise_singleton _ _
      · obtain ⟨p, hp, rfl⟩ := List.mem_map.mp ht
        obtain ⟨atNext, left⟩ := List.mem_filter.mp hs
        obtain ⟨q, hq, rfl⟩ := inv.listed.mem_tables atNext
        refine compaction.apart_new inv (Option.mem_toList.mp hp) hq atNext fun taken => ?_
        exact (of_decide_eq_true left) (List.mem_append_right _ taken)
  · rwa [List.append_nil]

/-- **A compaction keeps the invariant.** -/
theorem inv (compaction : Compaction w level time added w') (inv : Inv w) : Inv w' := by
  obtain ⟨ops, did⟩ := compaction.did
  obtain ⟨nextSstId, blockCache, metrics, eng⟩ := compaction.eng
  refine ⟨compaction.tables, compaction.listed inv, compaction.apart inv, ?_, ?_,
    did.history inv.history⟩
  · rw [eng]
    exact inv.memtable
  · rw [eng]
    exact inv.memKeys

/-! ### What it does to the versions of a key -/

theorem memtable_eq (compaction : Compaction w level time added w') :
    w'.eng.memtable = w.eng.memtable := by
  obtain ⟨nextSstId, blockCache, metrics, eng⟩ := compaction.eng
  rw [eng]

/-- Afterwards the merged version comes first, if it shows something. -/
theorem versionsOf_after (compaction : Compaction w level time added w') (key : Bytes) :
    w'.eng.versionsOf key = w.eng.memtable.versionsOf key ++
      (((merged w.eng.manifest w.eng.sstReaders level).lookup key).filter
        (fun v => (shown (time key) v).isSome)).toList ++ w.eng.leftVersions level key := by
  have first : versionsIn key added.toList.reverse =
      ((live time (merged w.eng.manifest w.eng.sstReaders level)).lookup key).toList := by
    cases isNew : added with
    | none =>
        rw [SortedMap.lookup, compaction.nothing isNew]
        rfl
    | some p =>
        rw [← (compaction.new p isNew).2.2]
        exact (versions_cons _ _ _).trans (List.append_nil _)
  rw [Engine.versionsOf, compaction.memtable_eq, compaction.readers, List.reverse_append,
    versionsIn, versions_append]
  unfold versionsIn at first
  rw [first, lookup_live, List.append_assoc]
  rfl

/-- The tables taken up at the next level are all older than those of the level. -/
theorem among_inputs {m : Manifest} {tables : List Table} (listed : Listed m tables)
    (ordered : Ordered m tables) (level : Nat) :
    among (inputs m level) tables =
      among (overlaps m level) tables ++ among (m.sstsAtLevel level) tables := by
  have apart : ∀ sst ∈ overlaps m level, sst ∉ m.sstsAtLevel level := fun sst next source => by
    have := listed.level_unique (overlaps_subset m level next) source
    omega
  unfold among
  rw [← filter_or_of_pairwise]
  · refine List.filter_congr fun p _ => ?_
    simp only [inputs, List.mem_append, Bool.decide_or, Bool.or_comm]
  · intro p _ next
    simpa using apart p.1 (by simpa using next)
  · refine ordered.imp fun {p q} older source => ?_
    simp only [decide_eq_true_eq, decide_eq_false_iff_not] at source ⊢
    intro next
    have := older level (level + 1) source (overlaps_subset m level next)
    omega

/-- No table that is left hides a version in a table that is taken up. -/
theorem keepsBehind (compaction : Compaction w level time added w') (inv : Inv w)
    (ordered : Ordered w.eng.manifest w.eng.sstReaders) (topmost : Topmost w.eng.manifest level)
    (key : Bytes) :
    w.eng.sstReaders.reverse.Pairwise
      (KeepsBehind (fun p : Table => p.map.lookup key)
        (fun p => decide (p.1 ∈ inputs w.eng.manifest level))) := by
  rw [List.pairwise_reverse]
  refine ordered.imp_of_mem fun {p q} hp hq older left taken => ?_
  simp only [decide_eq_true_eq, decide_eq_false_iff_not] at left taken
  obtain ⟨j, atJ⟩ := Manifest.mem_entries.mp (inv.listed.listed q hq)
  -- the newer table `q` is left, so it can only be at the next level
  have below : j = level + 1 := by
    have notAbove : ¬ j < level := fun above => by
      rw [topmost j above] at atJ
      cases atJ
    have notSource : j ≠ level := fun source => left (List.mem_append_left _ (source ▸ atJ))
    rcases inputs_listed taken with source | next
    · have := older level j source atJ
      omega
    · have := older (level + 1) j next atJ
      omega
  subst below
  have notOverlapping : q.1 ∉ overlaps w.eng.manifest level :=
    fun member => left (List.mem_append_right _ member)
  cases answer : q.map.lookup key with
  | none => exact Or.inl answer
  | some v =>
      refine Or.inr (Option.eq_none_iff_forall_ne_some.mpr fun v' answer' => ?_)
      obtain ⟨lower, upper⟩ := (inv.tables.described q hq).bounds answer
      obtain ⟨lower', upper'⟩ := (inv.tables.described p hp).bounds answer'
      rcases apart_of_not_overlapping compaction.overlap inv.apart inv.tables.described inv.listed hq
        atJ notOverlapping with before | after
      · exact absurd (upper.trans_lt ((before _ taken).trans_le lower')) (lt_irrefl _)
      · exact absurd (upper'.trans_lt ((after _ taken).trans_le lower)) (lt_irrefl _)

/-- **Before a compaction** the versions in the tables it takes up come before those in
the tables it leaves, and the merged map answers with the first of them. -/
theorem versionsOf_before (compaction : Compaction w level time added w') (inv : Inv w)
    (ordered : Ordered w.eng.manifest w.eng.sstReaders) (topmost : Topmost w.eng.manifest level)
    (key : Bytes) :
    w.eng.versionsOf key = w.eng.memtable.versionsOf key ++
        w.eng.takenVersions level key ++ w.eng.leftVersions level key ∧
      (merged w.eng.manifest w.eng.sstReaders level).lookup key =
        (w.eng.takenVersions level key).head? := by
  constructor
  · rw [Engine.versionsOf, List.append_assoc, versionsIn,
      versions_partition (compaction.keepsBehind inv ordered topmost key), List.filter_reverse,
      List.filter_reverse]
    simp only [← decide_not]
    rfl
  · rw [lookup_merged, ← among_inputs inv.listed ordered]
    rfl

/-- **A compaction keeps the order of the tables.** -/
theorem ordered (compaction : Compaction w level time added w') (inv : Inv w)
    (ordered : Ordered w.eng.manifest w.eng.sstReaders) (topmost : Topmost w.eng.manifest level) :
    Ordered w'.eng.manifest w'.eng.sstReaders := by
  have old : ∀ q ∈ w.eng.sstReaders, ∀ i, q.1 ∈ w'.eng.manifest.sstsAtLevel i →
      q.1 ∈ w.eng.manifest.sstsAtLevel i ∧ q.1 ∉ inputs w.eng.manifest level := by
    intro q hq i atI
    rw [compaction.sstsAtLevel_eq inv] at atI
    rcases List.mem_append.mp atI with kept | new
    · obtain ⟨member, left⟩ := List.mem_filter.mp kept
      exact ⟨member, of_decide_eq_true left⟩
    · split at new
      · obtain ⟨p, hp, same⟩ := List.mem_map.mp new
        have fresh := compaction.id_fresh (Option.mem_toList.mp hp)
        rw [same] at fresh
        exact absurd fresh (inv.tables.fresh q hq).ne
      · cases new
  have kept : Ordered w'.eng.manifest
      (w.eng.sstReaders.filter (fun p => p.1 ∉ inputs w.eng.manifest level)) :=
    ordered.mono List.filter_sublist fun q hq i atI => (old q (List.mem_filter.mp hq).1 i atI).1
  rw [compaction.readers]
  cases isNew : added with
  | none => simpa using kept
  | some p =>
      refine kept.push fun q hq i j atI atJ => ?_
      obtain ⟨member, left⟩ := old q (List.mem_filter.mp hq).1 i atI
      have levelOfNew : j = level + 1 := by
        rw [compaction.sstsAtLevel_eq inv] at atJ
        rcases List.mem_append.mp atJ with before | new
        · obtain ⟨r, hr, same⟩ := inv.listed.mem_tables (List.mem_filter.mp before).1
          have fresh := compaction.id_fresh isNew
          rw [← same] at fresh
          exact absurd fresh (inv.tables.fresh r hr).ne
        · split at new
          · next here => exact here
          · cases new
      have notAbove : ¬ i < level := fun above => by
        rw [topmost i above] at member
        cases member
      have notSource : i ≠ level := fun source => left (List.mem_append_left _ (source ▸ member))
      omega

end Compaction

end Engine

end KvEngine
