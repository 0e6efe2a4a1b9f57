import KvEngine.Engine.Progress
import KvEngine.Engine.Tables
import KvEngine.Memtable.MemTableSpec

/-!
# The engine's invariants

* `Listed` ties the manifest to the open tables: each level lists tables in the
  order in which they are open.
* `RangesApart` says that from level 1 on the tables of a level do not overlap.
* `Inv` holds between any two steps of a method, `Idle` between two calls.
* `Ordered` is what makes the position of a table its age: deeper levels come
  first.  It holds in a session that began on an empty directory.
-/

namespace KvEngine

open Foundations

/-- Two key ranges that do not meet. -/
def Apart (a b : SSTMeta) : Prop := a.maxKey < b.minKey ∨ b.maxKey < a.minKey

instance symmApart : Std.Symm Apart := ⟨fun _ _ => Or.symm⟩

/-- The manifest lists the open tables, level by level. -/
structure Listed (m : Manifest) (tables : List Table) : Prop where
  distinct : m.Distinct
  inOrder : ∀ level, (m.sstsAtLevel level).Sublist (tables.map Prod.fst)
  listed : ∀ p ∈ tables, p.1 ∈ m.entries

/-- From level 1 on the tables of a level do not overlap. -/
def RangesApart (m : Manifest) : Prop :=
  ∀ level, 1 ≤ level → (m.sstsAtLevel level).Pairwise Apart

/-- The open tables among `metas`, in the order in which they are open. -/
def among (metas : List SSTMeta) (tables : List Table) : List Table :=
  tables.filter (fun p => p.1 ∈ metas)

/-- An older table is not above a newer one. -/
def Ordered (m : Manifest) (tables : List Table) : Prop :=
  tables.Pairwise (fun p q => ∀ i j, p.1 ∈ m.sstsAtLevel i → q.1 ∈ m.sstsAtLevel j → j ≤ i)

/-- A level that need not be compacted: it is empty or below its threshold. -/
def Settled (opts : Options) (m : Manifest) (level : Nat) : Prop :=
  m.sstsAtLevel level = [] ∨
    ∀ threshold, Engine.levelThreshold opts level = .ok threshold →
      (m.sstsAtLevel level).length < threshold

/-- The invariant of the engine within a call. -/
structure Inv (w : World) : Prop where
  tables : Tables w.eng.sstReaders w.eng.nextSstId w.eng.blockCache
  listed : Listed w.eng.manifest w.eng.sstReaders
  apart : RangesApart w.eng.manifest
  memtable : w.eng.memtable.Valid
  memKeys : ∀ map ∈ w.eng.memtable.layers, ∀ b ∈ map.entries, b.1.length < 2 ^ 16
  history : w.sys.dir = applyOps w.sys.journal ∅

/-- Every SSTable file that is ever written stays below the range of its offsets. -/
def WithinLimits (s : Sys) : Prop :=
  ∀ ops, ops <+: s.journal → ∀ id data,
    (applyOps ops ∅).lookup (.sst id) = some data → data.length < 2 ^ 32

/-- How many bytes a change adds. -/
def FsOp.added : FsOp → Nat
  | .append _ data => data.length
  | _ => 0

theorem length_lookup_applyOps (ops : List FsOp) (d : Dir) {f : FileName} {data : Bytes}
    (present : (applyOps ops d).lookup f = some data) :
    data.length ≤ ((d.lookup f).map List.length).getD 0 + (ops.map FsOp.added).sum := by
  induction ops generalizing d with
  | nil =>
      rw [applyOps_nil] at present
      simp [present]
  | cons op ops inductionHypothesis =>
      have later := inductionHypothesis (op.apply d) present
      have step : (((op.apply d).lookup f).map List.length).getD 0 ≤
          ((d.lookup f).map List.length).getD 0 + op.added := by
        by_cases same : op.file = f
        · subst same
          cases op with
          | truncate g =>
              rw [FsOp.file, FsOp.lookup_truncate]
              exact Nat.zero_le _
          | append g data =>
              simp only [FsOp.file, FsOp.apply, FsOp.added]
              cases found : d.lookup g with
              | none => simp [found]
              | some old =>
                  simp only [AList.lookup_insert]
                  simp
          | remove g =>
              rw [FsOp.file, FsOp.lookup_remove]
              exact Nat.zero_le _
        · rw [FsOp.lookup_apply_of_ne same]
          exact Nat.le_add_right _ _
      rw [List.map_cons, List.sum_cons]
      omega

/-- A run that writes few bytes stays within the limits. -/
theorem withinLimits_of_added {s : Sys} (few : (s.journal.map FsOp.added).sum < 2 ^ 32) :
    WithinLimits s := by
  intro ops isPrefix id data present
  have bound := length_lookup_applyOps ops ∅ present
  have part := (isPrefix.sublist.map FsOp.added).sum_le_sum fun _ _ => Nat.zero_le _
  simp only [AList.lookup_empty, Option.map_none, Option.getD_none] at bound
  omega

theorem WithinLimits.of_extends {s s' : Sys} (limits : WithinLimits s') (goesOn : s.Extends s') :
    WithinLimits s := by
  obtain ⟨ops, did⟩ := goesOn
  intro prior isPrefix
  refine limits prior (isPrefix.trans ?_)
  rw [did.journal]
  exact List.prefix_append _ _

theorem Sys.Did.history {s s' : Sys} {ops : List FsOp} (did : s.Did ops s')
    (history : s.dir = applyOps s.journal ∅) : s'.dir = applyOps s'.journal ∅ := by
  rw [did.dir, did.journal, applyOps_append, ← history]

/-- What the engine holds of a key, newest first. -/
def Engine.versionsOf (e : Engine) (key : Bytes) : List Bytes :=
  e.memtable.versionsOf key ++ versionsIn key e.sstReaders.reverse

theorem nodup_metas {tables : List Table} (distinct : (tables.map (fun p => p.1.id)).Nodup) :
    (tables.map Prod.fst).Nodup := by
  rw [show (fun p : Table => p.1.id) = SSTMeta.id ∘ Prod.fst from rfl, ← List.map_map] at distinct
  exact List.Nodup.of_map _ distinct

/-- Filtering by membership in a sublist yields the sublist. -/
theorem filter_mem_of_sublist {α : Type} [DecidableEq α] {l l' : List α} (nodup : l'.Nodup)
    (sub : l.Sublist l') : l'.filter (fun a => a ∈ l) = l := by
  induction sub with
  | slnil => rfl
  | cons a sub inductionHypothesis =>
      obtain ⟨absent, nodupRest⟩ := List.nodup_cons.mp nodup
      rw [List.filter_cons_of_neg (by simpa using fun member => absent (sub.subset member)),
        inductionHypothesis nodupRest]
  | @cons_cons l l' a sub inductionHypothesis =>
      obtain ⟨absent, nodupRest⟩ := List.nodup_cons.mp nodup
      have others : l'.filter (fun b => b ∈ a :: l) = l'.filter (fun b => b ∈ l) := by
        refine List.filter_congr fun b hb => ?_
        have different : b ≠ a := by
          rintro rfl
          exact absent hb
        simp [different]
      rw [List.filter_cons_of_pos (by simp), others, inductionHypothesis nodupRest]

/-- The open tables among listed metadata carry just that metadata. -/
theorem map_among {metas : List SSTMeta} {tables : List Table}
    (distinct : (tables.map (fun p => p.1.id)).Nodup) (sub : metas.Sublist (tables.map Prod.fst)) :
    (among metas tables).map Prod.fst = metas := by
  have commute : (among metas tables).map Prod.fst =
      (tables.map Prod.fst).filter (fun sst => sst ∈ metas) := by
    rw [List.filter_map]
    rfl
  rw [commute]
  exact filter_mem_of_sublist (nodup_metas distinct) sub

namespace Listed

variable {m : Manifest} {tables : List Table}

/-- A table is listed at one level only. -/
theorem level_unique (listed : Listed m tables) {sst : SSTMeta} {i j : Nat}
    (atI : sst ∈ m.sstsAtLevel i) (atJ : sst ∈ m.sstsAtLevel j) : i = j := by
  have apart := listed.distinct
  unfold Manifest.Distinct Manifest.entries at apart
  rw [List.map_flatten] at apart
  obtain ⟨-, across⟩ := List.pairwise_flatten.mp apart
  unfold Manifest.sstsAtLevel at atI atJ
  by_contra different
  wlog less : i < j generalizing i j
  · exact this atJ atI (Ne.symm different) (by omega)
  cases foundI : m.levels[i]? with
  | none => simp [foundI] at atI
  | some li =>
      cases foundJ : m.levels[j]? with
      | none => simp [foundJ] at atJ
      | some lj =>
          rw [foundI, Option.getD_some] at atI
          rw [foundJ, Option.getD_some] at atJ
          obtain ⟨hi, rfl⟩ := List.getElem?_eq_some_iff.mp foundI
          obtain ⟨hj, rfl⟩ := List.getElem?_eq_some_iff.mp foundJ
          have pair := List.pairwise_iff_getElem.mp across i j (by simpa using hi) (by simpa using hj)
            less sst.id (by simpa using ⟨sst, atI, rfl⟩) sst.id (by simpa using ⟨sst, atJ, rfl⟩)
          exact pair rfl

/-- Every listed entry is the metadata of an open table. -/
theorem mem_tables (listed : Listed m tables) {sst : SSTMeta} {level : Nat}
    (member : sst ∈ m.sstsAtLevel level) : ∃ p ∈ tables, p.1 = sst :=
  List.mem_map.mp ((listed.inOrder level).subset member)

/-- A new table is listed at the end of its level. -/
theorem push (listed : Listed m tables) {p : Table} {level : Nat}
    (fresh : ∀ q ∈ tables, q.1.id ≠ p.1.id) :
    Listed (m.addSst level p.1) (tables ++ [p]) where
  distinct := by
    refine listed.distinct.addSst level fun sst hs => ?_
    obtain ⟨l, member⟩ := Manifest.mem_entries.mp hs
    obtain ⟨q, hq, rfl⟩ := listed.mem_tables member
    exact fresh q hq
  inOrder l := by
    rw [Manifest.sstsAtLevel_addSst, List.map_append, List.map_singleton]
    split
    · exact (listed.inOrder l).append (List.Sublist.refl _)
    · exact (listed.inOrder l).trans (List.sublist_append_left _ _)
  listed q hq := by
    rw [(Manifest.perm_entries_addSst m level p.1).mem_iff, List.mem_cons]
    rcases List.mem_append.mp hq with old | new
    · exact Or.inr (listed.listed q old)
    · exact Or.inl (List.mem_singleton.mp new ▸ rfl)

/-- Removing an id removes its table from its level. -/
theorem remove (listed : Listed m tables) (id : Nat) :
    Listed (m.removeSst id).1 (tables.filter (fun p => p.1.id ≠ id)) where
  distinct := listed.distinct.removeSst id
  inOrder l := by
    rw [Manifest.sstsAtLevel_removeSst listed.distinct]
    have commute : (tables.filter (fun p => p.1.id ≠ id)).map Prod.fst =
        (tables.map Prod.fst).filter (fun sst => sst.id ≠ id) := by
      rw [List.filter_map]
      rfl
    rw [commute]
    exact (listed.inOrder l).filter _
  listed q hq := by
    obtain ⟨member, kept⟩ := List.mem_filter.mp hq
    rw [Manifest.entries_removeSst listed.distinct, List.mem_filter]
    exact ⟨listed.listed q member, kept⟩

theorem removeAll (listed : Listed m tables) (ids : List Nat) :
    Listed (m.removeAll ids) (tables.filter (fun p => p.1.id ∉ ids)) := by
  induction ids generalizing m tables with
  | nil => simpa [Manifest.removeAll] using listed
  | cons id ids inductionHypothesis =>
      have later := inductionHypothesis (listed.remove id)
      rw [List.filter_filter] at later
      have same : (tables.filter fun p => decide (p.1.id ∉ ids) && decide (p.1.id ≠ id)) =
          tables.filter fun p => p.1.id ∉ id :: ids :=
        List.filter_congr fun p _ => by simp [Bool.and_comm]
      exact same ▸ later

end Listed

namespace Ordered

variable {m m' : Manifest} {tables tables' : List Table}

/-- Tables may be dropped, and none may move to another level. -/
theorem mono (ordered : Ordered m tables) (sub : tables'.Sublist tables)
    (levels : ∀ p ∈ tables', ∀ i, p.1 ∈ m'.sstsAtLevel i → p.1 ∈ m.sstsAtLevel i) :
    Ordered m' tables' :=
  (ordered.sublist sub).imp_of_mem fun hp hq older i j atI atJ =>
    older i j (levels _ hp i atI) (levels _ hq j atJ)

/-- A new table may be opened at a level that no other table is above. -/
theorem push (ordered : Ordered m tables) {p : Table}
    (highest : ∀ q ∈ tables, ∀ i j, q.1 ∈ m.sstsAtLevel i → p.1 ∈ m.sstsAtLevel j → j ≤ i) :
    Ordered m (tables ++ [p]) := by
  refine List.pairwise_append.mpr ⟨ordered, List.pairwise_singleton _ _, fun q hq r hr => ?_⟩
  rw [List.mem_singleton.mp hr]
  exact highest q hq

end Ordered

theorem versionsIn_push (key : Bytes) (tables : List Table) (p : Table) :
    versionsIn key (tables ++ [p]).reverse =
      (p.map.lookup key).toList ++ versionsIn key tables.reverse := by
  rw [List.reverse_append, List.reverse_singleton, List.singleton_append]
  exact versions_cons _ _ _

end KvEngine
