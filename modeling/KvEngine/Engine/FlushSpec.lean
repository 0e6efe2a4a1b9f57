import KvEngine.Engine.Invariant

/-!
# What a flush does

A flush writes the entries of a frozen list to a new table at level 0.  `Built`
keeps track of the changes that creating the table's file makes; the other
changes of a flush are the rewrite of the manifest and the truncation of the log.
-/

namespace KvEngine

open Foundations Sstable

/-- Between `s` and `s'` only the file of the table was created, and it opens as
the table. -/
def Built (s : Sys) (p : Table) (s' : Sys) : Prop :=
  ∃ data ops, s.Did (.truncate (.sst p.1.id) :: ops) s' ∧
    (∀ op ∈ ops, ∃ d, op = .append (.sst p.1.id) d) ∧
    s'.dir.lookup (.sst p.1.id) = some data ∧ SSTableReader.parse data p.1.id = .ok p.2

theorem Built.of_did {s s₀ s' : Sys} {p : Table} (built : Built s₀ p s') (did : s.Did [] s₀) :
    Built s p s' := by
  obtain ⟨data, ops, built, rest⟩ := built
  exact ⟨data, ops, did.trans built, rest⟩

/-- Building a table writes to its file only. -/
theorem Built.writes {s s' : Sys} {p : Table} (built : Built s p s') :
    ∃ ops, s.Did ops s' ∧ ∀ op ∈ ops, op.file = .sst p.1.id := by
  obtain ⟨data, ops, did, appends, -⟩ := built
  refine ⟨_, did, fun op member => ?_⟩
  rcases List.mem_cons.mp member with rfl | isAppend
  · rfl
  · obtain ⟨d, rfl⟩ := appends op isAppend
    rfl

namespace Engine

variable {w w₁ w₂ w' : World} {u : Unit}

theorem metaOf_ok {sstId level : Nat} {entries : Entries} {sst : SSTMeta}
    (run : metaOf sstId level entries = .ok sst) :
    sst.id = sstId ∧ sst.level = level ∧ entries.head?.map Prod.fst = some sst.minKey ∧
      entries.getLast?.map Prod.fst = some sst.maxKey := by
  unfold metaOf at run
  cases first : entries.head? with
  | none => simp [first, orPanic] at run
  | some b =>
      cases last : entries.getLast? with
      | none => simp [first, last, orPanic] at run
      | some c =>
          simp only [first, last, orPanic_some, Result.ok_bind, Except.ok.injEq] at run
          subst run
          exact ⟨rfl, rfl, rfl, rfl⟩

/-- **A new table.** Writing the entries of a map and opening the file gives a table
that holds the map. -/
theorem ends_newTable {map : SortedMap Bytes Bytes} {sstId level : Nat} {sst : SSTMeta}
    {r : SSTableReader} (write : Ends (writeSst sstId map.entries) w u w₁)
    (described : metaOf sstId level map.entries = .ok sst)
    (opens : Ends (onSys (SSTableReader.openWithCache (.sst sstId) sstId)) w₁ r w₂)
    (history : w.sys.dir = applyOps w.sys.journal ∅) (limits : WithinLimits w₂.sys)
    (keys : ∀ b ∈ map.entries, b.1.length < 2 ^ 16) :
    Table.Described (sst, r) ∧ Table.map (sst, r) = map ∧ sst.id = sstId ∧ sst.level = level ∧
      Built w.sys (sst, r) w₂.sys ∧ w₂ = { w with sys := w₂.sys } := by
  simp only [writeSst, ends_bind, ends_self, ends_onSys] at write
  obtain ⟨e, w₀, ⟨rfl, rfl⟩, s₁, built, rfl⟩ := write
  simp only [ends_onSys, SSTableReader.openWithCache, ends_bind, ends_liftResult] at opens
  obtain ⟨s₂, ⟨data, s₃, read, parsed, rfl⟩, rfl⟩ := opens
  obtain ⟨data', ⟨⟨ops, did, appends⟩, present⟩, image_⟩ := SSTableBuilder.ends_build built
  obtain ⟨found, readDid⟩ := ends_readFile read
  obtain rfl : data' = data := by
    rw [present] at found
    exact Option.some.inj found
  have total := did.trans readDid
  have small : data'.length < 2 ^ 32 := by
    refine limits _ (List.prefix_refl _) sstId data' ?_
    rw [← total.history history, readDid.lookup_of_ne (by simp)]
    exact present
  obtain ⟨blocks, bloom, entries, nonempty, filter, rfl⟩ := image_ small
  obtain ⟨r', parsed', named, holds⟩ :=
    SSTableReader.parse_built sstId small keys entries nonempty filter
  rw [parsed] at parsed'
  cases parsed'
  obtain ⟨rfl, levelIs, first, last⟩ := metaOf_ok described
  have contents : r.contents = map := holds.contents_eq
  have mapIs : Table.map (sst, r) = map := contents
  have isBuilt : Built w₀.sys (sst, r) s₂ := by
    refine ⟨image blocks bloom, ops, by simpa using total, appends, ?_, parsed⟩
    rw [readDid.lookup_of_ne (by simp)]
    exact present
  refine ⟨⟨?_, named, ?_, ?_, ?_⟩, mapIs, rfl, levelIs, isBuilt, rfl⟩
  · rw [mapIs]
    exact holds
  · rw [mapIs]
    exact first
  · rw [mapIs]
    exact last
  · rw [mapIs]
    exact keys

/-- Rewriting the manifest truncates its file and writes the new one. -/
def manifestOps (m : Manifest) : List FsOp := [.truncate .manifest, .append .manifest m.encode]

theorem ends_saveManifest (run : Ends saveManifest w u w') :
    w.sys.Did (manifestOps w.eng.manifest) w'.sys ∧ w' = { w with sys := w'.sys } := by
  simp only [saveManifest, Manifest.save, ends_bind, ends_self, ends_onSys] at run
  obtain ⟨e, w₁, ⟨rfl, rfl⟩, s, ⟨u₁, s₁, truncated, u₂, s₂, written, synced⟩, rfl⟩ := run
  have did := ((ends_createTruncate truncated).trans (ends_writeFile written)).trans
    (ends_syncFile synced)
  exact ⟨by simpa [manifestOps] using did, rfl⟩

/-- A fresh writer on the log. -/
def freshWal : WALWriter := ⟨⟨.wal 1, []⟩⟩

theorem ends_resetWal (run : Ends resetWal w u w') :
    w'.eng = { w.eng with wal := freshWal } ∧
      ∃ rest, w.sys.Did (.truncate (.wal 1) :: rest) w'.sys ∧
        BufWriter.Leftover w.eng.wal.file w.sys rest := by
  simp only [resetWal, WALWriter.openWal, ends_bind, ends_onSys, ends_pure, ends_modify] at run
  obtain ⟨u₁, w₁, ⟨s₁, truncated, rfl⟩, wal, w₂, ⟨s₂, ⟨u₂, s₃, opened, rfl, rfl⟩, rfl⟩, rfl⟩ := run
  have did := ends_createTruncate truncated
  have openedDid : s₁.Did [] s₃ := by
    rcases ends_openAppend opened with ⟨-, didOpen⟩ | ⟨missing, -⟩
    · exact didOpen
    · rw [did.dir, applyOps_cons, applyOps_nil, FsOp.lookup_truncate] at missing
      cases missing
  obtain ⟨rest, dropped, leftover⟩ := BufWriter.drop_did w.eng.wal.file s₃
  have total := (did.trans openedDid).trans dropped
  rw [List.append_nil, List.singleton_append] at total
  refine ⟨rfl, rest, total, ?_⟩
  unfold BufWriter.Leftover at leftover ⊢
  rw [openedDid.env, did.env] at leftover
  exact leftover

theorem ends_takeSstId {id : Nat} (run : Ends takeSstId w id w') :
    id = w.eng.nextSstId ∧ w' = { w with eng := { w.eng with nextSstId := w.eng.nextSstId + 1 } } ∧
      w.eng.nextSstId + 1 < u64Limit := by
  simp only [takeSstId, ends_bind, ends_self, ends_liftResult, checkedAdd_eq_ok, ends_modifySelf,
    ends_pure] at run
  obtain ⟨e, w₁, ⟨rfl, rfl⟩, next, w₂, ⟨⟨small, rfl⟩, rfl⟩, u₁, w₃, rfl, rfl, rfl⟩ := run
  exact ⟨rfl, rfl, small⟩

/-! ## A flush -/

/-- What a flush of a non-empty list does: `p` is the table it adds. -/
structure Flush (w : World) (p : Table) (w' : World) : Prop where
  described : p.Described
  id : p.1.id = w.eng.nextSstId
  level : p.1.level = 0
  eng : ∃ metrics, w'.eng =
    { w.eng with
      nextSstId := w.eng.nextSstId + 1
      manifest := w.eng.manifest.addSst 0 p.1
      sstReaders := w.eng.sstReaders ++ [p]
      wal := freshWal
      metrics }
  sys : ∃ s₁ s₂ rest, Built w.sys p s₁ ∧
    s₁.Did (manifestOps (w.eng.manifest.addSst 0 p.1)) s₂ ∧
    s₂.Did (.truncate (.wal 1) :: rest) w'.sys ∧ BufWriter.Leftover w.eng.wal.file w.sys rest

/-- **A flush** of the entries of a map. -/
theorem ends_flushEntries {map : SortedMap Bytes Bytes} {sstId : Nat}
    (keys : ∀ b ∈ map.entries, b.1.length < 2 ^ 16)
    (history : w.sys.dir = applyOps w.sys.journal ∅) (limits : WithinLimits w'.sys)
    (took : Ends takeSstId w sstId w₁) (run : Ends (flushEntries sstId map.entries) w₁ u w') :
    ∃ p, Flush w p w' ∧ p.map = map := by
  obtain ⟨rfl, rfl, -⟩ := ends_takeSstId took
  simp only [flushEntries, ends_bind, ends_liftResult, ends_modifySelf] at run
  obtain ⟨u₂, w₄, wrote, sst, w₅, ⟨meta_, rfl⟩, r, w₆, opened, u₃, w₇, rfl, u₄, w₈, saved,
    u₅, w₉, reset, rfl⟩ := run
  have later : WithinLimits w₆.sys := by
    refine limits.of_extends ?_
    exact (extending_saveManifest _ _ _ saved).sys.trans (extending_resetWal _ _ _ reset).sys
  obtain ⟨described, mapIs, idIs, levelIs, built, rest⟩ :=
    ends_newTable wrote meta_ opened history later keys
  obtain ⟨didSave, afterSave⟩ := ends_saveManifest saved
  obtain ⟨afterReset, leftoverOps, didReset, leftover⟩ := ends_resetWal reset
  refine ⟨(sst, r), ⟨described, idIs, levelIs,
    ⟨{ w₉.eng.metrics with flushes := bump w₉.eng.metrics.flushes }, ?_⟩, w₆.sys, w₈.sys,
    leftoverOps, built, ?_, didReset, ?_⟩, mapIs⟩
  · simp only [afterReset]
    rw [afterSave, rest]
  · rw [rest] at didSave
    exact didSave
  · unfold BufWriter.Leftover at leftover ⊢
    rw [didSave.env, afterSave, rest] at leftover
    obtain ⟨ops, did, -⟩ := built.writes
    rw [← did.env]
    rw [rest] at leftover
    exact leftover

/-- **Flushing** a list that is not empty writes its entries to a new table and goes on
to compaction. -/
theorem ends_flushImmutable {imm : SkipList} (valid : imm.Valid)
    (nonempty : imm.contents.entries ≠ []) (run : Ends (flushImmutable imm) w u w') :
    ∃ id w₁ w₂, Ends takeSstId w id w₁ ∧
      Ends (flushEntries id imm.contents.entries) w₁ () w₂ ∧ Ends maybeCompact w₂ u w' := by
  simp only [flushImmutable, ends_bind, ends_liftResult, valid.iter_eq] at run
  obtain ⟨id, w₁, took, entries, w₂, ⟨same, rfl⟩, run⟩ := run
  cases same
  rw [if_neg (by simpa using nonempty)] at run
  obtain ⟨u₁, w₃, flushed, compacts⟩ := ends_bind.mp run
  exact ⟨id, w₂, w₃, took, flushed, compacts⟩

namespace Flush

variable {p : Table}

theorem did (flush : Flush w p w') : w.sys.Extends w'.sys := by
  obtain ⟨s₁, s₂, rest, built, saved, reset, -⟩ := flush.sys
  obtain ⟨ops, did, -⟩ := built.writes
  exact ⟨_, (did.trans saved).trans reset⟩

/-- A flush brings a table to level 0. -/
theorem top_ne_nil (flush : Flush w p w') : w'.eng.manifest.sstsAtLevel 0 ≠ [] := by
  obtain ⟨metrics, eng⟩ := flush.eng
  rw [eng, Manifest.sstsAtLevel_addSst, if_pos rfl]
  exact List.append_ne_nil_of_right_ne_nil _ (List.cons_ne_nil _ _)

/-- A flush keeps the invariant. -/
theorem inv (flush : Flush w p w') (inv : Inv w) : Inv w' := by
  obtain ⟨metrics, eng⟩ := flush.eng
  obtain ⟨ops, did⟩ := flush.did
  have fresh : ∀ q ∈ w.eng.sstReaders, q.1.id ≠ p.1.id := fun q hq => by
    rw [flush.id]
    exact (inv.tables.fresh q hq).ne
  constructor
  · rw [eng]
    exact inv.tables.push flush.described flush.id
  · rw [eng]
    exact inv.listed.push fresh
  · rw [eng]
    intro level positive
    rw [Manifest.sstsAtLevel_addSst, if_neg (by omega)]
    exact inv.apart level positive
  · rw [eng]
    exact inv.memtable
  · rw [eng]
    exact inv.memKeys
  · exact did.history inv.history

/-- The new table becomes the newest one. -/
theorem versionsIn_eq (flush : Flush w p w') (key : Bytes) :
    versionsIn key w'.eng.sstReaders.reverse =
      (p.map.lookup key).toList ++ versionsIn key w.eng.sstReaders.reverse := by
  obtain ⟨metrics, eng⟩ := flush.eng
  rw [eng]
  exact versionsIn_push key _ p

/-- Level 0 is the highest one, so a flush keeps the order of the tables. -/
theorem ordered (flush : Flush w p w') (inv : Inv w)
    (ordered : Ordered w.eng.manifest w.eng.sstReaders) :
    Ordered w'.eng.manifest w'.eng.sstReaders := by
  obtain ⟨metrics, eng⟩ := flush.eng
  have fresh : ∀ q ∈ w.eng.sstReaders, q.1 ≠ p.1 := fun q hq same =>
    absurd (same ▸ flush.id) (inv.tables.fresh q hq).ne
  rw [eng]
  refine Ordered.push (ordered.mono (List.Sublist.refl _) fun q hq i atI => ?_) fun q hq i j _ atJ => ?_
  · rw [Manifest.sstsAtLevel_addSst] at atI
    split at atI
    · rcases List.mem_append.mp atI with old | new
      · exact old
      · exact absurd (List.mem_singleton.mp new) (fresh q hq)
    · exact atI
  · rw [Manifest.sstsAtLevel_addSst] at atJ
    split at atJ
    · next zero => omega
    · obtain ⟨r, hr, same⟩ := inv.listed.mem_tables atJ
      exact absurd same (fresh r hr)

end Flush

end Engine

end KvEngine
