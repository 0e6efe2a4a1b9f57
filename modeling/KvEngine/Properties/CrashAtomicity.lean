import KvEngine.Engine.Midway
import KvEngine.Properties.CompactionSchedule
import KvEngine.Properties.CrashSafety

/-!
# Crashes on the way through a flush or a compaction

A process may die between two file operations of a flush or of a compaction.  `Manifest::save`
truncates the manifest before it writes it, and a directory that is left in between is not opened
any more.  A compaction removes the files of the merged tables before it saves the manifest without
them, and opening passes over the files that are missing.
-/

namespace KvEngine

open Foundations Engine

/-- What puts a new table on the disk. -/
inductive Part
  /-- The frozen list is written as a table of level 0. -/
  | flush
  /-- The tables that compacting a level takes up are merged to one of the next level. -/
  | compaction (level : Nat)

variable {w₀ w₁ w w' : World} {env : Env} {t n : Nat} {rs bs : List Record} {part : Part}

/-- A flush, or one of the compactions behind it, leads from `w` to `w'`.  The call that it is a
part of, or closing, began in `w₀`. -/
inductive Operation (w₀ : World) : Part → World → World → Prop
  | flush {w w' : World} (begun : AtFlush w₀ w) (run : AtMaybeCompact w w') :
      Operation w₀ .flush w w'
  | compaction {w₁ w₂ w w' : World} {level : Nat} (begun : AtFlush w₀ w₁)
      (flushed : AtMaybeCompact w₁ w₂) (before : Ends (compactFrom level 0) w₂ () w)
      (within : level < w.eng.opts.maxLevels - 1)
      (full : ∃ threshold, levelThreshold w.eng.opts level = .ok threshold ∧
        ¬ (w.eng.manifest.sstsAtLevel level).length < threshold)
      (run : Ends (compactLevel level) w () w') : Operation w₀ (.compaction level) w w'

/-- The open tables of some levels, except those in `taken`, in the order of the manifest. -/
def listedLeft (e : Engine) (taken : List SSTMeta) (levels : List (List SSTMeta)) : List Table :=
  (listing ⟨levels⟩ e.sstReaders).filter fun p => p.1 ∉ taken

/-- The maps that are listed once the tables in `taken` are gone and a table with the map `new` is
listed behind those of its level. -/
def mapsWith (e : Engine) (level : Nat) (taken : List SSTMeta) (new : SortedMap Bytes Bytes) :
    List (SortedMap Bytes Bytes) :=
  (listedLeft e taken (e.manifest.levels.take (level + 1))).map Table.map ++
    new :: (listedLeft e taken (e.manifest.levels.drop (level + 1))).map Table.map

/-- What the directory holds. -/
def contentsBefore (w : World) : Contents :=
  ⟨recordsIn w ((w.sys.dir.lookup (.wal 1)).getD []), mapsListed w.eng⟩

/-- What the directory is to hold.  A flush leaves of the log what its writer had buffered. -/
def contentsAfter (t : Nat) (w : World) : Part → Contents
  | .flush => ⟨recordsIn w w.eng.wal.file.buf,
      mapsWith w.eng 0 [] (w.eng.memtable.immutable.elim .empty SkipList.contents)⟩
  | .compaction level => ⟨recordsIn w ((w.sys.dir.lookup (.wal 1)).getD []),
      mapsWith w.eng (level + 1) (inputs w.eng.manifest level)
        (live (fun _ => t) (merged w.eng.manifest w.eng.sstReaders level))⟩

/-- Every key is shown the same. -/
def ShownAlike (t : Nat) (c c' : Contents) : Prop := ∀ key, c.shows t key = c'.shows t key

/-- The manifest is not blank; and of every key the last record in the log, or else the table that
is listed last, shows what it showed before, or of every key what it is to show when all is
done. -/
structure Harmless (t : Nat) (w : World) (part : Part) (done : List FsOp) : Prop where
  whole : ¬ Blank done
  side : ShownAlike t (contentsLeft w (contentsAfter t w part).maps done) (contentsBefore w) ∨
    ShownAlike t (contentsLeft w (contentsAfter t w part).maps done) (contentsAfter t w part)

/-! ## What is listed -/

/-- The tables of the levels up to one and of those beyond it. -/
theorem listing_parts (e : Engine) (level : Nat) : listing e.manifest e.sstReaders =
    listing ⟨e.manifest.levels.take (level + 1)⟩ e.sstReaders ++
      listing ⟨e.manifest.levels.drop (level + 1)⟩ e.sstReaders := by
  rw [listing, e.manifest.entries_parts level, List.filterMap_append]
  rfl

/-- The state between two operations of the engine. -/
structure Orderly (w : World) (rs bs : List Record) : Prop where
  resting : Resting w
  kept : Kept w
  logged : Logged w rs bs

theorem orderly_thawed (inv : Inv w) (stored : Stored w) (ids : w.eng.nextSstId < u64Limit)
    (kept : Kept w) (logged : Logged w rs bs) : Orderly (thawed w) rs bs :=
  ⟨⟨⟨inv_thawed inv, onDisk_thawed stored.onDisk, rfl, ids⟩, stored.manifest⟩,
    ⟨kept.tables, kept.logs, kept.log⟩, logged.frame rfl rfl rfl⟩

theorem AtFlush.orderly (begun : AtFlush w₀ w) (orderly : Orderly w₀ rs bs)
    (limits : WithinLimits w.sys) : ∃ rs bs, Orderly (thawed w) rs bs := by
  obtain ⟨resting, kept, logged⟩ := orderly
  have inv := begun.inv resting limits
  cases begun with
  | stored keys run =>
      obtain ⟨accepted, -⟩ := ends_store_now run
      obtain ⟨rs', bs', logged', -⟩ := logged.store run
      refine ⟨rs', bs', orderly_thawed inv (accepted.stored resting.stored) ?_
        (kept.of_logs accepted.logs) logged'⟩
      obtain ⟨wal, memtable, metrics, eng⟩ := accepted.eng
      rw [eng]
      exact resting.ids
  | closing => exact ⟨rs, bs, orderly_thawed inv resting.stored resting.ids kept logged⟩
  | @frozen w run =>
      have limits : WithinLimits w.sys := limits
      rcases ends_maybeFlush_cases resting.inv limits run with
        ⟨-, rfl⟩ | ⟨imm, p, w₂, isFrozen, -⟩
      · have stored : Stored (KvEngine.frozen w) :=
          resting.stored.frame rfl rfl rfl (.refl _) (by simp)
        exact ⟨rs, bs, orderly_thawed inv stored resting.ids ⟨kept.tables, kept.logs, kept.log⟩
          (logged.frame rfl rfl rfl)⟩
      · rw [resting.free] at isFrozen
        cases isFrozen

/-- A flush. -/
theorem AtMaybeCompact.orderly {p : Table} (point : AtMaybeCompact w w')
    (flush : Flush (thawed w) p w') (orderly : Orderly (thawed w) rs bs)
    (faultless : w.sys.env.Faultless) : Orderly w' bs [] := by
  obtain ⟨imm, sstId, w₂, entries, -, took, -⟩ := point.flushed
  have room := (ends_takeSstId took).2.2
  have stored := flush.stored orderly.resting.inv orderly.resting.onDisk
  obtain ⟨metrics, eng⟩ := flush.eng
  refine ⟨⟨⟨flush.inv orderly.resting.inv, stored.onDisk, ?_, ?_⟩, stored.manifest⟩,
    flush.kept (flush.id ▸ room) orderly.kept, orderly.logged.flushed flush orderly.kept.log
      (Or.inr faultless)⟩
  · rw [eng]
    rfl
  · rw [eng]
    exact room

/-- The compactions before. -/
theorem Orderly.compactFrom {k level : Nat} (orderly : Orderly w rs bs)
    (limits : WithinLimits w'.sys) (run : Ends (compactFrom k level) w () w') : Orderly w' rs bs := by
  obtain ⟨resting, kept, logged⟩ := orderly
  have compactions := compactions_of_compactFrom resting.inv limits run
  have stored := compactions.stored resting.stored
  have free : w'.eng.memtable.immutable = none := by
    rw [compactions.kept.1]
    exact resting.free
  exact ⟨⟨⟨compactions.inv resting.inv, stored.onDisk, free,
    keepsIds_compactFrom _ _ _ _ _ run resting.ids⟩, stored.manifest⟩,
    kept_compactFrom resting.inv limits resting.ids kept run,
    logged.compactions compactions kept.log⟩

/-- A compaction. -/
theorem Orderly.compactLevel {level : Nat} (orderly : Orderly w rs bs)
    (limits : WithinLimits w'.sys) (run : Ends (compactLevel level) w () w') :
    (∃ time added, Compaction w level time added w') ∧ Orderly w' rs bs := by
  obtain ⟨resting, kept, logged⟩ := orderly
  obtain ⟨time, added, compaction⟩ := ends_compactLevel resting.inv limits run
  have stored := compaction.stored resting.inv resting.onDisk
  have ids := keepsIds_compactLevel _ _ _ _ run resting.ids
  have free : w'.eng.memtable.immutable = none := by
    rw [compaction.memtable_eq]
    exact resting.free
  exact ⟨⟨time, added, compaction⟩, ⟨⟨compaction.inv resting.inv, stored.onDisk, free, ids⟩,
    stored.manifest⟩, compaction.kept ids kept, logged.compaction compaction kept.log⟩

theorem Operation.extends (operation : Operation w₀ part w w') : w₀.sys.Extends w.sys ∧
    w.sys.Extends w'.sys := by
  cases operation with
  | flush begun run => exact ⟨begun.extends, run.extends⟩
  | compaction begun flushed before _ _ run =>
      have looped := (extending_compactFrom _ _ _ _ _ before).sys
      exact ⟨begun.extends.trans (flushed.extends.trans looped),
        (extending_compactLevel _ _ _ _ run).sys⟩

/-- **While the new table is written** a crash does no harm. -/
theorem harmless_of_building {done : List FsOp}
    (tables : Tables w.eng.sstReaders w.eng.nextSstId w.eng.blockCache)
    (building : ∀ op ∈ done, op.file = .sst w.eng.nextSstId) : Harmless t w part done := by
  have log : logLeft w done = (w.sys.dir.lookup (.wal 1)).getD [] :=
    logLeft_untouched fun op member => by simp [building op member]
  have kept : ∀ p ∈ listing w.eng.manifest w.eng.sstReaders, .remove (.sst p.1.id) ∉ done := by
    intro p listed member
    have same := building _ member
    rw [FsOp.file, FileName.sst.injEq] at same
    exact absurd same (tables.fresh p (mem_listing listed)).ne
  have early : ¬ Relisted done := by
    rintro ⟨op, member, isManifest, -⟩
    rw [building op member] at isManifest
    cases isManifest
  have maps : mapsLeft w.eng (contentsAfter t w part).maps done = mapsListed w.eng := by
    rw [mapsLeft, if_neg early]
    exact congrArg _ (List.filter_eq_self.mpr fun p listed => decide_eq_true (kept p listed))
  refine ⟨fun blank => ?_, Or.inl fun key => ?_⟩
  · cases building _ (List.mem_of_getLast? blank)
  · rw [contentsLeft, log, maps]
    rfl

/-- A table without the key makes no difference to it. -/
theorem versions_mapsWith (e : Engine) (level : Nat) {new : SortedMap Bytes Bytes} {key : Bytes}
    (absent : new.lookup key = none) :
    versions (fun map : SortedMap Bytes Bytes => map.lookup key) (mapsWith e level [] new).reverse =
      versions (fun map : SortedMap Bytes Bytes => map.lookup key) (mapsListed e).reverse := by
  have keepsAll : ∀ levels, listedLeft e [] levels = listing ⟨levels⟩ e.sstReaders := fun levels =>
    List.filter_eq_self.mpr fun p _ => decide_eq_true List.not_mem_nil
  rw [mapsWith, mapsListed, listing_parts e level, keepsAll, keepsAll]
  simp [versions_cons, absent]

/-- **A flush whose log has a record of every key**, with nothing in the buffer: only a blank
manifest does harm. -/
theorem harmless_flush_iff {imm : SkipList} {p : Table} {done : List FsOp}
    (orderly : Orderly (thawed w) rs []) (isFrozen : w.eng.memtable.immutable = some imm)
    (flush : Flush (thawed w) p w') (fits : FilesFit w'.sys)
    (covered : ∀ key, (imm.contents.lookup key).isSome → ∃ r ∈ rs, r.key = key)
    (begins : done <+: w.sys.changes w'.sys) : Harmless t w .flush done ↔ ¬ Blank done := by
  refine ⟨fun harmless => harmless.whole, fun whole => ?_⟩
  obtain ⟨build, rest, steps⟩ := flush.steps
  have did : w.sys.Did _ w'.sys := steps.did
  rw [did.changes] at begins
  have isAfter : (contentsAfter t w .flush).maps = mapsWith w.eng 0 [] imm.contents := by
    rw [contentsAfter, isFrozen]
    rfl
  have relisted : ∀ later, mapsLeft w.eng (contentsAfter t w .flush).maps
      (build ++ [] ++ (manifestOps w'.eng.manifest ++ later)) =
        (contentsAfter t w .flush).maps := fun later => by
    rw [mapsLeft, if_pos (Steps.relisted _ _)]
  rcases Steps.cases begins with early | rfl | ⟨later, rfl, inTail⟩
  · rw [List.append_nil] at early
    exact harmless_of_building orderly.resting.inv.tables fun op member =>
      steps.build op (early.subset member)
  · exact absurd (List.getLast?_concat ..) whole
  refine ⟨whole, ?_⟩
  cases later with
  | nil =>
      -- the log is as before, and what is in the new table is in the log
      refine Or.inl fun key => ?_
      have file : w.sys.dir.lookup (.wal 1) = some (encodeLog w.sys.env.crc rs) := by
        have file := orderly.logged.file
        rwa [orderly.kept.log] at file
      have short : ∀ r ∈ rs, r.Fits := fun r member =>
        orderly.logged.fits (fits.of_extends ⟨_, steps.did⟩) orderly.resting.inv.history r
          (List.mem_append_left [] member)
      have records : recordsIn w ((w.sys.dir.lookup (.wal 1)).getD []) = rs := by
        rw [file, Option.getD_some, recordsIn, WALReader.collect_encodeLog short]
        rfl
      have saved : logLeft w (build ++ [] ++ (manifestOps w'.eng.manifest ++ [])) =
          (w.sys.dir.lookup (.wal 1)).getD [] := steps.logLeft_saved
      rw [contentsLeft, relisted, isAfter, saved, contentsBefore, records, Contents.shows,
        Contents.shows, shownBehind, shownBehind]
      cases replayed : (SortedMap.empty.insertAll (rs.map Record.binding)).lookup key with
      | some v => rw [Option.some_or, Option.some_or]
      | none =>
          have absent : imm.contents.lookup key = none := by
            refine Option.eq_none_iff_forall_ne_some.mpr fun v found => ?_
            obtain ⟨r, member, rfl⟩ := covered key (by rw [found]; rfl)
            rw [SortedMap.lookup_insertAll, SortedMap.lookup_empty, Option.or_none] at replayed
            exact lookupList_eq_none.mp replayed r.binding
              (List.mem_reverse.mpr (List.mem_map_of_mem member)) rfl
          rw [versions_mapsWith w.eng 0 absent]
  | cons op later =>
      -- the log is empty, now and when all is done
      refine Or.inr fun key => ?_
      obtain ⟨rfl, -⟩ := List.cons_prefix_cons.mp inTail
      have empty : w.eng.wal.file.buf = [] := orderly.logged.buf
      have emptied : logLeft w (build ++ [] ++
          (manifestOps w'.eng.manifest ++ .truncate (.wal 1) :: later)) = w.eng.wal.file.buf := by
        rw [logLeft, if_pos (by simp), empty, ite_self]
        rfl
      rw [contentsLeft, relisted, emptied, contentsAfter]

/-- **When the files are removed too early**: no record of the log has the key and the tables that
have it are gone, but it shows something before and is to show something afterwards. -/
theorem not_harmless_of_removed {done : List FsOp} {key : Bytes} (early : ¬ Relisted done)
    (others : ∀ op ∈ done, op.file ≠ .wal 1)
    (unlogged : ∀ r ∈ (contentsBefore w).records, r.key ≠ key)
    (gone : ∀ p ∈ listing w.eng.manifest w.eng.sstReaders, (p.map.lookup key).isSome →
      .remove (.sst p.1.id) ∈ done)
    (before : (contentsBefore w).shows t key ≠ none)
    (after : (contentsAfter t w part).shows t key ≠ none) : ¬ Harmless t w part done := by
  have nothing : (contentsLeft w (contentsAfter t w part).maps done).shows t key = none := by
    refine Contents.shows_of_notMem (not_or.mpr ⟨?_, ?_⟩ ∘ List.mem_append.mp)
    · rw [contentsLeft, logLeft_untouched others]
      intro member
      obtain ⟨r, isRecord, same⟩ := List.mem_map.mp member
      exact unlogged r isRecord same
    · rw [contentsLeft, mapsLeft, if_neg early]
      intro member
      obtain ⟨map, isMap, inMap⟩ := List.mem_flatMap.mp member
      obtain ⟨p, left, rfl⟩ := List.mem_map.mp isMap
      obtain ⟨b, isBinding, rfl⟩ := List.mem_map.mp inMap
      obtain ⟨listed, notRemoved⟩ := List.mem_filter.mp left
      have found : p.map.lookup b.1 = some b.2 := SortedMap.mem_entries.mp isBinding
      exact of_decide_eq_true notRemoved (gone p listed (by rw [found]; rfl))
  intro harmless
  rcases harmless.side with alike | alike
  · exact before ((alike key).symm.trans nothing)
  · exact after ((alike key).symm.trans nothing)

/-! ## Runs that can be evaluated -/

instance (t : Nat) (c c' : Contents) : Decidable (ShownAlike t c c') :=
  decidable_of_iff (∀ key ∈ c.keys ++ c'.keys, c.shows t key = c'.shows t key) <| by
    refine ⟨fun alike key => ?_, fun alike key _ => alike key⟩
    by_cases member : key ∈ c.keys ++ c'.keys
    · exact alike key member
    · obtain ⟨absent, absent'⟩ := not_or.mp (mt List.mem_append.mpr member)
      rw [Contents.shows_of_notMem absent, Contents.shows_of_notMem absent']

instance (t : Nat) (w : World) (part : Part) (done : List FsOp) :
    Decidable (Harmless t w part done) :=
  decidable_of_iff
    (¬ Blank done ∧ (ShownAlike t (contentsLeft w (contentsAfter t w part).maps done)
        (contentsBefore w) ∨ ShownAlike t (contentsLeft w (contentsAfter t w part).maps done)
          (contentsAfter t w part)))
    ⟨fun ⟨whole, side⟩ => ⟨whole, side⟩, fun harmless => ⟨harmless.whole, harmless.side⟩⟩

end KvEngine
