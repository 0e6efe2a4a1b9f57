import KvEngine.Engine.Logged
import KvEngine.Engine.Recovery
import KvEngine.Properties.FlushVisibility

/-!
# Closing and opening again

The open tables are asked in the order in which they were pushed, newest first.
Opening pushes them level by level, so a table of a deeper level then comes before
those of level 0, whichever is older.  And what the buffer of the log held when a
flush truncated the log comes before every table.
-/

namespace KvEngine

open Foundations Engine

variable {w w' : World} {u : Unit} {t : Nat}

/-- The open tables from level 1 on, in the order of the manifest. -/
def deeper (e : Engine) : List Table := listing ⟨e.manifest.levels.tail⟩ e.sstReaders

/-- The bytes of the log that closing leaves.  Flushing the active list truncates the file,
but not what its writer has buffered. -/
def leftLog (w : World) : Bytes :=
  (if (frozen w).eng.memtable.immutable.isSome then []
    else (w.sys.dir.lookup w.eng.wal.file.path).getD []) ++ w.eng.wal.file.buf

/-- The records of the log that closing leaves. -/
def leftRecords (w : World) : List Record :=
  (WALReader.collect (WALReader.items w.sys.env.crc (leftLog w))).toOption.getD []

/-- What is found first when these records are replayed: the last one of the key or else
the entry in the table that is listed last from level 1 on. -/
def putFirst (e : Engine) (rs : List Record) (key : Bytes) : Option Bytes :=
  ((SortedMap.empty.insertAll (rs.map Record.binding)).lookup key).or
    (versionsIn key (deeper e).reverse).head?

/-- Whatever opening puts first shows what the newest version shows. -/
def KeepsNewest (e : Engine) (rs : List Record) (t : Nat) : Prop :=
  ∀ key v, putFirst e rs key = some v → shown t v = (e.versionsOf key).head?.bind (shown t)

/-- The keys that are put first. -/
def keysPutFirst (e : Engine) (rs : List Record) : List Bytes :=
  rs.map Record.key ++ (deeper e).flatMap fun p => p.map.entries.map Prod.fst

theorem mem_keysPutFirst {e : Engine} {rs : List Record} {key v : Bytes}
    (first : putFirst e rs key = some v) : key ∈ keysPutFirst e rs := by
  unfold putFirst at first
  rcases Option.or_eq_some_iff.mp first with replayed | ⟨-, held⟩
  · rcases SortedMap.mem_insertAll (SortedMap.mem_entries.mpr replayed) with none | member
    · cases none
    · obtain ⟨r, isRecord, same⟩ := List.mem_map.mp member
      exact List.mem_append_left _ (List.mem_map.mpr ⟨r, isRecord, congrArg Prod.fst same⟩)
  · obtain ⟨p, hp, found⟩ := mem_versions.mp (List.mem_of_head? held)
    exact List.mem_append_right _ (List.mem_flatMap.mpr ⟨p, List.mem_reverse.mp hp,
      List.mem_map.mpr ⟨(key, v), SortedMap.mem_entries.mpr found, rfl⟩⟩)

instance (e : Engine) (rs : List Record) (t : Nat) : Decidable (KeepsNewest e rs t) :=
  decidable_of_iff (∀ key ∈ keysPutFirst e rs, ∀ v ∈ putFirst e rs key,
      shown t v = (e.versionsOf key).head?.bind (shown t))
    ⟨fun all key v first => all key (mem_keysPutFirst first) v first,
      fun keeps key _ v first => keeps key v first⟩

/-- Closing compacts nothing: nothing is left to flush, or the flush leaves every level
below its threshold. -/
def ClosesQuietly (w : World) : Prop :=
  (frozen w).eng.memtable.immutable.isSome → BelowThresholds w.eng

instance (w : World) : Decidable (ClosesQuietly w) := by
  unfold ClosesQuietly
  infer_instance

/-- What `w'` leaves in the directory is opened, and every lookup answers as in `w`. -/
def ReopenPreserves (w w' : World) : Prop :=
  ∃ e s, Ends (openWithOptions w.eng.opts) (drop w') e s ∧
    ∀ key, answer (get key) ⟨e, s⟩ = answer (get key) w

/-! ## The order of the tables -/

/-- A table is found by its metadata. -/
theorem find_table {tables : List Table} (distinct : (tables.map (fun p => p.1.id)).Nodup) {p : Table}
    (member : p ∈ tables) : tables.find? (fun q => q.1 = p.1) = some p := by
  obtain ⟨q, found⟩ : ∃ q, tables.find? (fun q => q.1 = p.1) = some q :=
    Option.isSome_iff_exists.mp (List.find?_isSome.mpr ⟨p, member, by simp⟩)
  have same : q.1 = p.1 := by simpa using List.find?_some found
  rw [found, List.inj_on_of_nodup_map (nodup_metas distinct) (List.mem_of_find?_eq_some found)
    member same]

/-- Tables are found again by their metadata. -/
theorem filterMap_find {tables l : List Table} (distinct : (tables.map (fun p => p.1.id)).Nodup)
    (among : ∀ p ∈ l, p ∈ tables) :
    (l.map Prod.fst).filterMap (fun sst => tables.find? (fun p => p.1 = sst)) = l := by
  rw [List.filterMap_map]
  refine (List.filterMap_congr fun p member => ?_).trans List.filterMap_some
  exact find_table distinct (among p member)

/-- The manifest lists the tables of level 0, in the order in which they are open, and then
the deeper ones. -/
theorem Inv.listing_eq (inv : Inv w) : listing w.eng.manifest w.eng.sstReaders =
    among (w.eng.manifest.sstsAtLevel 0) w.eng.sstReaders ++ deeper w.eng := by
  have entries : w.eng.manifest.entries =
      w.eng.manifest.sstsAtLevel 0 ++ w.eng.manifest.levels.tail.flatten := by
    unfold Manifest.entries Manifest.sstsAtLevel
    cases w.eng.manifest.levels <;> rfl
  have first := filterMap_find (l := among (w.eng.manifest.sstsAtLevel 0) w.eng.sstReaders)
    inv.tables.distinct fun p hp => (List.mem_filter.mp hp).1
  rw [map_among inv.tables.distinct (inv.listed.inOrder 0)] at first
  rw [listing, entries, List.filterMap_append, first]
  rfl

/-- A key that no deeper table holds is looked up in the tables of level 0. -/
theorem Inv.versionsIn_eq (inv : Inv w) {key : Bytes} (absent : versionsIn key (deeper w.eng) = []) :
    versionsIn key w.eng.sstReaders.reverse =
      versionsIn key (among (w.eng.manifest.sstsAtLevel 0) w.eng.sstReaders).reverse := by
  have silent : ∀ p ∈ w.eng.sstReaders, p.1 ∉ w.eng.manifest.sstsAtLevel 0 →
      (Table.map p).lookup key = none := by
    intro p hp other
    refine versions_eq_nil.mp absent p ?_
    have listed : p ∈ listing w.eng.manifest w.eng.sstReaders :=
      List.mem_filterMap.mpr ⟨p.1, inv.listed.listed p hp, find_table inv.tables.distinct hp⟩
    rw [inv.listing_eq] at listed
    rcases List.mem_append.mp listed with shallow | deep
    · exact absurd (by simpa using (List.mem_filter.mp shallow).2) other
    · exact deep
  have behind : w.eng.sstReaders.reverse.Pairwise (KeepsBehind (fun p : Table => p.map.lookup key)
      (fun p => p.1 ∈ w.eng.manifest.sstsAtLevel 0)) :=
    List.pairwise_of_forall_mem_list fun p hp q _ other _ =>
      Or.inl (silent p (List.mem_reverse.mp hp) (by simpa using other))
  have rest : versions (fun p : Table => p.map.lookup key) (w.eng.sstReaders.reverse.filter
      fun p => !decide (p.1 ∈ w.eng.manifest.sstsAtLevel 0)) = [] := by
    refine versions_eq_nil.mpr fun p hp => ?_
    obtain ⟨member, other⟩ := List.mem_filter.mp hp
    exact silent p (List.mem_reverse.mp member) (by simpa using other)
  rw [versionsIn, versions_partition behind, rest, List.append_nil, versionsIn, among,
    List.filter_reverse]

/-! ## Closing -/

/-- A flush adds to level 0 only. -/
theorem Engine.Flush.deeper_eq {p : Table} (flush : Flush w p w') (inv : Inv w) :
    deeper w'.eng = deeper w.eng := by
  have tail : (w.eng.manifest.addSst 0 p.1).levels.tail = w.eng.manifest.levels.tail := by
    unfold Manifest.addSst
    cases w.eng.manifest.levels with
    | nil => rfl
    | cons level levels => simp
  obtain ⟨metrics, eng⟩ := flush.eng
  unfold deeper listing
  rw [eng, tail]
  refine List.filterMap_congr fun sst member => ?_
  obtain ⟨level, deep, atLevel⟩ := List.mem_flatten.mp member
  obtain ⟨l, isLevel⟩ := Manifest.mem_entries.mp
    (List.mem_flatten_of_mem (List.mem_of_mem_tail deep) atLevel)
  obtain ⟨q, hq, same⟩ := inv.listed.mem_tables isLevel
  show (w.eng.sstReaders ++ [p]).find? _ = _
  rw [List.find?_append, ← same, find_table inv.tables.distinct hq, Option.some_or]

/-- What closing leaves of the engine: the same versions, all of them in tables. -/
structure Shut (w w' : World) : Prop where
  resting : Resting w'
  empty : ∀ key, w'.eng.memtable.versionsOf key = []
  deeper : deeper w'.eng = deeper w.eng
  versionsOf : ∀ key, w'.eng.versionsOf key = w.eng.versionsOf key

/-- **Closing** without a compaction. -/
theorem shut_of_close (resting : Resting w) (limits : WithinLimits w'.sys)
    (quiet : ClosesQuietly w) (run : Ends close w u w') : Shut w w' := by
  obtain ⟨w₁, w₂, flushes, limits₁, flushed, -, same⟩ := resting.ends_close_steps limits run
  obtain ⟨-, -, wal, eng⟩ := ends_walFlush flushed
  have eng' : w'.eng = { w₁.eng with wal } := (congrArg World.eng same).trans eng
  have steps : (∀ key, w₁.eng.memtable.versionsOf key = []) ∧ deeper w₁.eng = deeper w.eng ∧
      ∀ key, w₁.eng.versionsOf key = w.eng.versionsOf key := by
    rcases resting.frozen_cases with ⟨same, empty⟩ | ⟨moved, empty⟩
    · -- the active list is empty, so nothing is flushed
      rw [same] at flushes
      rcases ends_maybeFlush_cases resting.inv limits₁ flushes with ⟨-, rfl⟩ | ⟨imm, p, w₃, taken, -⟩
      · refine ⟨fun key => ?_, rfl, fun key => rfl⟩
        rw [MemTable.versionsOf_none resting.free, empty]
        rfl
      · rw [resting.free] at taken
        cases taken
    · have waiting : (frozen w).eng.memtable.immutable ≠ none := by
        rw [moved]
        exact Option.some_ne_none _
      obtain ⟨imm, p, taken, invThawed, flush, map⟩ := flush_of_maybeFlush resting.inv_frozen
        (quiet (Option.isSome_iff_ne_none.mpr waiting)) limits₁ flushes waiting
      refine ⟨fun key => ?_, flush.deeper_eq invThawed,
        fun key => (flush.versionsOf_eq taken map key).trans (resting.versionsOf_frozen key)⟩
      obtain ⟨metrics, flushedEng⟩ := flush.eng
      rw [flushedEng, MemTable.versionsOf_none rfl]
      show ((frozen w).eng.memtable.active.contents.lookup key).toList = []
      rw [empty]
      rfl
  obtain ⟨empty, same, versions⟩ := steps
  refine ⟨resting.ends_close limits run, ?_, ?_, ?_⟩
  · rw [eng']
    exact empty
  · rw [eng']
    exact same
  · rw [eng']
    exact versions

theorem Shut.putFirst_eq (shut : Shut w w') (rs : List Record) (key : Bytes) :
    putFirst w'.eng rs key = putFirst w.eng rs key := by
  rw [putFirst, putFirst, shut.deeper]

/-! ## Opening again -/

/-- **What is recovered is what was visible** if the version put first shows it. -/
theorem replayed_iff {rs : List Record} {key : Bytes} (inv : Inv w)
    (empty : w.eng.memtable.versionsOf key = []) :
    replayed w t rs key = w.eng.visible t key ↔
      ∀ v, putFirst w.eng rs key = some v → shown t v = w.eng.visible t key := by
  have newest : replayed w t rs key = ((putFirst w.eng rs key).or (versionsIn key
      (among (w.eng.manifest.sstsAtLevel 0) w.eng.sstReaders).reverse).head?).bind (shown t) := by
    rw [replayed, inv.listing_eq, List.reverse_append, versionsIn, versions_append,
      List.head?_append, putFirst, Option.or_assoc]
    rfl
  rw [newest, visible]
  cases first : putFirst w.eng rs key with
  | some v =>
      constructor
      · rintro same v' ⟨⟩
        exact same
      · intro keeps
        exact keeps v rfl
  | none =>
      obtain ⟨-, none⟩ := Option.or_eq_none_iff.mp first
      have absent : versionsIn key (deeper w.eng) = [] := by
        have reversed : versionsIn key (deeper w.eng).reverse =
            (versionsIn key (deeper w.eng)).reverse := List.filterMap_reverse
        rw [reversed] at none
        exact List.reverse_eq_nil_iff.mp (List.head?_eq_none_iff.mp none)
      rw [Option.none_or, Engine.versionsOf, empty, List.nil_append, inv.versionsIn_eq absent]
      exact iff_of_true rfl fun v found => by cases found

/-- **The log that closing leaves** is read back record by record. -/
theorem logOf_closed {rs bs : List Record} (logged : Logged w rs bs) (resting : Resting w)
    (kept : Kept w) (faultless : w.sys.env.Faultless) (closed : Ends close w () w')
    (fits : FilesFit (drop w')) :
    logOf (drop w').env.crc (drop w').dir = .ok (leftRecords w) := by
  obtain ⟨ops, did, -⟩ := BufWriter.drop_did w'.eng.wal.file w'.sys
  have limits : WithinLimits w'.sys := fits.withinLimits.of_extends ⟨ops, did⟩
  have kept' := kept.close resting limits closed
  have logged' := logged.closed resting kept (Or.inr faultless) limits closed
  have short := logged.fits (fits.of_extends (Left.closed closed).extends) resting.inv.history
  generalize isLeft : (if (frozen w).eng.memtable.immutable.isSome then bs else rs ++ bs) = left
    at logged'
  have among : ∀ r ∈ left, r.Fits := by
    intro r member
    rw [← isLeft] at member
    split at member
    · exact short r (List.mem_append_right rs member)
    · exact short r member
  have bytes : leftLog w = encodeLog w.sys.env.crc left := by
    rw [leftLog, logged.file, logged.buf, ← isLeft]
    split
    · rfl
    · exact (encodeLog_append _ _).symm
  have records : leftRecords w = left := by
    rw [leftRecords, bytes, WALReader.collect_encodeLog among]
    rfl
  have file := logged'.dropped (Or.inl logged'.buf)
  rw [kept'.log, List.append_nil, ← did.env] at file
  rw [records]
  exact logOf_of_lookup kept'.drop.2 file among

/-- **Closing and opening again** preserves every lookup just when whatever is put first
shows what the newest version shows. -/
theorem reopen_preserves_iff {env : Env} {Serves : World → Request → Prop} {Opens : Sys → Prop}
    (reached : ReachedBy env Serves Opens w) (faultless : env.Faultless)
    (closed : Ends close w () w') (quiet : ClosesQuietly w) (fits : FilesFit (drop w'))
    (still : w.sys.ClockAt t) :
    ReopenPreserves w w' ↔ KeepsNewest w.eng (leftRecords w) t := by
  have goesOn := (Left.closed closed).extends
  have fitsBefore : FilesFit w.sys := fits.of_extends goesOn
  have noFault : w.sys.env.Faultless := reached.env_eq ▸ faultless
  have resting := reached.resting fitsBefore
  obtain ⟨rs, bs, logged⟩ := reached.logged faultless fitsBefore
  have log := logOf_closed logged resting (reached.kept fitsBefore) noFault closed fits
  obtain ⟨ops, did, -⟩ := BufWriter.drop_did w'.eng.wal.file w'.sys
  have fits' : FilesFit w'.sys := fits.of_extends ⟨ops, did⟩
  have shut := shut_of_close resting fits'.withinLimits quiet closed
  have others : ∀ f, (∀ n, f ≠ .wal n) → (drop w').dir.lookup f = w'.sys.dir.lookup f := by
    obtain ⟨ops', did', onlyLog⟩ := shut.resting.stored.drop
    exact fun f other => did'.lookup_of_log onlyLog other
  obtain ⟨e, s, opens, after⟩ := shut.resting.recovers fits' (goesOn.env ▸ noFault)
    (still.of_extends goesOn) others log w.eng.opts
  have before : ∀ key, answer (get key) w = .ok (w'.eng.visible t key) := fun key => by
    rw [answer_get resting.inv, still.time, visible, visible, shut.versionsOf]
  have sameReads : ReopenPreserves w w' ↔
      ∀ key, replayed w' t (leftRecords w) key = w'.eng.visible t key := by
    constructor
    · rintro ⟨e', s', opens', same⟩ key
      obtain ⟨rfl, rfl⟩ := Ends.unique opens opens'
      have equal := same key
      rw [after, before] at equal
      exact Except.ok.inj equal
    · intro same
      refine ⟨e, s, opens, fun key => ?_⟩
      rw [after, before, same]
  rw [sameReads]
  refine forall_congr' fun key => ?_
  rw [replayed_iff shut.resting.inv (shut.empty key), shut.putFirst_eq, visible, shut.versionsOf]

/-! ## Runs that can be evaluated -/

/-- The session ends, closing compacts nothing and stays within the limits, and the worlds
before and after it pass the test. -/
def closePassesQuietly (opts : Options) (calls : List Call) (test : World → World → Bool) : Bool :=
  passes (openWithOptions opts) (Sys.initial .steady) fun e s =>
    passes (runCalls calls) ⟨e, s⟩ fun _ w =>
      passes close w fun _ w' => decide (ClosesQuietly w) &&
        decide (((drop w').journal.map FsOp.added).sum < 2 ^ 32) && test w w'

theorem exists_closed (opts : Options) (calls : List Call) (test : World → World → Bool)
    (keys : ∀ call ∈ calls, call.KeysFit) (plain : ∀ call ∈ calls, call.Plain)
    (passed : closePassesQuietly opts calls test = true) :
    ∃ w w', ReachedBy .steady PlainWrites (fun _ => False) w ∧ Ends close w () w' ∧
      ClosesQuietly w ∧ FilesFit (drop w') ∧ w.sys.ClockAt 1700000000 ∧ test w w' = true := by
  obtain ⟨e, s, opened, rest⟩ := ends_of_passes passed
  obtain ⟨u, w, ran, rest⟩ := ends_of_passes rest
  obtain ⟨u₁, w', closed, rest⟩ := ends_of_passes rest
  obtain ⟨rest, tested⟩ := Bool.and_eq_true_iff.mp rest
  obtain ⟨quiet, few⟩ := Bool.and_eq_true_iff.mp rest
  have reached : ReachedBy .steady PlainWrites (fun _ => False) w := by
    refine (ReachedBy.opened opened).runCalls keys (fun call member _ _ call' same => ?_) ran
    cases same
    exact plain call member
  refine ⟨w, w', reached, closed, of_decide_eq_true quiet,
    filesFit_of_added (of_decide_eq_true few), fun n _ => ?_, tested⟩
  rw [reached.env_eq]
  rfl

/-- The value of a key that was overwritten and compacted to level 1 is put first, and nothing
newer is at level 0. -/
theorem reopen_preserves_iff_overwritten : ∃ w w', answer (get [1]) w = .ok (some [7]) ∧
    (deeper w.eng).length = 1 ∧ (w.eng.manifest.sstsAtLevel 0).length = 1 ∧
      Ends close w () w' ∧ ReopenPreserves w w' := by
  obtain ⟨w, w', reached, closed, quiet, fits, still, tested⟩ := exists_closed
    { memtableSize := 0, l0CompactionThreshold := 2, maxLevels := 2 }
    [.put [1] [6], .put [1] [7], .put [3] [9]]
    (fun w _ => passes (get [1]) w (fun x _ => x == some [7]) &&
      decide ((deeper w.eng).length = 1 ∧ (w.eng.manifest.sstsAtLevel 0).length = 1 ∧
        KeepsNewest w.eng (leftRecords w) 1700000000))
    (by unfold Call.KeysFit; decide) (by simp [Call.Plain]) (by decide +kernel)
  obtain ⟨before, state⟩ := Bool.and_eq_true_iff.mp tested
  obtain ⟨deep, shallow, keeps⟩ := of_decide_eq_true state
  exact ⟨w, w', answer_of_passes before, deep, shallow, closed,
    (reopen_preserves_iff reached (fun _ => rfl) closed quiet fits still).mpr keeps⟩

/-- Closing and opening again preserves every lookup after every session of `put` and
`delete`. -/
def ReopenAlwaysPreserves : Prop :=
  ∀ (env : Env) (w w' : World) (t : Nat), ReachedBy env PlainWrites (fun _ => False) w →
    env.Faultless → Ends close w () w' → ClosesQuietly w → FilesFit (drop w') → w.sys.ClockAt t →
    ReopenPreserves w w'

/-- **An older value comes back**: two values are compacted to level 1, one of them is
overwritten at level 0, and opening puts the table of level 1 first. -/
theorem not_reopenAlwaysPreserves : ¬ ReopenAlwaysPreserves := by
  intro always
  obtain ⟨w, w', reached, closed, quiet, fits, still, tested⟩ := exists_closed
    { memtableSize := 0, l0CompactionThreshold := 2, maxLevels := 2 }
    [.put [1] [7], .put [2] [8], .put [1] [9]]
    (fun w w' => passes (get [1]) w (fun x _ => x == some [9]) &&
      passes (openWithOptions w.eng.opts) (drop w') (fun e s =>
        passes (get [1]) ⟨e, s⟩ (fun x _ => x == some [7])))
    (by unfold Call.KeysFit; decide) (by simp [Call.Plain]) (by decide +kernel)
  obtain ⟨before, again⟩ := Bool.and_eq_true_iff.mp tested
  obtain ⟨x, w₁, got, isNine⟩ := ends_of_passes before
  obtain ⟨e, s, opened, after⟩ := ends_of_passes again
  obtain ⟨y, w₂, got', isSeven⟩ := ends_of_passes after
  obtain ⟨e', s', opened', same⟩ := always _ w w' _ reached (fun _ => rfl) closed quiet fits still
  obtain ⟨rfl, rfl⟩ := Ends.unique opened opened'
  have equal := same [1]
  rw [answer_of_ok got, answer_of_ok got', eq_of_beq isNine, eq_of_beq isSeven] at equal
  cases equal

end KvEngine
