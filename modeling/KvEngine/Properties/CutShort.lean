import KvEngine.Properties.Durability
import KvEngine.Properties.LogRecovery

/-!
# Calls that are cut short

What a directory shows after the engine was killed on the way through a call or through
`close`, with a single level and a synced log.  A first part of what the call stores
survives (`Survives`).

There is one exception: `Manifest::save` truncates the manifest before it writes it, and a
directory that is left in between has a torn manifest.
-/

namespace KvEngine

open Foundations Engine

variable {w w₁ w' : World} {t : Nat} {stores : List Store} {rs : List Record} {e : Engine}
  {crc : Bytes → UInt32} {d d' : Dir}

/-! ## Directories that leave everything -/

theorem OneLog.logOf_eq {data : Bytes} (logs : OneLog d) (file : d.lookup (.wal 1) = some data) :
    logOf crc d = WALReader.collect (WALReader.items crc data) := by
  rw [logOf, logs.walPathOf, file]

theorem OneLog.congr (logs : OneLog d) (same : ∀ n, d'.lookup (.wal n) = d.lookup (.wal n)) :
    OneLog d' := fun n different => (same n).trans (logs n different)

theorem logOf_congr (logs : OneLog d) (same : ∀ n, d'.lookup (.wal n) = d.lookup (.wal n)) :
    logOf crc d' = logOf crc d := by
  rw [logOf, logOf, logs.walPathOf, (logs.congr same).walPathOf, same 1]

/-- Only the manifest, the tables that are open and the logs matter. -/
theorem Leaves.frame (leaves : Leaves e crc d stores rs)
    (manifest : d'.lookup .manifest = d.lookup .manifest)
    (tables : ∀ p ∈ e.sstReaders, d'.lookup (.sst p.1.id) = d.lookup (.sst p.1.id))
    (logs : ∀ n, d'.lookup (.wal n) = d.lookup (.wal n)) : Leaves e crc d' stores rs where
  files p hp := by
    rw [tables p hp]
    exact leaves.files p hp
  manifest := leaves.manifest.of_lookup manifest
  logs := leaves.logs.congr logs
  log := (logOf_congr leaves.logs logs).trans leaves.log
  keys := leaves.keys
  flat := leaves.flat
  shows := leaves.shows

/-- Saving the manifest again changes nothing. -/
theorem Leaves.saved (leaves : Leaves e crc d stores rs)
    (manifest : d'.lookup .manifest = some e.manifest.encode)
    (others : ∀ f, f ≠ .manifest → d'.lookup f = d.lookup f) : Leaves e crc d' stores rs where
  files p hp := by
    rw [others _ (by simp)]
    exact leaves.files p hp
  manifest := Or.inl manifest
  logs := leaves.logs.congr fun n => others (.wal n) (by simp)
  log := (logOf_congr leaves.logs fun n => others (.wal n) (by simp)).trans leaves.log
  keys := leaves.keys
  flat := leaves.flat
  shows := leaves.shows

/-- More records in the log show more stores. -/
theorem Durable.leaves_log (durable : Durable stores w) (resting : Resting w)
    (leaves : Leaves w.eng crc w.sys.dir stores rs)
    (alike : Alike w.eng.memtable.active.contents
      (SortedMap.empty.insertAll (rs.map Record.binding))) {us : List Store}
    (faithful : ∀ s ∈ us, ∀ t, shown t (replayValue s.record) = shown t s.value)
    (short : ∀ s ∈ us, s.record.key.length < 2 ^ 16)
    (others : ∀ f, f ≠ .wal 1 → d.lookup f = w.sys.dir.lookup f) {data : Bytes}
    (file : d.lookup (.wal 1) = some data)
    (replays : WALReader.collect (WALReader.items crc data) = .ok (rs ++ us.map Store.record)) :
    Leaves w.eng crc d (stores ++ us) (rs ++ us.map Store.record) where
  files p hp := by
    rw [others _ (by simp)]
    exact leaves.files p hp
  manifest := leaves.manifest.of_lookup (others _ (by simp))
  logs n different := by
    rw [others _ (by simpa using different)]
    exact leaves.logs n different
  log := by
    have logs : OneLog d := fun n different => by
      rw [others _ (by simpa using different)]
      exact leaves.logs n different
    rw [logs.logOf_eq file, replays]
  keys r member := by
    rcases List.mem_append.mp member with old | new
    · exact leaves.keys r old
    · obtain ⟨s, isStore, rfl⟩ := List.mem_map.mp new
      exact short s isStore
  flat := leaves.flat
  shows t key := by
    have before := durable.mirrors t key
    rw [visible, Engine.versionsOf, MemTable.versionsOf_none resting.free, List.head?_append,
      Option.head?_toList] at before
    have same := (alike.insertAll faithful).bind_or key
      (versionsIn key w.eng.sstReaders.reverse).head? t
    rw [shownOnDisk, List.map_append, SortedMap.insertAll_append, ← same, lookup_ledger_append,
      SortedMap.lookup_insertAll]
    cases lookupList key (us.map Store.binding).reverse with
    | none =>
        rw [Option.none_or, Option.none_or]
        exact before
    | some v => rfl

/-- A flush that was cut short before the log was truncated: what is in the log is in the new
table, too. -/
theorem Leaves.flushed (leaves : Leaves e crc d stores rs) (durable : Durable stores w')
    (resting : Resting w') (empty : ∀ key, w'.eng.memtable.active.contents.lookup key = none)
    (manifest : d'.lookup .manifest = some w'.eng.manifest.encode)
    (tables : ∀ id, d'.lookup (.sst id) = w'.sys.dir.lookup (.sst id))
    (logs : ∀ n, d'.lookup (.wal n) = d.lookup (.wal n)) : Leaves w'.eng crc d' stores rs where
  files p hp := by
    rw [tables]
    exact resting.stored.files p hp
  manifest := Or.inl manifest
  logs := leaves.logs.congr logs
  log := (logOf_congr leaves.logs logs).trans leaves.log
  keys := leaves.keys
  flat := durable.flat
  shows t key := by
    have after := durable.mirrors t key
    rw [visible, Engine.versionsOf, MemTable.versionsOf_none resting.free, empty, Option.toList_none,
      List.nil_append] at after
    have before := leaves.shows t key
    rw [shownOnDisk] at before ⊢
    cases found : (SortedMap.empty.insertAll (rs.map Record.binding)).lookup key with
    | none =>
        rw [Option.none_or]
        exact after
    | some v =>
        rw [found, Option.some_or] at before
        rw [Option.some_or]
        exact before

/-- The same flush after the log was truncated. -/
theorem Leaves.reset (durable : Durable stores w') (resting : Resting w')
    (empty : ∀ key, w'.eng.memtable.active.contents.lookup key = none)
    (manifest : d'.lookup .manifest = some w'.eng.manifest.encode)
    (tables : ∀ id, d'.lookup (.sst id) = w'.sys.dir.lookup (.sst id))
    (logs : OneLog d') (log : d'.lookup (.wal 1) = some []) : Leaves w'.eng crc d' stores [] where
  files p hp := by
    rw [tables]
    exact resting.stored.files p hp
  manifest := Or.inl manifest
  logs := logs
  log := logs.logOf_eq log
  keys := by simp
  flat := durable.flat
  shows t key := by
    have after := durable.mirrors t key
    rw [visible, Engine.versionsOf, MemTable.versionsOf_none resting.free, empty, Option.toList_none,
      List.nil_append] at after
    rw [shownOnDisk, List.map_nil, SortedMap.insertAll_nil, SortedMap.lookup_empty, Option.none_or]
    exact after

/-! ## What a cut log replays -/

/-- Behind whole records a first part of the next ones replays those that are complete. -/
theorem replays_of_cut {news : List Record} {data : Bytes} (fits : ∀ r ∈ rs ++ news, r.Fits)
    (begins : data <+: encodeLog crc news) :
    ∃ n, WALReader.collect (WALReader.items crc (encodeLog crc rs ++ data)) =
        .ok (rs ++ news.take n) ∧
      ∀ us, us <+: news → data = encodeLog crc us → us = news.take n := by
  have fitsOld : ∀ r ∈ rs, r.Fits := fun r member => fits r (List.mem_append_left _ member)
  have fitsNew : ∀ r ∈ news, r.Fits := fun r member => fits r (List.mem_append_right _ member)
  obtain ⟨n, -, -, same⟩ := completeWithin_eq_take crc news data.length
  have replays : WALReader.collect (WALReader.items crc (encodeLog crc rs ++ data)) =
      .ok (rs ++ news.take n) := by
    rw [WALReader.items_encodeLog_append crc fitsOld, List.prefix_iff_eq_take.mp begins,
      WALReader.items_take crc fitsNew, same, ← List.map_append, WALReader.collect_ok]
  refine ⟨n, replays, fun us first isWhole => ?_⟩
  have fitsWhole : ∀ r ∈ rs ++ us, r.Fits := fun r member => by
    rcases List.mem_append.mp member with old | new
    · exact fitsOld r old
    · exact fitsNew r (first.subset new)
  have whole : WALReader.collect (WALReader.items crc (encodeLog crc (rs ++ us))) = .ok (rs ++ us) :=
    WALReader.collect_encodeLog fitsWhole
  rw [encodeLog_append, ← isWhole, replays] at whole
  exact (List.append_cancel_left (Except.ok.inj whole)).symm

theorem Torn.length_le {before ops : List FsOp} (torn : Torn before ops) :
    before.length ≤ ops.length := by
  induction torn with
  | stop => exact Nat.zero_le _
  | cut => exact Nat.succ_le_succ (Nat.zero_le _)
  | next _ inductionHypothesis => exact Nat.succ_le_succ inductionHypothesis

/-! ## What survives -/

/-- The directory shows the stores and a first part of the new ones.  When the log is `whole`, it
ends with a whole record. -/
def Survives (stores new : List Store) (whole : Prop) (s : Sys) : Prop :=
  ∃ e rs us, us <+: new ∧ Resting ⟨e, s⟩ ∧ Leaves e s.env.crc s.dir (stores ++ us) rs ∧
    (whole → s.dir.lookup (.wal 1) = some (encodeLog s.env.crc rs))

/-- A flush in an engine whose memtable is then empty: it is cut short on the way, or its
manifest is torn. -/
theorem survives_of_flushCut {p : Table} {v : World} {s : Sys} {new : List Store} {whole : Prop}
    (cut : FlushCut v w' p s.dir) (leaves : Leaves e s.env.crc v.sys.dir stores rs)
    (file : v.sys.dir.lookup (.wal 1) = some (encodeLog s.env.crc rs))
    (fresh : ∀ q ∈ e.sstReaders, q.1.id ≠ p.1.id) {s₀ : Sys} (resting : Resting ⟨e, s₀⟩)
    (history : s.dir = applyOps s.journal ∅) (durable : Durable stores w') (resting' : Resting w')
    (empty : ∀ key, w'.eng.memtable.active.contents.lookup key = none) :
    ManifestTorn w'.eng.manifest s.dir ∨ Survives stores new whole s := by
  cases cut with
  | building same =>
      have left : Leaves e s.env.crc s.dir stores rs :=
        leaves.frame (same _ (by simp)) (fun q hq => same _ (by simpa using fresh q hq))
          (fun n => same _ (by simp))
      refine Or.inr ⟨e, rs, [], List.nil_prefix, left.resting resting history,
        by rw [List.append_nil]; exact left, fun _ => ?_⟩
      rw [same _ (by simp)]
      exact file
  | saving torn => exact Or.inl torn
  | resetting manifest tables others log =>
      have others' : ∀ n, n ≠ 1 → s.dir.lookup (.wal n) = v.sys.dir.lookup (.wal n) := others
      rcases log with kept | truncated
      · have left : Leaves w'.eng s.env.crc s.dir stores rs := by
          refine leaves.flushed durable resting' empty manifest tables fun n => ?_
          by_cases one : n = 1
          · rw [one, kept]
          · exact others n one
        refine Or.inr ⟨w'.eng, rs, [], List.nil_prefix, left.resting resting' history,
          by rw [List.append_nil]; exact left, fun _ => ?_⟩
        rw [kept]
        exact file
      · have left : Leaves w'.eng s.env.crc s.dir stores [] :=
          .reset durable resting' empty manifest tables
            (fun n different => (others n different).trans (leaves.logs n different)) truncated
        exact Or.inr ⟨w'.eng, [], [], List.nil_prefix, left.resting resting' history,
          by rw [List.append_nil]; exact left, fun _ => truncated⟩

theorem Survives.of_all {new : List Store} {whole : Prop} {s : Sys}
    (survives : Survives (stores ++ new) [] whole s) : Survives stores new whole s := by
  obtain ⟨e, rs, us, first, resting, leaves, file⟩ := survives
  rw [List.prefix_nil.mp first, List.append_nil] at leaves
  exact ⟨e, rs, new, List.prefix_refl new, resting, leaves, file⟩

theorem Survives.of_imp {new : List Store} {whole whole' : Prop} {s : Sys}
    (survives : Survives stores new whole s) (weaker : whole' → whole) :
    Survives stores new whole' s := by
  obtain ⟨e, rs, us, first, resting, leaves, file⟩ := survives
  exact ⟨e, rs, us, first, resting, leaves, fun isWhole => file (weaker isWhole)⟩

/-! ## A call that is cut short -/

/-- While a call writes to the log, a first part of what it stores survives. -/
theorem Durable.survives_log (durable : Durable stores w) (resting : Resting w) {call : Call}
    (synced : w.eng.opts.syncWal = true) (keys : call.KeysFit) (fits : FilesFit w₁.sys)
    (stored : Ends call.store w () w₁) :
    ∃ ops rs, w.sys.Did ops w₁.sys ∧
      Leaves w.eng w.sys.env.crc w₁.sys.dir
        (stores ++ call.stores w.eng.nextSeq w.sys.time) rs ∧
      w₁.sys.dir.lookup (.wal 1) = some (encodeLog w.sys.env.crc rs) ∧
      w₁.eng.wal.file.buf = [] ∧
      ∀ before s, Torn before ops → w.sys.Did before s →
        Survives stores (call.stores w.eng.nextSeq w.sys.time) (before <+: ops) s := by
  have unbuffered : w.eng.wal.file.buf = encodeLog w.sys.env.crc [] :=
    durable.matched.choose_spec.1.buf
  obtain ⟨bs', took⟩ := Took.store unbuffered stored
  obtain ⟨groups, total, did⟩ := took.did
  obtain ⟨rs, leaves, file, logged, alike⟩ := durable.leaves resting (fits.of_extends ⟨_, did⟩)
  have empty : w₁.eng.wal.file.buf = [] :=
    (ends_store_now stored).1.synced synced logged.buf
  obtain rfl : bs' = [] := eq_nil_of_encodeLog (took.buf.symm.trans empty)
  rw [List.append_nil, List.nil_append] at total
  rw [durable.logging.log] at did
  have fit : ∀ r ∈ rs ++ (call.stores w.eng.nextSeq w.sys.time).map Store.record, r.Fits := by
    obtain ⟨rs₁, bs₁, logged₁, same⟩ := logged.store stored
    rw [List.append_nil] at same
    exact same ▸ logged₁.fits fits (did.history resting.inv.history)
  have faithful := call.shown_replayValue w.eng.nextSeq w.sys.time
  have short : ∀ s ∈ call.stores w.eng.nextSeq w.sys.time, s.record.key.length < 2 ^ 16 :=
    fun s member => keys _ (Call.key_mem_keys member)
  have others : ∀ {before : List FsOp}, Torn before (logWrites w.sys.env.crc (.wal 1) groups) →
      ∀ f, f ≠ .wal 1 → (applyOps before w.sys.dir).lookup f = w.sys.dir.lookup f := by
    intro before torn f other
    refine lookup_applyOps_of_ne _ fun op member same => other ?_
    rw [← same]
    refine torn.file (P := (· = .wal 1)) (fun op member => ?_) op member
    obtain ⟨ts, -, rfl⟩ := List.mem_map.mp member
    rfl
  have all : w₁.sys.dir.lookup (.wal 1) = some (encodeLog w.sys.env.crc
      (rs ++ (call.stores w.eng.nextSeq w.sys.time).map Store.record)) := by
    rw [did.dir, applyOps_logWrites file, total, encodeLog_append]
  refine ⟨_, _, did, durable.leaves_log resting leaves alike faithful short ?_ all
    (WALReader.collect_encodeLog fit), all, empty, fun before s torn left => ?_⟩
  · rw [did.dir]
    exact others (.of_begins (List.prefix_refl _))
  · obtain ⟨data, written, begins, isWhole⟩ := torn.logWrites file
    rw [total] at begins isWhole
    obtain ⟨n, replays, exactly⟩ := replays_of_cut fit begins
    rw [← left.dir] at written
    rw [← List.map_take] at replays
    have leavesCut := durable.leaves_log resting leaves alike
      (fun s member => faithful s (List.mem_of_mem_take member))
      (fun s member => short s (List.mem_of_mem_take member)) (by rw [left.dir]; exact others torn)
      written replays
    have env : s.env.crc = w.sys.env.crc := by rw [left.env]
    rw [← env] at leavesCut
    refine ⟨w.eng, _, _, List.take_prefix n _,
      leavesCut.resting resting (left.history resting.inv.history), leavesCut, fun whole => ?_⟩
    obtain ⟨us, first, rfl⟩ := isWhole whole
    rw [written, env, encodeLog_append, exactly us first rfl, List.map_take]

/-- **A call that is cut short**: a first part of what it stores survives, or the manifest is
torn. -/
theorem Durable.survives_call (durable : Durable stores w) (resting : Resting w) {call : Call}
    (late : SyncedLate w (.write call)) (single : w.eng.opts.maxLevels ≤ 1) (keys : call.KeysFit)
    (fits : FilesFit w'.sys) (run : Ends call.run w () w') {ops before : List FsOp} {s : Sys}
    (did : w.sys.Did ops w'.sys) (torn : Torn before ops) (left : w.sys.Did before s) :
    ManifestTorn w'.eng.manifest s.dir ∨
      Survives stores (call.stores w.eng.nextSeq w.sys.time) (before <+: ops) s := by
  obtain ⟨w₁, stored, inv₁, rest⟩ := resting.ends_call_single keys fits.withinLimits single run
  have accepted := (ends_store_now stored).1
  rcases rest with rfl | ⟨isFrozen, p, flush⟩
  · obtain ⟨ops', rs, did', -, -, -, cut⟩ := durable.survives_log resting late.1 keys fits stored
    obtain rfl := did.unique did'
    exact Or.inr (cut before s torn left)
  · have fits₁ : FilesFit w₁.sys := fits.of_extends (Flush.did (w := thawed w₁) flush)
    obtain ⟨ops₁, rs, did₁, leaves, file, empty, cut⟩ :=
      durable.survives_log resting late.1 keys fits₁ stored
    obtain ⟨ops₂, did₂, cutFlush⟩ := flush.cut
      ((durable.logging.of_logs accepted.logs).log) empty
    obtain rfl : ops = ops₁ ++ ops₂ := did.unique (did₁.trans did₂)
    rcases torn.append_cases with inLog | ⟨after, rfl, inFlush⟩
    · exact Or.inr ((cut before s inLog left).of_imp fun whole =>
        List.prefix_of_prefix_length_le whole (List.prefix_append _ _) inLog.length_le)
    · have env : s.env.crc = w.sys.env.crc := by rw [left.env]
      have dir : s.dir = applyOps after w₁.sys.dir := by rw [left.dir, applyOps_append, did₁.dir]
      have flushCut := cutFlush after inFlush
      rw [show (thawed w₁).sys.dir = w₁.sys.dir from rfl, ← dir] at flushCut
      rw [← env] at leaves file
      obtain ⟨wal, memtable, metrics, eng⟩ := accepted.eng
      obtain ⟨flushMetrics, flushEng⟩ := flush.eng
      have emptied : w'.eng.memtable.active.contents = SortedMap.empty := by
        rcases ends_store_active resting late stored with ⟨free, -⟩ | none
        · rw [free] at isFrozen
          cases isFrozen
        · rw [flushEng]
          exact none
      refine Or.imp_right Survives.of_all <| survives_of_flushCut (v := thawed w₁) flushCut leaves file
        (fun q hq same => ?_) resting (left.history resting.inv.history)
        (durable.call resting late single keys fits.withinLimits run)
        (resting.ends_call keys fits.withinLimits run).1
        (fun key => by rw [emptied, SortedMap.lookup_empty])
      have older := resting.inv.tables.fresh q hq
      have isNew : p.1.id = w₁.eng.nextSstId := flush.id
      rw [same, isNew, eng] at older
      exact absurd older (by simp)

/-! ## Closing that is cut short -/

/-- A manifest that is saved once more, with nothing else to do, loses nothing on the way. -/
theorem Leaves.survives_saving {rs : List Record} {before : List FsOp} {s : Sys}
    (leaves : Leaves w.eng w.sys.env.crc w.sys.dir stores rs)
    (file : w.sys.dir.lookup (.wal 1) = some (encodeLog w.sys.env.crc rs)) (resting : Resting w)
    (torn : Torn before (manifestOps w.eng.manifest)) (left : w.sys.Did before s) :
    ManifestTorn w.eng.manifest s.dir ∨ Survives stores [] True s := by
  have history := left.history resting.inv.history
  rw [← left.env] at leaves file
  have survives : Leaves w.eng s.env.crc s.dir stores rs →
      s.dir.lookup (.wal 1) = w.sys.dir.lookup (.wal 1) → Survives stores [] True s :=
    fun isLeft log => ⟨w.eng, rs, [], List.nil_prefix, isLeft.resting resting history,
      (List.append_nil stores).symm ▸ isLeft, fun _ => log.trans file⟩
  rcases torn.manifestOps w.sys.dir with rfl | cut | ⟨manifest, others⟩
  · have dir : s.dir = w.sys.dir := left.dir
    exact Or.inr (survives (dir ▸ leaves) (by rw [dir]))
  · rw [← left.dir] at cut
    exact Or.inl cut
  · rw [← left.dir] at manifest others
    exact Or.inr (survives (leaves.saved manifest fun f other => others f other)
      (others _ (by simp)))

/-- A flush after which the manifest is saved once more, cut short anywhere. -/
theorem Flush.cut_saving {p : Table} {w₁ : World} {rs : List Record} {ops before : List FsOp}
    {s : Sys} (flush : Flush w p w₁) (logging : Logging w) (logged : Logged w rs [])
    (saved : w₁.sys.Did (manifestOps w₁.eng.manifest) w'.sys)
    (manifest' : w'.eng.manifest = w₁.eng.manifest) (did : w.sys.Did ops w'.sys)
    (torn : Torn before ops) (left : w.sys.Did before s) :
    ManifestTorn w'.eng.manifest s.dir ∨ FlushCut w w' p s.dir := by
  obtain ⟨flushOps, didFlush, cutFlush⟩ := flush.cut logging.log logged.buf
  have logging₁ := logging.flush flush
  have file₁ : w₁.sys.dir.lookup (.wal 1) = some [] :=
    logging₁.log ▸ (logged.flushed flush logging.log (Or.inl logged.buf)).file
  have tables' : ∀ id, w'.sys.dir.lookup (.sst id) = w₁.sys.dir.lookup (.sst id) :=
    lookup_sst_manifestOps saved
  obtain rfl := did.unique (didFlush.trans saved)
  rcases torn.append_cases with inFlush | ⟨after, rfl, inManifest⟩
  · have cut := cutFlush before inFlush
    rw [← left.dir] at cut
    apply Or.inr
    cases cut with
    | building same => exact .building same
    | saving torn => exact .saving (manifest' ▸ torn)
    | resetting manifest tables others log =>
        exact .resetting (manifest' ▸ manifest) (fun id => (tables id).trans (tables' id).symm)
          others log
  · have dir : s.dir = applyOps after w₁.sys.dir := by
      rw [left.dir, applyOps_append, ← didFlush.dir]
    -- the flush is complete: it leaves the new manifest and an empty log
    have complete : s.dir.lookup .manifest = some w'.eng.manifest.encode →
        (∀ f, f ≠ .manifest → s.dir.lookup f = w₁.sys.dir.lookup f) → FlushCut w w' p s.dir := by
      intro manifest others
      refine .resetting manifest (fun id => ?_) (fun n different => ?_) (Or.inr ?_)
      · rw [others _ (by simp), tables']
      · rw [others _ (by simp), logging₁.logs n different, logging.logs n different]
      · rw [others _ (by simp), file₁]
    rcases inManifest.manifestOps w₁.sys.dir with rfl | cut | ⟨manifest, others⟩
    · rw [applyOps_nil] at dir
      refine Or.inr (complete ?_ fun f _ => by rw [dir])
      rw [dir, flush.lookup_manifest logging.log, manifest']
    · rw [← dir] at cut
      exact Or.inl (manifest' ▸ cut)
    · rw [← dir] at manifest others
      exact Or.inr (complete (manifest' ▸ manifest) others)

/-- **Closing that is cut short** loses nothing, or the manifest is torn. -/
theorem Durable.survives_close (durable : Durable stores w) (resting : Resting w)
    (single : w.eng.opts.maxLevels ≤ 1) (fits : FilesFit w'.sys) (run : Ends close w () w')
    {ops before : List FsOp} {s : Sys} (did : w.sys.Did ops w'.sys) (torn : Torn before ops)
    (left : w.sys.Did before s) : ManifestTorn w'.eng.manifest s.dir ∨ Survives stores [] True s := by
  obtain ⟨rs, leaves, file, logged, -⟩ := durable.leaves resting (fits.of_extends ⟨ops, did⟩)
  have resting' := resting.ends_close fits.withinLimits run
  obtain ⟨w₁, w₂, flushes, limits₁, flushed, saved, same⟩ :=
    resting.ends_close_steps fits.withinLimits run
  have manifest₂ : w₂.eng.manifest = w₁.eng.manifest := by
    obtain ⟨-, -, wal, eng⟩ := ends_walFlush flushed
    rw [eng]
  have manifest' : w'.eng.manifest = w₁.eng.manifest := by rw [same, manifest₂]
  rw [manifest₂] at saved
  rcases ends_maybeFlush_single resting.inv_frozen single limits₁ flushes with
    ⟨-, rfl⟩ | ⟨-, p, flush⟩
  · -- only the manifest is saved
    have silent := walFlush_silent (w := frozen w) logged.buf flushed
    obtain rfl := did.unique (silent.trans saved)
    rw [manifest']
    exact leaves.survives_saving file resting torn left
  · -- the memtable is flushed first
    have logging : Logging (thawed (frozen w)) := ⟨durable.logging.logs, durable.logging.log⟩
    have thawedLogged : Logged (thawed (frozen w)) rs [] := logged.frame rfl rfl rfl
    have logged₁ := thawedLogged.flushed flush durable.logging.log (Or.inl logged.buf)
    have silent := walFlush_silent logged₁.buf flushed
    have fresh : ∀ q ∈ w.eng.sstReaders, q.1.id ≠ p.1.id := by
      intro q hq same
      have older := resting.inv.tables.fresh q hq
      have isNew : p.1.id = w.eng.nextSstId := flush.id
      rw [same, isNew] at older
      exact absurd older (by simp)
    have shut := shut_of_close resting fits.withinLimits (closesQuietly_of_single single) run
    have emptied : ∀ key, w'.eng.memtable.active.contents.lookup key = none := by
      intro key
      have empty := shut.empty key
      rw [MemTable.versionsOf_none resting'.free] at empty
      exact Option.toList_eq_nil_iff.mp empty
    rcases Flush.cut_saving (w := thawed (frozen w)) flush logging thawedLogged
      (silent.trans saved) manifest' did torn left with cut | cut
    · exact Or.inl cut
    · rw [← left.env] at leaves file
      exact survives_of_flushCut (v := thawed (frozen w)) cut leaves file fresh resting
        (left.history resting.inv.history) (durable.closed resting single fits.withinLimits run)
        resting' emptied

end KvEngine
