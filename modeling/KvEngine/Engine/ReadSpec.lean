import KvEngine.Engine.Invariant

/-!
# What reads answer

Every read answers from `versionsOf`: a lookup shows the newest version of the
key, a lookup at a snapshot the newest one the snapshot may see, and a range read
the newest version of each key in the range.  Reads change only the cache, the
counters and the number of clock readings.
-/

namespace KvEngine

open Foundations

/-- From `w` to `w'` only cache, counters and clock changed. -/
structure Observed (w w' : World) : Prop where
  world : ∃ blockCache metrics n, w' = ⟨{ w.eng with blockCache, metrics }, w.sys.later n⟩
  inv : Inv w'

namespace Observed

variable {w w' w'' : World}

theorem refl (inv : Inv w) : Observed w w := ⟨⟨_, _, 0, rfl⟩, inv⟩

theorem trans (first : Observed w w') (second : Observed w' w'') : Observed w w'' := by
  obtain ⟨c₁, m₁, n₁, rfl⟩ := first.world
  obtain ⟨c₂, m₂, n₂, rfl⟩ := second.world
  exact ⟨⟨c₂, m₂, n₁ + n₂, by rw [Sys.later_later]⟩, second.inv⟩

/-- The cache may change as long as it stays coherent. -/
theorem of_cache (inv : Inv w) {blockCache : Option BlockCache}
    (tables : Tables w.eng.sstReaders w.eng.nextSstId blockCache) :
    Observed w ⟨{ w.eng with blockCache }, w.sys⟩ :=
  ⟨⟨blockCache, w.eng.metrics, 0, rfl⟩, { inv with tables }⟩

/-- Reading the clock changes nothing else. -/
theorem of_later (inv : Inv w) (n : Nat) : Observed w ⟨w.eng, w.sys.later n⟩ :=
  ⟨⟨w.eng.blockCache, w.eng.metrics, n, rfl⟩, { inv with }⟩

theorem versionsOf_eq (observed : Observed w w') (key : Bytes) :
    w'.eng.versionsOf key = w.eng.versionsOf key := by
  obtain ⟨c, m, n, rfl⟩ := observed.world
  rfl

end Observed

namespace Engine

variable {w : World}

/-! ## Single tables and values -/

theorem readTable_run (inv : Inv w) {p : Table} (hp : p ∈ w.eng.sstReaders) (key : Bytes) :
    ∃ w', Observed w w' ∧ w'.sys = w.sys ∧ w'.eng.sstReaders = w.eng.sstReaders ∧
      onCache (p.2.get key) w = .ok (p.map.lookup key) w' := by
  obtain ⟨c, run, tables⟩ := inv.tables.get_ok hp key
  refine ⟨_, .of_cache inv tables, rfl, rfl, ?_⟩
  simp only [onCache, zoom, run]

theorem readAll_run (inv : Inv w) {p : Table} (hp : p ∈ w.eng.sstReaders) :
    ∃ w', Observed w w' ∧ w'.sys = w.sys ∧ w'.eng.sstReaders = w.eng.sstReaders ∧
      onCache p.2.iter w = .ok p.map.entries w' := by
  obtain ⟨c, run, tables⟩ := inv.tables.iter_ok hp
  refine ⟨_, .of_cache inv tables, rfl, rfl, ?_⟩
  simp only [onCache, zoom, run]

theorem unpackInner_onSys (inv : Inv w) (v : Bytes) :
    ∃ w', Observed w w' ∧ onSys (unpackInner v) w = .ok (shownInner w.sys.time v) w' := by
  obtain ⟨n, run⟩ := unpackInner_run w.sys v
  refine ⟨_, .of_later inv n, ?_⟩
  simp only [onSys, zoom, run]

/-! ## Lookup -/

/-- What the engine shows for a key when the clock reads `t`. -/
def visible (e : Engine) (t : Nat) (key : Bytes) : Option Bytes :=
  (e.versionsOf key).head?.bind (shown t)

section Served

variable {truth : CacheKey → Block → Prop}

theorem getFrom_served (served : Served truth w.eng.sstReaders w.eng.blockCache) (key : Bytes)
    {tables : List Table} (open_ : ∀ p ∈ tables, p ∈ w.eng.sstReaders) :
    ∃ c n, SSTableReader.Coherent truth c ∧ getFrom key tables w =
      .ok ((versionsIn key tables).head?.bind (shown w.sys.time))
        ⟨{ w.eng with blockCache := c }, w.sys.later n⟩ := by
  induction tables generalizing w with
  | nil => exact ⟨w.eng.blockCache, 0, served.coherent, rfl⟩
  | cons p rest inductionHypothesis =>
      have hp := open_ p List.mem_cons_self
      obtain ⟨c, run, coherent⟩ :=
        SSTableReader.get_ok (served.holds p hp) served.coherent (served.serves p hp) key
      let w₁ : World := ⟨{ w.eng with blockCache := c }, w.sys⟩
      have read : onCache (p.2.get key) w = .ok (p.map.lookup key) w₁ := by
        simp only [onCache, zoom, run, w₁]
      rw [getFrom, bind_apply_ok read, versionsIn, versions_cons]
      cases answer : p.map.lookup key with
      | some v =>
          obtain ⟨n, shows⟩ := unpackValue_run w.sys v
          refine ⟨c, n, coherent, ?_⟩
          change onSys (unpackValue v) w₁ = _
          simp only [onSys, zoom, w₁, shows]
          rfl
      | none =>
          -- this table does not know the key, so the next one is asked
          obtain ⟨c', n, coherent', later⟩ := inductionHypothesis (w := w₁)
            ⟨served.holds, served.serves, coherent⟩
            (fun q hq => open_ q (List.mem_cons_of_mem _ hq))
          exact ⟨c', n, coherent', later⟩

/-- **`get`** shows the newest version of the key, whatever the manifest lists. -/
theorem get_served (valid : w.eng.memtable.Valid)
    (served : Served truth w.eng.sstReaders w.eng.blockCache) (key : Bytes) :
    ∃ c metrics n, SSTableReader.Coherent truth c ∧ get key w =
      .ok (w.eng.visible w.sys.time key)
        ⟨{ w.eng with blockCache := c, metrics }, w.sys.later n⟩ := by
  let metrics : Metrics := { w.eng.metrics with reads := bump w.eng.metrics.reads }
  let w₁ : World := ⟨{ w.eng with metrics }, w.sys⟩
  have counted : modifySelf (fun e => { e with metrics.reads := bump e.metrics.reads }) w =
      .ok () w₁ := rfl
  rw [get, bind_apply_ok counted, bind_apply_ok (rfl : self w₁ = .ok w₁.eng w₁),
    show w₁.eng.memtable.get key = _ from valid.get_eq key,
    bind_apply_ok (rfl : liftResult _ w₁ = _), visible, versionsOf, List.head?_append]
  cases answer : (w.eng.memtable.versionsOf key).head? with
  | some v =>
      obtain ⟨n, shows⟩ := unpackValue_run w.sys v
      refine ⟨w.eng.blockCache, metrics, n, served.coherent, ?_⟩
      change onSys (unpackValue v) w₁ = _
      simp only [onSys, zoom, w₁, shows]
      rfl
  | none =>
      obtain ⟨c, n, coherent, later⟩ := getFrom_served (w := w₁) served key
        (fun p (hp : p ∈ w.eng.sstReaders.reverse) => List.mem_reverse.mp hp)
      exact ⟨c, metrics, n, coherent, later⟩

end Served

/-- **`get`** shows the newest version of the key. -/
theorem get_run (inv : Inv w) (key : Bytes) :
    ∃ w', Observed w w' ∧
      get key w = .ok ((w.eng.versionsOf key).head?.bind (shown w.sys.time)) w' := by
  obtain ⟨c, metrics, n, coherent, run⟩ := get_served inv.memtable inv.tables.served key
  refine ⟨_, ⟨⟨c, metrics, n, rfl⟩, ?_⟩, run⟩
  exact { inv with tables := { inv.tables with coherent } }

/-! ## Lookup at a snapshot -/

theorem getAtFrom_run (inv : Inv w) (key : Bytes) (snap : Snapshot) {tables : List Table}
    (open_ : ∀ p ∈ tables, p ∈ w.eng.sstReaders) :
    ∃ w', Observed w w' ∧ getAtFrom key snap tables w =
      .ok (((versionsIn key tables).findSome? (seenBy snap)).bind (shownInner w.sys.time)) w' := by
  induction tables generalizing w with
  | nil => exact ⟨w, .refl inv, rfl⟩
  | cons p rest inductionHypothesis =>
      obtain ⟨w₁, observed₁, sys, readers, read⟩ := readTable_run inv (open_ p List.mem_cons_self) key
      obtain ⟨w₂, observed₂, later⟩ := inductionHypothesis observed₁.inv
        (fun q hq => readers ▸ open_ q (List.mem_cons_of_mem _ hq))
      rw [sys] at later
      rw [getAtFrom, bind_apply_ok read, versionsIn, versions_cons]
      cases answer : p.map.lookup key with
      | none => exact ⟨w₂, observed₁.trans observed₂, later⟩
      | some v =>
          simp only [Option.bind_some, Option.toList_some, List.singleton_append,
            List.findSome?_cons]
          cases seen : seenBy snap v with
          | some val =>
              obtain ⟨w₃, observed₃, shows⟩ := unpackInner_onSys observed₁.inv val
              rw [sys] at shows
              exact ⟨w₃, observed₁.trans observed₃, shows⟩
          | none => exact ⟨w₂, observed₁.trans observed₂, later⟩

/-- `get_at` looks at one version of the memtable, the newest one, and then at the
tables. -/
theorem getAt_run_newest (inv : Inv w) (key : Bytes) (snap : Snapshot) :
    ∃ w', Observed w w' ∧ getAt key snap w =
      .ok ((((w.eng.memtable.versionsOf key).head?.toList ++
        versionsIn key w.eng.sstReaders.reverse).findSome? (seenBy snap)).bind
          (shownInner w.sys.time)) w' := by
  obtain ⟨w₁, observed, later⟩ := getAtFrom_run inv key snap
    (fun p (hp : p ∈ w.eng.sstReaders.reverse) => List.mem_reverse.mp hp)
  rw [getAt, bind_apply_ok (rfl : self w = .ok w.eng w), inv.memtable.get_eq key,
    bind_apply_ok (rfl : liftResult _ w = _)]
  cases answer : (w.eng.memtable.versionsOf key).head? with
  | none => exact ⟨w₁, observed, later⟩
  | some v =>
      simp only [Option.toList_some, Option.bind_some, List.singleton_append,
        List.findSome?_cons]
      cases seen : seenBy snap v with
      | some val => exact unpackInner_onSys inv val
      | none => exact ⟨w₁, observed, later⟩

/-- **`get_at`** shows the newest version that the snapshot may see. -/
theorem getAt_run (inv : Inv w) (idle : w.eng.memtable.immutable = none) (key : Bytes)
    (snap : Snapshot) :
    ∃ w', Observed w w' ∧ getAt key snap w =
      .ok (((w.eng.versionsOf key).findSome? (seenBy snap)).bind (shownInner w.sys.time)) w' := by
  have single : (w.eng.memtable.versionsOf key).head?.toList = w.eng.memtable.versionsOf key := by
    rw [MemTable.versionsOf_none idle]
    cases w.eng.memtable.active.contents.lookup key <;> rfl
  have run := getAt_run_newest inv key snap
  rwa [single, ← versionsOf] at run

/-! ## Range reads -/

theorem overlay_run (inv : Inv w) (start stop : Bytes) {tables : List Table}
    (open_ : ∀ p ∈ tables, p ∈ w.eng.sstReaders) (map : SortedMap Bytes Bytes) :
    ∃ w' result, Observed w w' ∧ w'.sys = w.sys ∧ overlay start stop tables map w = .ok result w' ∧
      ∀ key, result.lookup key =
        ((if inRange start stop key then (versionsIn key tables.reverse).head? else none).or
          (map.lookup key)) := by
  induction tables generalizing w map with
  | nil => exact ⟨w, map, .refl inv, rfl, rfl, fun key => by simp [versionsIn]⟩
  | cons p rest inductionHypothesis =>
      obtain ⟨w₁, observed₁, sys, readers, read⟩ := readAll_run inv (open_ p List.mem_cons_self)
      obtain ⟨w₂, result, observed₂, sys₂, later, lookups⟩ := inductionHypothesis observed₁.inv
        (fun q hq => readers ▸ open_ q (List.mem_cons_of_mem _ hq))
        (map.insertAll (p.map.filter (fun b => inRange start stop b.1)).entries)
      refine ⟨w₂, result, observed₁.trans observed₂, sys₂.trans sys, ?_, fun key => ?_⟩
      · rw [overlay, bind_apply_ok read]
        exact later
      · rw [lookups, SortedMap.lookup_insertAll_entries, SortedMap.lookup_filter, List.reverse_cons,
          versionsIn, versionsIn, versions_append, List.head?_append]
        cases within : inRange start stop key with
        | false => cases p.map.lookup key <;> simp [within]
        | true =>
            cases (versions (fun p => p.map.lookup key) rest.reverse).head? with
            | some v => rfl
            | none => cases answer : p.map.lookup key <;> simp [versions_cons, answer, within]

/-- What `scan` shows of an entry when it reads the clock at `t` to decide and at `t'`
to display. -/
def displayed (t t' : Nat) (b : Bytes × Bytes) : Option (Bytes × Bytes) :=
  if (shown t b.2).isSome then some (b.1, (shown t' b.2).getD []) else none

theorem displayValue_run (s : Sys) (v : Bytes) :
    ∃ n, displayValue v s = .ok ((shown s.time v).getD []) (s.later n) := by
  obtain ⟨n, run⟩ := unpackInner_run s (innerOf v)
  refine ⟨n, ?_⟩
  simp only [displayValue, decodeWithSeq_eq]
  rw [bind_apply_ok run]
  rfl

/-- The displayed entries, each with two clock readings of its own. -/
theorem display_run {entries : List (Bytes × Bytes)} (ascending : AscendingKeys entries) (s : Sys) :
    ∃ (t t' : Bytes → Nat) (n : Nat), (∀ k, s.Reads (t k) ∧ s.Reads (t' k)) ∧
      display entries s =
        .ok (entries.filterMap (fun b => displayed (t b.1) (t' b.1) b)) (s.later n) := by
  induction entries generalizing s with
  | nil => exact ⟨fun _ => s.time, fun _ => s.time, 0, fun _ => ⟨s.reads_time, s.reads_time⟩, rfl⟩
  | cons b rest inductionHypothesis =>
      obtain ⟨k, v⟩ := b
      obtain ⟨above, ascendingRest⟩ := List.pairwise_cons.mp ascending
      obtain ⟨n, visible⟩ := isVisible_run s true v
      obtain ⟨m, shows⟩ := displayValue_run (s.later n) v
      -- only a visible entry is displayed, so only then is the clock read again
      obtain ⟨t, t', i, reads, later⟩ := inductionHypothesis ascendingRest
        ((s.later n).later (if (shown s.time v).isSome then m else 0))
      have others : ∀ b ∈ rest, ¬ b.1 = k := fun b hb => (above b hb).ne'
      refine ⟨fun k' => if k' = k then s.time else t k',
        fun k' => if k' = k then (s.later n).time else t' k',
        n + (if (shown s.time v).isSome then m else 0) + i, fun k' => ?_, ?_⟩
      · simp only
        split
        · exact ⟨s.reads_time, (s.later n).reads_time.of_later⟩
        · exact ⟨(reads k').1.of_later.of_later, (reads k').2.of_later.of_later⟩
      · have tail : rest.filterMap (fun b => displayed (if b.1 = k then s.time else t b.1)
            (if b.1 = k then (s.later n).time else t' b.1) b) =
            rest.filterMap (fun b => displayed (t b.1) (t' b.1) b) :=
          List.filterMap_congr fun b hb => by simp only [if_neg (others b hb)]
        rw [display, bind_apply_ok visible, List.filterMap_cons, tail]
        simp only [if_true, displayed, ← Sys.later_later]
        cases answer : (shown s.time v).isSome with
        | true =>
            simp only [answer, if_true] at later ⊢
            rw [bind_apply_ok shows, bind_apply_ok later]
            rfl
        | false =>
            simp only [answer, Bool.false_eq_true, if_false, Sys.later_zero] at later ⊢
            exact later

/-- The entries with the clock readings that `display` takes to decide and to display,
when `n` readings were taken before. -/
def readings (clock : Nat → Nat) : Nat → List (Bytes × Bytes) → List ((Bytes × Bytes) × Nat × Nat)
  | _, [] => []
  | n, b :: rest =>
      let second := n + clockReads b.2
      let next := second + if (shown (clock n) b.2).isSome then clockReads b.2 else 0
      (b, clock n, clock second) :: readings clock next rest

theorem displayValue_reads (s : Sys) {v : Bytes} (alive : innerOf v ≠ tombstone) :
    displayValue v s = .ok ((shown s.time v).getD []) (s.later (clockReads v)) := by
  have shows : unpackInner (innerOf v) s =
      .ok (shownInner s.time (innerOf v)) (s.later (clockReads v)) := by
    rw [unpackInner, if_neg alive, unwrapTtl_reads s _ alive, clockReads]
  simp only [displayValue, decodeWithSeq_eq]
  rw [bind_apply_ok shows]
  rfl

/-- Every entry is displayed at its own readings. -/
theorem display_reads (entries : List (Bytes × Bytes)) (s : Sys) :
    ∃ n, display entries s =
      .ok ((readings s.env.clock s.ticks entries).filterMap
        (fun r => displayed r.2.1 r.2.2 r.1)) (s.later n) := by
  induction entries generalizing s with
  | nil => exact ⟨0, rfl⟩
  | cons b rest inductionHypothesis =>
      obtain ⟨k, v⟩ := b
      -- only a visible entry is displayed, so only then is the clock read again
      obtain ⟨n, later⟩ := inductionHypothesis
        ((s.later (clockReads v)).later (if (shown s.time v).isSome then clockReads v else 0))
      have first : s.env.clock s.ticks = s.time := rfl
      have second : s.env.clock (s.ticks + clockReads v) = (s.later (clockReads v)).time := rfl
      refine ⟨clockReads v + (if (shown s.time v).isSome then clockReads v else 0) + n, ?_⟩
      rw [display, bind_apply_ok (isVisible_reads s true v), readings, List.filterMap_cons]
      simp only [displayed, first, second, ← Sys.later_later]
      cases answer : (shown s.time v).isSome with
      | true =>
          have alive : innerOf v ≠ tombstone := by
            intro dead
            rw [shown, dead, shownInner_tombstone] at answer
            cases answer
          simp only [answer, if_true] at later ⊢
          rw [bind_apply_ok (displayValue_reads _ alive), bind_apply_ok later]
          rfl
      | false =>
          simp only [answer, Bool.false_eq_true, if_false, Sys.later_zero] at later ⊢
          exact later

/-- What `scan` does is to display the newest version of each key in the range. -/
theorem scan_display (inv : Inv w) (start stop : Bytes) :
    ∃ (w₁ : World) (map : SortedMap Bytes Bytes), Observed w w₁ ∧ w₁.sys = w.sys ∧
      (∀ key, map.lookup key =
        if inRange start stop key then (w.eng.versionsOf key).head? else none) ∧
      scan start stop w = onSys (display map.entries) w₁ := by
  obtain ⟨w₁, older, observed₁, sys, overlays, lookups⟩ := overlay_run inv start stop
    (fun p (hp : p ∈ w.eng.sstReaders) => hp) SortedMap.empty
  obtain ⟨recent, scans, recentLookups⟩ := inv.memtable.scan_eq start stop
  refine ⟨w₁, older.insertAll recent.entries, observed₁, sys, fun key => ?_, ?_⟩
  · rw [SortedMap.lookup_insertAll_entries, recentLookups, lookups, SortedMap.lookup_empty,
      Option.or_none, versionsOf, List.head?_append]
    by_cases within : start ≤ key ∧ key < stop
    · simp [inRange, within]
    · simp [inRange, within]
  · rw [scan, bind_apply_ok (rfl : self w = .ok w.eng w), bind_apply_ok overlays, scans,
      bind_apply_ok (rfl : liftResult _ w₁ = _)]

/-- **`scan`** shows the newest version of each key in the range, in ascending order. -/
theorem scan_run (inv : Inv w) (start stop : Bytes) :
    ∃ (w' : World) (map : SortedMap Bytes Bytes) (t t' : Bytes → Nat), Observed w w' ∧
      (∀ key, map.lookup key =
        if inRange start stop key then (w.eng.versionsOf key).head? else none) ∧
      (∀ k, w.sys.Reads (t k) ∧ w.sys.Reads (t' k)) ∧
      scan start stop w =
        .ok (map.entries.filterMap (fun b => displayed (t b.1) (t' b.1) b)) w' := by
  obtain ⟨w₁, map, observed, sys, lookups, displays⟩ := scan_display inv start stop
  obtain ⟨t, t', n, reads, shows⟩ := display_run map.ascending w₁.sys
  refine ⟨_, map, t, t', observed.trans (.of_later observed.inv n), lookups, sys ▸ reads, ?_⟩
  simp only [displays, onSys, zoom, shows]

/-- `scan` with the readings that it takes. -/
theorem answer_scan_reads (inv : Inv w) (start stop : Bytes) :
    ∃ map : SortedMap Bytes Bytes,
      (∀ key, map.lookup key =
        if inRange start stop key then (w.eng.versionsOf key).head? else none) ∧
      answer (scan start stop) w =
        .ok ((readings w.sys.env.clock w.sys.ticks map.entries).filterMap
          (fun r => displayed r.2.1 r.2.2 r.1)) := by
  obtain ⟨w₁, map, -, sys, lookups, displays⟩ := scan_display inv start stop
  obtain ⟨n, shows⟩ := display_reads map.entries w₁.sys
  have run : scan start stop w = .ok ((readings w.sys.env.clock w.sys.ticks map.entries).filterMap
      (fun r => displayed r.2.1 r.2.2 r.1)) ⟨w₁.eng, w₁.sys.later n⟩ := by
    rw [← sys]
    simp only [displays, onSys, zoom, shows]
  exact ⟨map, lookups, answer_of_ok run⟩

/-! ## What a reader sees -/

/-- **`get`** answers with what is visible. -/
theorem answer_get (inv : Inv w) (key : Bytes) :
    answer (get key) w = .ok (w.eng.visible w.sys.time key) := by
  obtain ⟨w', -, run⟩ := get_run inv key
  exact answer_of_ok run

/-- **`scan`** lists what is visible in the range, when the clock stands still. -/
theorem answer_scan (inv : Inv w) {t : Nat} (still : w.sys.ClockAt t) (start stop : Bytes) :
    ∃ map : SortedMap Bytes Bytes, answer (scan start stop) w = .ok map.entries ∧
      ∀ key, map.lookup key = if inRange start stop key then w.eng.visible t key else none := by
  obtain ⟨w', map, t₁, t₂, -, lookups, reads, run⟩ := scan_run inv start stop
  refine ⟨map.filterMapValues (shown t), ?_, fun key => ?_⟩
  · rw [answer_of_ok run]
    refine congrArg Except.ok (List.filterMap_congr fun b _ => ?_)
    rw [still.eq_of_reads (reads b.1).1, still.eq_of_reads (reads b.1).2, displayed]
    cases shown t b.2 <;> rfl
  · rw [SortedMap.lookup_filterMapValues, lookups, visible]
    split <;> rfl

/-- Every read answers alike in both worlds. -/
def SameReads (w w' : World) : Prop :=
  (∀ key, answer (get key) w' = answer (get key) w) ∧
    ∀ start stop, answer (scan start stop) w' = answer (scan start stop) w

/-- **Reads are determined by what is visible**, when the clock stands still. -/
theorem sameReads_iff {w' : World} (inv : Inv w) (inv' : Inv w') {t : Nat} (still : w.sys.ClockAt t)
    (still' : w'.sys.ClockAt t) :
    SameReads w w' ↔ ∀ key, w'.eng.visible t key = w.eng.visible t key := by
  constructor
  · rintro ⟨gets, -⟩ key
    have same := gets key
    rw [answer_get inv, answer_get inv', still.time, still'.time] at same
    exact Except.ok.inj same
  · intro same
    refine ⟨fun key => ?_, fun start stop => ?_⟩
    · rw [answer_get inv, answer_get inv', still.time, still'.time, same]
    · obtain ⟨map, scans, lookups⟩ := answer_scan inv still start stop
      obtain ⟨map', scans', lookups'⟩ := answer_scan inv' still' start stop
      rw [scans, scans']
      have equal : map' = map := SortedMap.ext fun key => by rw [lookups, lookups', same]
      rw [equal]

end Engine

end KvEngine
