import KvEngine.Properties.FlushVisibility
import KvEngine.Properties.SequenceNumbers
import KvEngine.Properties.SparedKeys

/-!
# Snapshots

A snapshot is the next sequence number; a lookup at it skips the versions numbered from
there on.  But the memtable and the merged tables hold one version of each key: a write
replaces the version that the memtable holds, and a compaction keeps the newest version
of those it merges.  The snapshot keeps its value as long as neither hits the version it
sees.
-/

namespace KvEngine

open Foundations Engine

variable {w w₀ w' : World} {key : Bytes} {snap : Snapshot} {t : Nat}

/-- The inner value that a lookup at the snapshot finds: of the version the memtable
answers with and those in the tables, the first that the snapshot may see. -/
def seenAt (e : Engine) (snap : Snapshot) (key : Bytes) : Option Bytes :=
  ((e.memtable.versionsOf key).head?.toList ++
    versionsIn key e.sstReaders.reverse).findSome? (seenBy snap)

/-- What the snapshot sees of the key in the tables once `level` is compacted. -/
def seenAfter (w : World) (level : Nat) (snap : Snapshot) (key : Bytes) : Option Bytes :=
  ((((merged w.eng.manifest w.eng.sstReaders level).lookup key).filter
      (fun v => (shown (examinedAt w level key) v).isSome)).toList ++
    w.eng.leftVersions level key).findSome? (seenBy snap)

/-- Compacting `level` spares what the snapshot sees of the key: the memtable's version is
the one that it sees, or it finds the same in the tables afterwards, or nothing shows in
either case. -/
def SparesSeen (w : World) (level : Nat) (snap : Snapshot) (key : Bytes) : Prop :=
  (w.eng.memtable.versionsOf key).head?.bind (seenBy snap) = none →
    seenAfter w level snap key = seenAt w.eng snap key ∨
      ∀ t, w.sys.Reads t → (seenAt w.eng snap key).bind (shownInner t) = none ∧
        (seenAfter w level snap key).bind (shownInner t) = none

/-- The call writes the key only if the version in the memtable is not one that the
snapshot sees, and its compactions spare what the snapshot sees. -/
structure Call.SparesSeen (call : Call) (w : World) (snap : Snapshot) (key : Bytes) : Prop where
  writes : key ∈ call.keys → (w.eng.memtable.versionsOf key).head?.bind (seenBy snap) = none
  compactions : ∀ level w', AtCompaction w call level w' → KvEngine.SparesSeen w' level snap key

/-! ## What a step leaves of it -/

theorem Sys.Extends.reads {s s' : Sys} (goesOn : s.Extends s') (reads : s'.Reads t) : s.Reads t := by
  obtain ⟨n, notBefore, read⟩ := reads
  exact ⟨n, goesOn.ticks_le.trans notBefore, by rw [read, goesOn.env]⟩

/-- From now on a lookup at the snapshot finds `found`. -/
def Isolated (snap : Snapshot) (key : Bytes) (found : Option Bytes) (w : World) : Prop :=
  ∀ t, w.sys.Reads t → (seenAt w.eng snap key).bind (shownInner t) = found

theorem Isolated.of_seenAt {found : Option Bytes} (isolated : Isolated snap key found w)
    (goesOn : w.sys.Extends w'.sys) (same : seenAt w'.eng snap key = seenAt w.eng snap key) :
    Isolated snap key found w' := by
  intro t reads
  rw [same]
  exact isolated t (goesOn.reads reads)

/-- A version with a number from the snapshot's on is skipped. -/
theorem seenBy_encodeWithSeq {value : Bytes} {seq : Nat} (fits : seq < u64Limit)
    (later : snap.seq ≤ seq) : seenBy snap (encodeWithSeq value seq) = none := by
  simp only [seenBy, decodeWithSeq_eq, seqOf_encodeWithSeq value fits]
  rw [if_neg (not_lt.mpr later)]

/-- Where the memtable's version is skipped, the snapshot looks at the tables. -/
theorem seenAt_of_skipped {e : Engine}
    (skipped : (e.memtable.versionsOf key).head?.bind (seenBy snap) = none) :
    seenAt e snap key = (versionsIn key e.sstReaders.reverse).findSome? (seenBy snap) := by
  rw [seenAt, List.findSome?_append]
  cases newest : (e.memtable.versionsOf key).head? with
  | none => rfl
  | some v =>
      rw [newest, Option.bind_some] at skipped
      rw [Option.toList_some, List.findSome?_singleton, skipped, Option.none_or]

/-- Storing leaves what the snapshot sees, if it does not replace it. -/
theorem seenAt_stored {s : Store} {seqs : Nat} (accepted : Accepted w [s] seqs w') (inv : Inv w)
    (free : w.eng.memtable.immutable = none) (hidden : seenBy snap s.value = none)
    (skipped : s.record.key = key →
      (w.eng.memtable.versionsOf key).head?.bind (seenBy snap) = none) :
    seenAt w'.eng snap key = seenAt w.eng snap key := by
  have tables : w'.eng.sstReaders = w.eng.sstReaders := by
    obtain ⟨wal, memtable, metrics, eng⟩ := accepted.eng
    rw [eng]
  by_cases same : s.record.key = key
  · have newest : (w'.eng.memtable.versionsOf key).head? = some s.value := by
      have versions := accepted.versionsOf_single inv free
      rw [Engine.versionsOf, tables, ← List.singleton_append] at versions
      rw [← same, List.append_cancel_right versions]
      rfl
    rw [seenAt_of_skipped (skipped same), seenAt_of_skipped (by rw [newest]; exact hidden), tables]
  · have memtable : w'.eng.memtable.versionsOf key = w.eng.memtable.versionsOf key :=
      accepted.memtable.versionsOf_of_notMem inv.memtable fun b hb => by
        obtain rfl := List.mem_singleton.mp hb
        exact same
    rw [seenAt, memtable, tables, seenAt]

/-- A compaction leaves the memtable, and of the tables what it does not merge. -/
theorem Engine.Compaction.seenAt_eq {level : Nat} {added : Option Table}
    (compaction : Compaction w level (examinedAt w level) added w') :
    seenAt w'.eng snap key =
      ((w.eng.memtable.versionsOf key).head?.bind (seenBy snap)).or (seenAfter w level snap key) := by
  have tables := compaction.versionsOf_after key
  rw [Engine.versionsOf, compaction.memtable_eq, List.append_assoc] at tables
  rw [seenAt, compaction.memtable_eq, List.append_cancel_left tables, List.findSome?_append, seenAfter]
  cases (w.eng.memtable.versionsOf key).head? with
  | none => rfl
  | some v => rw [Option.toList_some, List.findSome?_singleton, Option.bind_some]

/-- A compaction that spares what the snapshot sees keeps what a lookup at it finds. -/
theorem Isolated.compacted {found : Option Bytes} {level : Nat} {added : Option Table}
    (isolated : Isolated snap key found w)
    (compaction : Compaction w level (examinedAt w level) added w')
    (spares : SparesSeen w level snap key) : Isolated snap key found w' := by
  intro t reads
  have readsBefore := compaction.did.reads reads
  have before := isolated t readsBefore
  rw [compaction.seenAt_eq]
  cases newest : (w.eng.memtable.versionsOf key).head?.bind (seenBy snap) with
  | some v =>
      have seen : seenAt w.eng snap key = some v := by
        rw [seenAt, List.findSome?_append]
        cases inMemory : (w.eng.memtable.versionsOf key).head? with
        | none =>
            rw [inMemory] at newest
            cases newest
        | some x =>
            rw [inMemory, Option.bind_some] at newest
            rw [Option.toList_some, List.findSome?_singleton, newest, Option.some_or]
      rwa [seen] at before
  | none =>
      rw [Option.none_or]
      rcases spares newest with same | hidden
      · rw [same]
        exact before
      · rw [(hidden t readsBefore).2, ← before, (hidden t readsBefore).1]

/-- **One write** by `put` or `delete` that spares what the snapshot sees. -/
theorem Isolated.of_call {found : Option Bytes} {call : Call} (isolated : Isolated snap key found w)
    (resting : Resting w) (behind : snap.seq ≤ w.eng.nextSeq) (plain : call.Plain)
    (keys : call.KeysFit) (limits : WithinLimits w'.sys) (run : Ends call.run w () w')
    (spares : call.SparesSeen w snap key) : Isolated snap key found w' := by
  obtain ⟨w₁, storing, -⟩ := Engine.ends_call run
  obtain ⟨-, small⟩ := ends_store_now storing
  obtain ⟨s, single, hidden⟩ : ∃ s, call.stores w.eng.nextSeq w.sys.time = [s] ∧
      seenBy snap s.value = none := by
    cases call with
    | put k v => exact ⟨_, rfl, seenBy_encodeWithSeq (Nat.lt_of_succ_lt (small rfl)) behind⟩
    | delete k => exact ⟨_, rfl, seenBy_encodeWithSeq (Nat.lt_of_succ_lt (small rfl)) behind⟩
    | putWithTtl k v ttl => cases plain
    | writeBatch batch => cases plain
  have written : s.record.key ∈ call.keys := by
    rw [← call.keys_stores w.eng.nextSeq w.sys.time, single]
    exact List.mem_singleton_self _
  have kept : (w'.eng.memtable.immutable ≠ none →
      w'.eng.memtable.active.contents = SortedMap.empty) ∧ Isolated snap key found w' := by
    refine resting.inv.call_keeps keys limits run (P := fun w => (w.eng.memtable.immutable ≠ none →
      w.eng.memtable.active.contents = SortedMap.empty) ∧ Isolated snap key found w) ?_ ?_ ?_
    · intro w₁ accepted goesOn
      rw [single] at accepted
      exact ⟨accepted.active_empty resting, isolated.of_seenAt goesOn
        (seenAt_stored accepted resting.inv resting.free hidden
          fun same => spares.writes (same ▸ written))⟩
    · intro w₁ imm p w₂ isFrozen flush map held
      have waiting : w₁.eng.memtable.immutable ≠ none := by
        rw [isFrozen]
        exact Option.some_ne_none imm
      have goesOn : w₁.sys.Extends w₂.sys := flush.did
      refine ⟨fun frozen => ?_, held.2.of_seenAt goesOn ?_⟩
      · obtain ⟨metrics, eng⟩ := flush.eng
        rw [eng] at frozen
        exact absurd rfl frozen
      · rw [seenAt, flush.newestFirst_eq isFrozen map (held.1 waiting) key, seenAt]
    · intro level w₁ w₂ point inv limits₂ compacts held
      obtain ⟨added, compaction, -⟩ := ends_compactLevel_examined inv limits₂ compacts
      refine ⟨?_, held.2.compacted compaction (spares.compactions level w₁ point)⟩
      rw [compaction.memtable_eq]
      exact held.1
  exact kept.2

/-! ## Isolation -/

/-- The request writes by `put` or `delete` and spares what the snapshot sees. -/
def Request.Isolating (snap : Snapshot) (key : Bytes) (w : World) (request : Request) : Prop :=
  ∀ call, request = .write call → call.Plain ∧ call.SparesSeen w snap key

/-- In a later run that spares what the snapshot sees, the lookup goes on finding it. -/
theorem Later.isolated {found : Option Bytes} (later : Later (fun w r => r.Isolating snap key w) w w')
    (resting : Resting w) (behind : snap.seq ≤ w.eng.nextSeq) (limits : WithinLimits w'.sys)
    (isolated : Isolated snap key found w) :
    Resting w' ∧ snap.seq ≤ w'.eng.nextSeq ∧ Isolated snap key found w' := by
  induction later with
  | now => exact ⟨resting, behind, isolated⟩
  | @served w₁ w₂ request response before keys meets run inductionHypothesis =>
      have goesOn := (extending_request request _ _ _ run).sys
      obtain ⟨resting₁, behind₁, isolated₁⟩ := inductionHypothesis (limits.of_extends goesOn)
      refine ⟨resting₁.ends_request keys limits run, ?_⟩
      rcases resting₁.ends_request_cases run with ⟨call, rfl, ran⟩ | observed
      · obtain ⟨plain, spares⟩ := meets call rfl
        obtain ⟨-, t, w₃, -, accepted, -, flushing, -⟩ := resting₁.ends_call keys limits ran
        refine ⟨?_, isolated₁.of_call resting₁ behind₁ plain keys limits ran spares⟩
        rw [flushing.kept.1, accepted.nextSeq_eq]
        exact Nat.le_add_right_of_le behind₁
      · obtain ⟨c, m, n, rfl⟩ := observed.world
        exact ⟨behind₁, isolated₁.of_seenAt goesOn rfl⟩

/-- Plain writes store no batch. -/
theorem unnumberedBatch_of_plain {request : Request} (plain : PlainWrites w request) :
    UnnumberedBatch w request := by
  cases request with
  | write call =>
      cases call with
      | writeBatch batch => exact (plain _ rfl).elim
      | _ => trivial
  | _ => trivial

/-- A run may be seen under weaker conditions. -/
theorem ReachedBy.weaken {env : Env} {Serves Serves' : World → Request → Prop}
    {Opens Opens' : Sys → Prop} (reached : ReachedBy env Serves Opens w)
    (serves : ∀ w request, Serves w request → Serves' w request)
    (opens : ∀ s, Opens s → Opens' s) : ReachedBy env Serves' Opens' w := by
  induction reached with
  | opened run => exact .opened run
  | served _ keys meets run inductionHypothesis =>
      exact .served inductionHypothesis keys (serves _ _ meets) run
  | reopened _ left meets run keys inductionHypothesis =>
      exact .reopened inductionHypothesis left (opens _ meets) run keys

/-- **A snapshot keeps its value** in every later run by `put` and `delete` whose writes and
compactions spare the version it sees, if this version does not expire. -/
theorem snapshot_isolated {env : Env} (reached : ReachedBy env PlainWrites (fun _ => False) w₀)
    (later : Later (fun w r => r.Isolating w₀.eng.snapshot key w) w₀ w)
    (fits : FilesFit w.sys)
    (steady : ∀ t, w₀.sys.Reads t → w₀.eng.visible t key = w₀.eng.visible w₀.sys.time key) :
    answer (getAt key w₀.eng.snapshot) w = answer (get key) w₀ := by
  have fits₀ := fits.of_extends later.extends
  have resting₀ := reached.resting fits₀
  have below := (reached.weaken (fun _ _ => unnumberedBatch_of_plain)
    (fun _ => False.elim)).seqsBelow fits₀
  have seen : seenAt w₀.eng w₀.eng.snapshot key = (w₀.eng.versionsOf key).head?.map innerOf := by
    have single : (w₀.eng.memtable.versionsOf key).head?.toList =
        w₀.eng.memtable.versionsOf key := by
      rw [MemTable.versionsOf_none resting₀.free]
      cases w₀.eng.memtable.active.contents.lookup key <;> rfl
    rw [seenAt, single, ← Engine.versionsOf]
    exact findSome?_seenBy fun v member => below.every.of_mem_versionsOf member
  have start : Isolated w₀.eng.snapshot key (w₀.eng.visible w₀.sys.time key) w₀ := by
    intro t reads
    rw [← steady t reads, seen, visible]
    cases (w₀.eng.versionsOf key).head? <;> rfl
  obtain ⟨resting, -, isolated⟩ := later.isolated resting₀ le_rfl fits.withinLimits start
  obtain ⟨w', -, run⟩ := getAt_run_newest resting.inv key w₀.eng.snapshot
  rw [answer_of_ok run, answer_get resting₀.inv]
  exact congrArg Except.ok (isolated w.sys.time w.sys.reads_time)

/-! ## Two writes -/

/-- A snapshot between two writes in a new directory that freeze nothing: what is found
before the second one, and what a lookup at the snapshot finds after it. -/
theorem exists_two_puts (k k' v v' : Bytes) (found later : Option Bytes)
    (short : k.length < 2 ^ 16)
    (passed : sessionPasses {} .steady [.put k v] (fun w₀ =>
      passes (Call.put k' v').store w₀ (fun _ w => w.eng.memtable.immutable.isNone) &&
        passes (get k) w₀ (fun x _ => x == found) &&
        passes (put k' v') w₀ (fun _ w =>
          passes (getAt k w₀.eng.snapshot) w (fun x _ => x == later) &&
            decide ((w.sys.journal.map FsOp.added).sum < 2 ^ 32))) = true) :
    ∃ w₀ w, ReachedBy .steady PlainWrites (fun _ => False) w₀ ∧ w₀.sys.ClockAt 1700000000 ∧
      (∀ level w', ¬ AtCompaction w₀ (.put k' v') level w') ∧
      Ends (Request.write (.put k' v')).run w₀ .done w ∧ FilesFit w.sys ∧
      answer (get k) w₀ = .ok found ∧ answer (getAt k w₀.eng.snapshot) w = .ok later := by
  obtain ⟨e, s, w₀, opened, ran, -, tested⟩ := exists_session _ _ _ _ passed
  simp only [Bool.and_eq_true] at tested
  obtain ⟨⟨storing, before⟩, putting⟩ := tested
  obtain ⟨u, w₁, stored, free⟩ := ends_of_passes storing
  obtain ⟨x, w₂, got, same⟩ := ends_of_passes before
  obtain ⟨u', w, run, rest⟩ := ends_of_passes putting
  obtain ⟨gets, few⟩ := Bool.and_eq_true_iff.mp rest
  obtain ⟨x', w₃, got', same'⟩ := ends_of_passes gets
  have keys : ∀ call ∈ [Call.put k v], call.KeysFit := by
    intro call member
    obtain rfl := List.mem_singleton.mp member
    intro key isKey
    obtain rfl := List.mem_singleton.mp isKey
    exact short
  have plain : ∀ call ∈ [Call.put k v], ∀ w, ReachedBy .steady PlainWrites (fun _ => False) w →
      PlainWrites w (.write call) := by
    intro call member w _ call' same
    obtain rfl := List.mem_singleton.mp member
    cases same
    trivial
  have reached : ReachedBy .steady PlainWrites (fun _ => False) w₀ :=
    (ReachedBy.opened opened).runCalls keys plain ran
  have still : w₀.sys.ClockAt 1700000000 := fun n _ => by
    rw [reached.env_eq]
    rfl
  refine ⟨w₀, w, reached, still,
    not_atCompaction_of_unfrozen stored (Option.isNone_iff_eq_none.mp free), ends_write run,
    filesFit_of_added (of_decide_eq_true few), ?_, ?_⟩
  · rw [answer_of_ok got, eq_of_beq same]
  · rw [answer_of_ok got', eq_of_beq same']

/-- The key is overwritten: the older value, which was compacted before, is in a table of its own
and is what the snapshot goes on seeing. -/
theorem snapshot_isolated_overwritten : ∃ w₀ w, Ends (Request.write (.put [1] [8])).run w₀ .done w ∧
    w₀.eng.metrics.compactions = 1 ∧ answer (get [1]) w = .ok (some [8]) ∧
      answer (getAt [1] w₀.eng.snapshot) w = answer (get [1]) w₀ := by
  have keys : ∀ c ∈ [Call.put [1] [8], .put [1] [7], .put [2] [5]], c.KeysFit := by
    unfold Call.KeysFit
    decide
  obtain ⟨e, s, w₀, opened, ran, limits, tested⟩ := exists_session
    { memtableSize := 0, l0CompactionThreshold := 2, maxLevels := 2 } .steady
    [.put [1] [7], .put [2] [5]] (fun w₀ =>
      decide ((w₀.eng.manifest.sstsAtLevel 0).length + 1 < w₀.eng.opts.l0CompactionThreshold ∧
        w₀.eng.opts.maxLevels ≤ 2 ∧ w₀.eng.metrics.compactions = 1 ∧
        w₀.eng.memtable.versionsOf [1] = []) &&
      passes (Call.put [1] [8]).run w₀ fun _ w => passes (get [1]) w (fun x _ => x == some [8]) &&
        decide ((w.sys.journal.map FsOp.added).sum < 2 ^ 32)) (by decide +kernel)
  obtain ⟨start, putting⟩ := Bool.and_eq_true_iff.mp tested
  obtain ⟨below, levels, once, absent⟩ := of_decide_eq_true start
  obtain ⟨u, w, run, rest⟩ := ends_of_passes putting
  obtain ⟨gets, few⟩ := Bool.and_eq_true_iff.mp rest
  have fits := filesFit_of_added (of_decide_eq_true few)
  have before : ∀ c ∈ [Call.put [1] [7], .put [2] [5]], c.KeysFit :=
    fun c member => keys c (List.mem_cons_of_mem _ member)
  have plain : ∀ c ∈ [Call.put [1] [7], .put [2] [5]], c.Plain := by simp [Call.Plain]
  have reached : ReachedBy .steady PlainWrites (fun _ => False) w₀ :=
    (ReachedBy.opened opened).runCalls before (fun c member _ _ call' same => by
      cases same
      exact plain c member) ran
  have still : w₀.sys.ClockAt 1700000000 := fun n _ => by
    rw [reached.env_eq]
    rfl
  obtain ⟨session, -⟩ := (started opened).inSession.ends_runCalls (P := fun _ => True) before
    limits ran trivial fun _ _ _ _ _ _ _ _ _ _ => trivial
  have quiet := session.not_atCompaction levels below (keys _ List.mem_cons_self)
    fits.withinLimits run
  have fitsKey : (Request.write (.put [1] [8])).KeysFit := keys _ List.mem_cons_self
  refine ⟨w₀, w, ends_write run, once, answer_of_passes gets,
    snapshot_isolated reached (.served .now fitsKey ?_ (ends_write run)) fits ?_⟩
  · intro call same
    cases same
    refine ⟨trivial, fun _ => ?_, fun level w' point => absurd point (quiet level w')⟩
    rw [absent]
    rfl
  · intro t reads
    rw [still.eq_of_reads reads, still.time]

/-- Every snapshot keeps its values in every later run by `put` and `delete`. -/
def SnapshotsIsolated : Prop :=
  ∀ (env : Env) (w₀ w : World) (key : Bytes), ReachedBy env PlainWrites (fun _ => False) w₀ →
    Later PlainWrites w₀ w → FilesFit w.sys →
    answer (getAt key w₀.eng.snapshot) w = answer (get key) w₀

/-- **An overwritten version** is gone: the memtable holds one version of each key. -/
theorem not_snapshotsIsolated : ¬ SnapshotsIsolated := by
  intro isolated
  obtain ⟨w₀, w, reached, -, -, run, fits, before, after⟩ :=
    exists_two_puts [1] [1] [7] [8] (some [7]) none (by decide) (by decide +kernel)
  have keys : (Request.write (.put [1] [8])).KeysFit := by
    show (Call.put [1] [8]).KeysFit
    unfold Call.KeysFit
    decide
  have plain : PlainWrites w₀ (.write (.put [1] [8])) := by
    intro call same
    cases same
    trivial
  have same := isolated _ w₀ w [1] reached (.served .now keys plain run) fits
  rw [before, after] at same
  cases same

end KvEngine
