import KvEngine.Engine.ReadSpec
import KvEngine.Engine.Requests
import KvEngine.Engine.Session
import KvEngine.Engine.Stored

/-!
# Reachable states

A state is reached from an empty directory by requests that return `Ok` and by
opening the directory again, with any options, after the engine was closed,
dropped or killed.  `Resting` holds in every such state.
-/

namespace KvEngine

open Foundations Engine

variable {w w' : World} {u : Unit}

/-- What holds between two requests, also when some have failed. -/
structure Unharmed (w : World) : Prop where
  inv : Inv w
  onDisk : OnDisk w
  free : w.eng.memtable.immutable = none
  ids : w.eng.nextSstId < u64Limit

/-- What holds between two requests as long as none fails: the manifest on disk is not behind. -/
structure Resting (w : World) : Prop extends Unharmed w where
  manifest : Saved w.sys.dir w.eng.manifest

theorem Resting.stored (resting : Resting w) : Stored w :=
  ⟨resting.onDisk.files, resting.manifest, resting.onDisk.log⟩

theorem Unharmed.resting (unharmed : Unharmed w) (stored : Stored w) : Resting w :=
  ⟨unharmed, stored.manifest⟩

/-! ## Requests extend the world -/

namespace Engine

theorem extending_getFrom (key : Bytes) (tables : List Table) : Extending (getFrom key tables) := by
  induction tables with
  | nil => exact .pure _
  | cons p rest inductionHypothesis =>
      refine (Extending.onCache _).bind fun v => ?_
      cases v with
      | some v => exact .onSys (advances_unpackValue v)
      | none => exact inductionHypothesis

theorem extending_get (key : Bytes) : Extending (get key) := by
  refine Extending.bind (.modifySelf fun _ => rfl) fun _ => Extending.self.bind fun e =>
    (Extending.liftResult _).bind fun v => ?_
  cases v with
  | some v => exact .onSys (advances_unpackValue v)
  | none => exact extending_getFrom key _

theorem extending_getAtFrom (key : Bytes) (snap : Snapshot) (tables : List Table) :
    Extending (getAtFrom key snap tables) := by
  induction tables with
  | nil => exact .pure _
  | cons p rest inductionHypothesis =>
      refine (Extending.onCache _).bind fun v => ?_
      cases v.bind (seenBy snap) with
      | some v => exact .onSys (advances_unpackInner v)
      | none => exact inductionHypothesis

theorem extending_getAt (key : Bytes) (snap : Snapshot) : Extending (getAt key snap) := by
  refine Extending.self.bind fun e => (Extending.liftResult _).bind fun v => ?_
  cases v.bind (seenBy snap) with
  | some v => exact .onSys (advances_unpackInner v)
  | none => exact extending_getAtFrom key snap _

theorem extending_overlay (start stop : Bytes) (tables : List Table) (map : SortedMap Bytes Bytes) :
    Extending (overlay start stop tables map) := by
  induction tables generalizing map with
  | nil => exact .pure _
  | cons p rest inductionHypothesis =>
      exact (Extending.onCache _).bind fun _ => inductionHypothesis _

theorem advances_displayValue (v : Bytes) : Advances Sys.Extends (displayValue v) :=
  advances_of_later fun s => ⟨_, displayValue_run s v⟩

theorem advances_display (entries : List (Bytes × Bytes)) :
    Advances Sys.Extends (display entries) := by
  induction entries with
  | nil => exact advances_pure Sys.Extends.refl _
  | cons b rest inductionHypothesis =>
      refine Sys.Extends.bind (advances_isVisible _ _) fun visible => ?_
      split
      · exact Sys.Extends.bind (advances_displayValue _) fun _ =>
          Sys.Extends.bind inductionHypothesis fun _ => advances_pure Sys.Extends.refl _
      · exact inductionHypothesis

theorem extending_scan (start stop : Bytes) : Extending (scan start stop) :=
  Extending.self.bind fun _ => (extending_overlay _ _ _ _).bind fun _ =>
    (Extending.liftResult _).bind fun _ => .onSys (advances_display _)

theorem extending_close : Extending close :=
  extending_maybeFlush.bind fun _ => Extending.bind (.modifySelf fun _ => rfl) fun _ =>
    extending_maybeFlush.bind fun _ => extending_walFlush.bind fun _ => extending_saveManifest

end Engine

theorem extending_request (request : Request) : Extending request.run := by
  cases request with
  | write call => exact (extending_call call).bind fun _ => .pure _
  | get key => exact (extending_get key).bind fun _ => .pure _
  | getAt key snap => exact (extending_getAt key snap).bind fun _ => .pure _
  | scan start stop => exact (extending_scan start stop).bind fun _ => .pure _

/-! ## Requests keep the invariant -/

/-- The keys that the request writes fit the block format. -/
def Request.KeysFit : Request → Prop
  | .write call => call.KeysFit
  | _ => True

theorem Observed.unharmed (observed : Observed w w') (unharmed : Unharmed w) : Unharmed w' := by
  have inv := observed.inv
  obtain ⟨c, m, n, rfl⟩ := observed.world
  exact ⟨inv, unharmed.onDisk.frame rfl rfl (w.sys.did_later n) (by simp), unharmed.free,
    unharmed.ids⟩

theorem Observed.resting (observed : Observed w w') (resting : Resting w) : Resting w' := by
  have unharmed := observed.unharmed resting.toUnharmed
  obtain ⟨c, m, n, rfl⟩ := observed.world
  exact ⟨unharmed, resting.manifest⟩

/-- A call that writes, in any state between two requests. -/
theorem Unharmed.ends_call (unharmed : Unharmed w) {call : Call} (keys : call.KeysFit)
    (limits : WithinLimits w'.sys) (run : Ends call.run w u w') :
    Unharmed w' ∧ ∃ t w₁, w.sys.Reads t ∧ Accepted w (call.stores w.eng.nextSeq t) call.seqs w₁ ∧
      Inv w₁ ∧ Flushing w₁ w' ∧ (call.seqs = 1 → w.eng.nextSeq + 1 < u64Limit) := by
  obtain ⟨w₁, stored, rest⟩ := Engine.ends_call run
  obtain ⟨t, reads, accepted, small⟩ := Engine.ends_store stored
  have inv₁ : Inv w₁ := accepted.inv unharmed.inv fun s hs => keys _ (Call.key_mem_keys hs)
  have onDisk₁ := accepted.onDisk unharmed.onDisk
  have ids₁ : w₁.eng.nextSstId < u64Limit := by
    obtain ⟨wal, memtable, metrics, eng⟩ := accepted.eng
    rw [eng]
    exact unharmed.ids
  rcases rest with flushes | ⟨rfl, rfl⟩
  · have flushing := flushing_of_maybeFlush inv₁ limits flushes
    exact ⟨⟨flushing.inv inv₁, flushing.onDisk onDisk₁, flushing.immutable_eq,
      keepsIds_maybeFlush _ _ _ flushes ids₁⟩, t, w₁, reads, accepted, inv₁, flushing, small⟩
  · exact ⟨unharmed, t, w', reads, accepted, inv₁, .nothing unharmed.free rfl, small⟩

/-- Without errors the manifest is saved. -/
theorem Resting.ends_call (resting : Resting w) {call : Call} (keys : call.KeysFit)
    (limits : WithinLimits w'.sys) (run : Ends call.run w u w') :
    Resting w' ∧ ∃ t w₁, w.sys.Reads t ∧ Accepted w (call.stores w.eng.nextSeq t) call.seqs w₁ ∧
      Inv w₁ ∧ Flushing w₁ w' ∧ (call.seqs = 1 → w.eng.nextSeq + 1 < u64Limit) := by
  obtain ⟨unharmed, t, w₁, reads, accepted, inv₁, flushing, small⟩ :=
    resting.toUnharmed.ends_call keys limits run
  exact ⟨unharmed.resting (flushing.stored (accepted.stored resting.stored)), t, w₁, reads, accepted,
    inv₁, flushing, small⟩

/-- A request is a call that writes, or it only observes. -/
theorem Unharmed.ends_request_cases (unharmed : Unharmed w) {request : Request}
    {response : Response}
    (run : Ends request.run w response w') :
    (∃ call, request = .write call ∧ Ends call.run w () w') ∨ Observed w w' := by
  cases request with
  | write call =>
      obtain ⟨u, w₁, ran, rest⟩ := ends_bind.mp run
      obtain ⟨-, rfl⟩ := ends_pure.mp rest
      exact Or.inl ⟨call, rfl, ran⟩
  | get key =>
      obtain ⟨v, w₁, ran, rest⟩ := ends_bind.mp run
      obtain ⟨-, rfl⟩ := ends_pure.mp rest
      obtain ⟨w₂, observed, ran'⟩ := get_run unharmed.inv key
      obtain ⟨-, rfl⟩ := ran.unique ran'
      exact Or.inr observed
  | getAt key snap =>
      obtain ⟨v, w₁, ran, rest⟩ := ends_bind.mp run
      obtain ⟨-, rfl⟩ := ends_pure.mp rest
      obtain ⟨w₂, observed, ran'⟩ := getAt_run unharmed.inv unharmed.free key snap
      obtain ⟨-, rfl⟩ := ran.unique ran'
      exact Or.inr observed
  | scan start stop =>
      obtain ⟨v, w₁, ran, rest⟩ := ends_bind.mp run
      obtain ⟨-, rfl⟩ := ends_pure.mp rest
      obtain ⟨w₂, map, t, t', observed, -, -, ran'⟩ := scan_run unharmed.inv start stop
      obtain ⟨-, rfl⟩ := ran.unique ran'
      exact Or.inr observed

theorem Unharmed.ends_request (unharmed : Unharmed w) {request : Request} {response : Response}
    (keys : request.KeysFit) (limits : WithinLimits w'.sys)
    (run : Ends request.run w response w') : Unharmed w' := by
  rcases unharmed.ends_request_cases run with ⟨call, rfl, ran⟩ | observed
  · exact (unharmed.ends_call keys limits ran).1
  · exact observed.unharmed unharmed

/-- **One request** leads from a resting state to a resting state. -/
theorem Resting.ends_request (resting : Resting w) {request : Request} {response : Response}
    (keys : request.KeysFit) (limits : WithinLimits w'.sys)
    (run : Ends request.run w response w') : Resting w' := by
  rcases resting.ends_request_cases run with ⟨call, rfl, ran⟩ | observed
  · exact (resting.ends_call keys limits ran).1
  · exact observed.resting resting

/-! ## Closing -/

/-- The world once the active list is frozen. -/
def frozen (w : World) : World :=
  { w with eng := { w.eng with memtable := w.eng.memtable.freeze.1 } }

/-- What `close` does: it flushes what is frozen, freezes and flushes the active list,
writes out the log and saves the manifest. -/
structure Closing (w w' : World) : Prop where
  flushes : ∃ w₁ w₂ w₃ ops, Ends maybeFlush w () w₁ ∧ Ends maybeFlush (frozen w₁) () w₂ ∧
    Ends (onWal WALWriter.flush) w₂ () w₃ ∧ w₃.sys.Did ops w'.sys ∧
    ops = manifestOps w₃.eng.manifest ∧ w' = { w₃ with sys := w'.sys }

theorem ends_close (run : Ends close w u w') : Closing w w' := by
  simp only [close, freezeMemtable, ends_bind, ends_modifySelf] at run
  obtain ⟨u₁, w₁, first, u₂, w₂, rfl, u₃, w₃, second, u₄, w₄, flushed, saved⟩ := run
  obtain ⟨did, same⟩ := ends_saveManifest saved
  exact ⟨w₁, w₃, w₄, _, first, second, flushed, did, rfl, same⟩

/-- Between two requests freezing moves the whole active list, unless it is empty. -/
theorem Unharmed.frozen_cases (unharmed : Unharmed w) :
    (frozen w = w ∧ w.eng.memtable.active.contents = SortedMap.empty) ∨
      ((frozen w).eng.memtable.immutable = some w.eng.memtable.active ∧
        (frozen w).eng.memtable.active.contents = SortedMap.empty) := by
  obtain ⟨-, -, ⟨same, taken | none⟩ | ⟨-, -, moved, empty⟩⟩ := unharmed.inv.memtable.freeze_cases
  · rw [unharmed.free] at taken
    cases taken
  · refine Or.inl ⟨?_, SortedMap.ext_entries none⟩
    rw [frozen, same]
  · exact Or.inr ⟨moved, empty⟩

/-- Freezing moves the versions of the active list. -/
theorem Unharmed.versionsOf_frozen (unharmed : Unharmed w) (key : Bytes) :
    (frozen w).eng.versionsOf key = w.eng.versionsOf key := by
  rcases unharmed.frozen_cases with ⟨same, -⟩ | ⟨moved, empty⟩
  · rw [same]
  · rw [Engine.versionsOf, Engine.versionsOf, MemTable.versionsOf_some moved, empty,
      MemTable.versionsOf_none unharmed.free]
    rfl

theorem Unharmed.inv_frozen (unharmed : Unharmed w) : Inv (frozen w) := by
  rcases unharmed.frozen_cases with ⟨same, -⟩ | ⟨moved, empty⟩
  · rw [same]
    exact unharmed.inv
  · refine { unharmed.inv with
      memtable := unharmed.inv.memtable.freeze_cases.1, memKeys := fun map hm b hb => ?_ }
    simp only [MemTable.layers, moved, empty, Option.map_some, Option.toList_some,
      List.mem_cons, List.not_mem_nil, or_false] at hm
    rcases hm with rfl | rfl
    · cases hb
    · exact unharmed.inv.memKeys _ List.mem_cons_self b hb

theorem OnDisk.frozen (onDisk : OnDisk w) : OnDisk (frozen w) :=
  onDisk.frame rfl rfl (.refl _) (by simp)

/-- With the manifest saved all is on disk. -/
theorem OnDisk.saved (onDisk : OnDisk w) (did : w.sys.Did (manifestOps w.eng.manifest) w'.sys)
    (same : w' = { w with sys := w'.sys }) : Stored w' := by
  have eng : w'.eng = w.eng := by
    rw [same]
  refine ⟨fun p hp => ?_, Or.inl (eng ▸ lookup_manifestOps did), eng ▸ onDisk.log⟩
  rw [lookup_sst_manifestOps did]
  exact onDisk.files p (eng ▸ hp)

/-- Writing out the log keeps what is on disk. -/
theorem OnDisk.walFlushed (onDisk : OnDisk w) (run : Ends (onWal WALWriter.flush) w u w') :
    OnDisk w' := by
  obtain ⟨logs, -, wal, eng⟩ := ends_walFlush run
  obtain ⟨path, ⟨ops, did, appends⟩, -⟩ := logs
  obtain ⟨n, isLog⟩ := onDisk.log
  refine onDisk.frame (by rw [eng]) path did fun op member => ?_
  obtain ⟨d, rfl⟩ := appends op member
  exact ⟨n, isLog⟩

/-- Closing: nothing is frozen, so the active list is flushed first. -/
theorem Unharmed.ends_close_steps (unharmed : Unharmed w) (limits : WithinLimits w'.sys)
    (run : Ends close w u w') :
    ∃ w₁ w₂, Ends maybeFlush (frozen w) () w₁ ∧ WithinLimits w₁.sys ∧
      Ends (onWal WALWriter.flush) w₁ () w₂ ∧ w₂.sys.Did (manifestOps w₂.eng.manifest) w'.sys ∧
      w' = { w₂ with sys := w'.sys } := by
  obtain ⟨w₀, w₁, w₂, ops, first, second, flushed, did, rfl, same⟩ := (KvEngine.ends_close run).flushes
  have limits₁ : WithinLimits w₁.sys :=
    limits.of_extends ((extending_walFlush _ _ _ flushed).sys.trans ⟨_, did⟩)
  have limits₀ : WithinLimits w₀.sys :=
    limits₁.of_extends (extending_maybeFlush _ _ _ second).sys
  rcases ends_maybeFlush_cases unharmed.inv limits₀ first with
    ⟨-, rfl⟩ | ⟨imm, p, w₃, isFrozen, -⟩
  · exact ⟨w₁, w₂, second, limits₁, flushed, did, same⟩
  · rw [unharmed.free] at isFrozen
    cases isFrozen

/-- **Closing** leaves the manifest saved. -/
theorem Unharmed.ends_close (unharmed : Unharmed w) (limits : WithinLimits w'.sys)
    (run : Ends close w u w') : Resting w' := by
  obtain ⟨w₁, w₂, flushes, limits₁, flushed, did, same⟩ := unharmed.ends_close_steps limits run
  have flushing := flushing_of_maybeFlush unharmed.inv_frozen limits₁ flushes
  have inv₁ := flushing.inv unharmed.inv_frozen
  have onDisk₂ := (flushing.onDisk unharmed.onDisk.frozen).walFlushed flushed
  obtain ⟨⟨-, ⟨walOps, walDid, -⟩, -⟩, -, wal, eng⟩ := ends_walFlush flushed
  have eng' : w'.eng = { w₁.eng with wal } := (congrArg World.eng same).trans eng
  have stored := onDisk₂.saved did same
  refine ⟨⟨?_, stored.onDisk, ?_, ?_⟩, stored.manifest⟩
  · have history : w'.sys.dir = applyOps w'.sys.journal ∅ := did.history (walDid.history inv₁.history)
    refine ⟨?_, ?_, ?_, ?_, ?_, history⟩
    · rw [eng']
      exact inv₁.tables
    · rw [eng']
      exact inv₁.listed
    · rw [eng']
      exact inv₁.apart
    · rw [eng']
      exact inv₁.memtable
    · rw [eng']
      exact inv₁.memKeys
  · rw [eng']
    exact flushing.immutable_eq
  · rw [eng']
    exact keepsIds_maybeFlush _ _ _ flushes unharmed.ids

/-! ## Reachable states -/

/-- How an engine goes away: closed, dropped or killed.  Dropping writes out the
buffer of the log, as far as the write gets. -/
inductive Left (w : World) : Sys → Prop
  | closed {w' : World} (run : Ends close w () w') : Left w (drop w')
  | dropped : Left w (drop w)
  | killed : Left w w.sys

/-- The states that requests and reopenings lead to, when every request satisfies
`Serves` in the state it is served in and every directory that is opened again
satisfies `Opens`. -/
inductive ReachedBy (env : Env) (Serves : World → Request → Prop) (Opens : Sys → Prop) :
    World → Prop
  | opened {opts : Options} {e : Engine} {s : Sys}
      (run : Ends (openWithOptions opts) (Sys.initial env) e s) : ReachedBy env Serves Opens ⟨e, s⟩
  | served {w w' : World} {request : Request} {response : Response}
      (before : ReachedBy env Serves Opens w) (keys : request.KeysFit) (meets : Serves w request)
      (run : Ends request.run w response w') : ReachedBy env Serves Opens w'
  | reopened {w : World} {s s' : Sys} {opts : Options} {e : Engine}
      (before : ReachedBy env Serves Opens w) (left : Left w s) (meets : Opens s)
      (run : Ends (openWithOptions opts) s e s')
      (keys : ∀ b ∈ e.memtable.active.contents.entries, b.1.length < 2 ^ 16) :
      ReachedBy env Serves Opens ⟨e, s'⟩

/-- The reachable states. -/
abbrev Reached (env : Env) : World → Prop := ReachedBy env (fun _ _ => True) (fun _ => True)

/-- The call is a `put` or a `delete`. -/
def Call.Plain : Call → Prop
  | .put _ _ => True
  | .delete _ => True
  | _ => False

/-- The request writes, if it does, by `put` or `delete`. -/
def PlainWrites (_ : World) (request : Request) : Prop :=
  ∀ call, request = .write call → call.Plain

theorem Left.extends {s : Sys} (left : Left w s) : w.sys.Extends s := by
  cases left with
  | closed run =>
      obtain ⟨ops, did, -⟩ := BufWriter.drop_did _ _
      exact (extending_close _ _ _ run).sys.trans ⟨ops, did⟩
  | dropped =>
      obtain ⟨ops, did, -⟩ := BufWriter.drop_did w.eng.wal.file w.sys
      exact ⟨ops, did⟩
  | killed => exact .refl _

/-- Dropping the engine only writes to the log. -/
theorem Stored.drop (stored : Stored w) :
    ∃ ops, w.sys.Did ops (drop w) ∧ ∀ op ∈ ops, op.OfLog := by
  obtain ⟨ops, did, leftover⟩ := BufWriter.drop_did w.eng.wal.file w.sys
  exact ⟨ops, did, leftover_onlyLog leftover stored.log⟩

/-- When an engine goes away, the tables it then has are on disk. -/
theorem Left.resting {s : Sys} (left : Left w s) (resting : Resting w) (limits : WithinLimits s) :
    ∃ w₁ ops, Resting w₁ ∧ (w₁ = w ∨ Ends close w () w₁) ∧ w₁.sys.Did ops s ∧
      ∀ op ∈ ops, op.OfLog := by
  cases left with
  | @closed w₁ run =>
      obtain ⟨ops', did', -⟩ := BufWriter.drop_did w₁.eng.wal.file w₁.sys
      have resting₁ := resting.ends_close (limits.of_extends ⟨ops', did'⟩) run
      obtain ⟨ops, did, onlyLog⟩ := resting₁.stored.drop
      exact ⟨w₁, ops, resting₁, Or.inr run, did, onlyLog⟩
  | dropped =>
      obtain ⟨ops, did, onlyLog⟩ := resting.stored.drop
      exact ⟨w, ops, resting, Or.inl rfl, did, onlyLog⟩
  | killed => exact ⟨w, [], resting, Or.inl rfl, .refl _, by simp⟩

theorem Started.resting_of_new {opts : Options} {e : Engine} {s₀ s : Sys} (empty : s₀.dir = ∅)
    (new : s₀.journal = []) (run : Ends (openWithOptions opts) s₀ e s) : Resting ⟨e, s⟩ := by
  have started := started_of_new empty new run
  obtain ⟨recovered, did⟩ := ends_openWithOptions run
  refine ⟨⟨started.idle.inv, ⟨?_, ⟨1, ?_⟩⟩, started.idle.free, ?_⟩, Or.inr ⟨?_, started.manifest⟩⟩
  · rw [started.readers]
    simp
  · rw [started.wal]
    rfl
  · rw [recovered.nextSstId, started.readers]
    decide
  · rw [did.lookup_of_ne (f := .manifest) (by simp [openOps, walPathOf, empty, FsOp.file]), empty]
    rfl

theorem Started.resting {opts : Options} {e : Engine} {s : Sys} {env : Env}
    (run : Ends (openWithOptions opts) (Sys.initial env) e s) : Resting ⟨e, s⟩ :=
  resting_of_new rfl rfl run

theorem openOps_onlyLog (d : Dir) : ∀ op ∈ openOps d, op.OfLog := by
  intro op member
  unfold openOps at member
  split at member
  · cases member
  · rw [List.mem_singleton.mp member]
    exact exists_walPathOf d

/-- **Opening again** leads from a resting state to a resting state. -/
theorem Resting.reopened (resting : Resting w) (fits : FilesFit w.sys) {s s' : Sys}
    {ops : List FsOp} {opts : Options} {e : Engine} (did : w.sys.Did ops s)
    (onlyLog : ∀ op ∈ ops, op.OfLog) (run : Ends (openWithOptions opts) s e s')
    (keys : ∀ b ∈ e.memtable.active.contents.entries, b.1.length < 2 ^ 16) :
    (∃ records, logOf s.env.crc s.dir = .ok records ∧ Reopened w opts records e) ∧
      Resting ⟨e, s'⟩ := by
  obtain ⟨recovered, opened⟩ := ends_openWithOptions run
  obtain ⟨records, log, reopened⟩ := resting.stored.reopened resting.inv resting.ids fits
    (fun f other => did.lookup_of_log onlyLog other) run
  have history : s'.dir = applyOps s'.journal ∅ := opened.history (did.history resting.inv.history)
  have same : ∀ f, (∀ n, f ≠ .wal n) → s'.dir.lookup f = w.sys.dir.lookup f := fun f other => by
    rw [opened.lookup_of_log (openOps_onlyLog _) other, did.lookup_of_log onlyLog other]
  have path : ∃ n, e.wal.file.path = .wal n := by
    rw [recovered.wal]
    exact exists_walPathOf s.dir
  have stored := reopened.stored (s := s') resting.stored (fun id => same _ (by simp))
    (same _ (by simp)) path
  exact ⟨⟨records, log, reopened⟩, ⟨reopened.inv resting.inv keys history, stored.onDisk,
    reopened.memtable.2, reopened.ids resting.inv resting.ids⟩, stored.manifest⟩

section ReachedBy

variable {env : Env} {Serves : World → Request → Prop} {Opens : Sys → Prop}

/-- **Every reachable state is a resting one.** -/
theorem ReachedBy.resting (reached : ReachedBy env Serves Opens w) (fits : FilesFit w.sys) :
    Resting w := by
  induction reached with
  | opened run => exact Started.resting run
  | served before keys meets run inductionHypothesis =>
      have resting := inductionHypothesis (fits.of_extends (extending_request _ _ _ _ run).sys)
      exact resting.ends_request keys fits.withinLimits run
  | @reopened w s s' opts e before left meets run keys inductionHypothesis =>
      have opens : s.Extends s' := ⟨_, (ends_openWithOptions run).2⟩
      have fits₁ : FilesFit s := fits.of_extends opens
      have resting := inductionHypothesis (fits₁.of_extends left.extends)
      obtain ⟨w₁, ops, resting₁, -, did, onlyLog⟩ := left.resting resting fits₁.withinLimits
      exact (resting₁.reopened (fits₁.of_extends ⟨_, did⟩) did onlyLog run keys).2

/-- **Induction over a run.** What holds of an engine on an empty directory and is kept
by every request and every reopening holds in every state reached. -/
theorem ReachedBy.induct {P : World → Prop} (reached : ReachedBy env Serves Opens w)
    (fits : FilesFit w.sys)
    (opened : ∀ opts e s, Ends (openWithOptions opts) (Sys.initial env) e s → P ⟨e, s⟩)
    (served : ∀ w request response w', Resting w → Resting w' → FilesFit w'.sys →
      request.KeysFit → Serves w request → Ends request.run w response w' → P w → P w')
    (reopened : ∀ w s opts e s', Resting w → Resting ⟨e, s'⟩ → Left w s → FilesFit s → Opens s →
      Ends (openWithOptions opts) s e s' → P w → P ⟨e, s'⟩) : P w := by
  induction reached with
  | opened run => exact opened _ _ _ run
  | @served w w' request response before keys meets run inductionHypothesis =>
      have fitsBefore := fits.of_extends (extending_request _ _ _ _ run).sys
      exact served _ _ _ _ (before.resting fitsBefore)
        ((ReachedBy.served before keys meets run).resting fits) fits keys meets run
        (inductionHypothesis fitsBefore)
  | @reopened w s s' opts e before left meets run keys inductionHypothesis =>
      have fits₁ : FilesFit s := fits.of_extends ⟨_, (ends_openWithOptions run).2⟩
      have fitsBefore := fits₁.of_extends left.extends
      exact reopened _ _ _ _ _ (before.resting fitsBefore)
        ((ReachedBy.reopened before left meets run keys).resting fits) left fits₁ meets run
        (inductionHypothesis fitsBefore)

theorem ReachedBy.env_eq (reached : ReachedBy env Serves Opens w) : w.sys.env = env := by
  induction reached with
  | opened run => exact (ends_openWithOptions run).2.env
  | served before keys meets run inductionHypothesis =>
      exact (extending_request _ _ _ _ run).sys.env.trans inductionHypothesis
  | reopened before left meets run keys inductionHypothesis =>
      exact (ends_openWithOptions run).2.env.trans (left.extends.env.trans inductionHypothesis)

/-- A run of calls that write stays within the reachable states. -/
theorem ReachedBy.runCalls {calls : List Call} (reached : ReachedBy env Serves Opens w)
    (keys : ∀ call ∈ calls, call.KeysFit)
    (meets : ∀ call ∈ calls, ∀ w, ReachedBy env Serves Opens w → Serves w (.write call))
    (run : Ends (KvEngine.runCalls calls) w u w') : ReachedBy env Serves Opens w' := by
  induction calls generalizing w with
  | nil =>
      obtain ⟨-, rfl⟩ := ends_pure.mp run
      exact reached
  | cons call calls inductionHypothesis =>
      obtain ⟨u₁, w₁, first, rest⟩ := ends_bind.mp run
      have fit : (Request.write call).KeysFit := keys call List.mem_cons_self
      exact inductionHypothesis
        (.served reached fit (meets call List.mem_cons_self w reached) (ends_write first))
        (fun c hc => keys c (List.mem_cons_of_mem _ hc))
        (fun c hc => meets c (List.mem_cons_of_mem _ hc)) rest

end ReachedBy

/-! ## Later states -/

/-- The states that requests lead to from `w`, when every request satisfies `Serves` in
the state it is served in. -/
inductive Later (Serves : World → Request → Prop) (w : World) : World → Prop
  | now : Later Serves w w
  | served {w₁ w₂ : World} {request : Request} {response : Response} (before : Later Serves w w₁)
      (keys : request.KeysFit) (meets : Serves w₁ request)
      (run : Ends request.run w₁ response w₂) : Later Serves w w₂

theorem Later.extends {Serves : World → Request → Prop} (later : Later Serves w w') :
    w.sys.Extends w'.sys := by
  induction later with
  | now => exact .refl _
  | served _ _ _ run inductionHypothesis =>
      exact inductionHypothesis.trans (extending_request _ _ _ _ run).sys

/-! ## Runs with a reopening that can be evaluated -/

/-- The session ends, is closed and opened again, stays within the limits, recovers keys
that fit, and its last world passes the test. -/
def reopenPasses (opts opts' : Options) (env : Env) (calls : List Call) (test : World → Bool) :
    Bool :=
  passes (openWithOptions opts) (Sys.initial env) fun e s =>
    passes (runCalls calls) ⟨e, s⟩ fun _ w =>
      passes close w fun _ w' =>
        passes (openWithOptions opts') (drop w') fun e' s' =>
          decide ((s'.journal.map FsOp.added).sum < 2 ^ 32) &&
            e'.memtable.active.contents.entries.all (fun b => decide (b.1.length < 2 ^ 16)) &&
            test ⟨e', s'⟩

theorem exists_reopened (opts opts' : Options) (env : Env) (calls : List Call)
    (test : World → Bool) (passed : reopenPasses opts opts' env calls test = true) :
    ∃ e s w w₁ e' s', Ends (openWithOptions opts) (Sys.initial env) e s ∧
      Ends (runCalls calls) ⟨e, s⟩ () w ∧ Ends close w () w₁ ∧
      Ends (openWithOptions opts') (drop w₁) e' s' ∧ FilesFit s' ∧
      (∀ b ∈ e'.memtable.active.contents.entries, b.1.length < 2 ^ 16) ∧
      test ⟨e', s'⟩ = true := by
  obtain ⟨e, s, opened, rest⟩ := ends_of_passes passed
  obtain ⟨u, w, ran, rest⟩ := ends_of_passes rest
  obtain ⟨u₁, w₁, closed, rest⟩ := ends_of_passes rest
  obtain ⟨e', s', again, rest⟩ := ends_of_passes rest
  obtain ⟨rest, tested⟩ := Bool.and_eq_true_iff.mp rest
  obtain ⟨few, short⟩ := Bool.and_eq_true_iff.mp rest
  exact ⟨e, s, w, w₁, e', s', opened, ran, closed, again, filesFit_of_added (of_decide_eq_true few),
    fun b hb => of_decide_eq_true (List.all_eq_true.mp short b hb), tested⟩

/-- Such a run is reachable. -/
theorem exists_reached (opts opts' : Options) (env : Env) (calls : List Call)
    (test : World → Bool) (keys : ∀ call ∈ calls, call.KeysFit)
    (passed : reopenPasses opts opts' env calls test = true) :
    ∃ w, Reached env w ∧ FilesFit w.sys ∧ test w = true := by
  obtain ⟨e, s, w, w₁, e', s', opened, ran, closed, again, fits, short, tested⟩ :=
    exists_reopened opts opts' env calls test passed
  have reached : Reached env w :=
    (ReachedBy.opened opened).runCalls keys (fun _ _ _ _ => trivial) ran
  exact ⟨⟨e', s'⟩, .reopened reached (.closed closed) trivial again short, fits, tested⟩

end KvEngine
