import KvEngine.Engine.Success

/-!
# Engines with room to go on

A light engine holds no more than its budget.  Below a gigabyte no file that it writes leaves
the range of a `u32`, so each of its calls ends with `Ok`, and is charged to the budget.
-/

namespace KvEngine

open Foundations

namespace FilesFit

variable {s s' s₀ : Sys}

/-- A file was written anew. -/
theorem rewritten {ops : List FsOp} {g : FileName} {new : Bytes} (fits : FilesFit s)
    (history : s.dir = applyOps s.journal ∅) (did : s.Did (.truncate g :: ops) s')
    (appends : ∀ op ∈ ops, ∃ data, op = .append g data) (after : s'.dir.lookup g = some new)
    (small : new.length < 2 ^ 32) : FilesFit s' := by
  refine filesFit_iff.mpr fun f => ?_
  have before := filesFit_iff.mp fits f
  by_cases same : f = g
  · subst same
    exact before.rewritten history did appends after small
  · refine before.untouched history did fun op member => ?_
    rcases List.mem_cons.mp member with rfl | later
    · exact Ne.symm same
    · obtain ⟨d, rfl⟩ := appends op later
      exact Ne.symm same

/-- The manifest was saved. -/
theorem saved {m : Manifest} (fits : FilesFit s) (history : s.dir = applyOps s.journal ∅)
    (did : s.Did (Engine.manifestOps m) s') (small : m.encode.length < 2 ^ 32) : FilesFit s' :=
  fits.rewritten history did (fun _ member => ⟨m.encode, List.mem_singleton.mp member⟩)
    (lookup_manifestOps did) small

/-- The log was started anew, and the old writer wrote a part of its buffer to it. -/
theorem reset {wal : WALWriter} {rest : List FsOp} (fits : FilesFit s)
    (history : s.dir = applyOps s.journal ∅) (did : s.Did (.truncate (.wal 1) :: rest) s')
    (leftover : BufWriter.Leftover wal.file s₀ rest) (log : wal.file.path = .wal 1)
    (small : wal.file.buf.length < 2 ^ 32) :
    FilesFit s' ∧ ∃ new, s'.dir.lookup (.wal 1) = some new ∧ new.length ≤ wal.file.buf.length := by
  have dir : s'.dir = applyOps rest ((FsOp.truncate (.wal 1)).apply s.dir) := did.dir
  have emptied := FsOp.lookup_truncate (.wal 1) s.dir
  rcases leftover with ⟨-, rfl⟩ | ⟨data, rfl, begins, -⟩
  · have after : s'.dir.lookup (.wal 1) = some [] := by
      rw [dir]
      exact emptied
    exact ⟨fits.rewritten history did (by simp) after (by simp), [], after, Nat.zero_le _⟩
  · rw [log] at did dir
    have after : s'.dir.lookup (.wal 1) = some data := by
      rw [dir]
      exact FsOp.lookup_append emptied data
    have shorter := begins.length_le
    exact ⟨fits.rewritten history did (fun _ member => ⟨data, List.mem_singleton.mp member⟩) after
      (by omega), data, after, shorter⟩

/-- A table was written, which keeps to the limits. -/
theorem built {p : Table} (fits : FilesFit s) (history : s.dir = applyOps s.journal ∅)
    (built : Built s p s') (limits : WithinLimits s') : FilesFit s' := by
  obtain ⟨ops, did, ofTable⟩ := built.writes
  refine filesFit_iff.mpr fun f => ?_
  by_cases isTable : f = .sst p.1.id
  · subst isTable
    exact withinLimits_iff.mp limits p.1.id
  · refine (filesFit_iff.mp fits f).untouched history did fun op member same => ?_
    exact isTable (same.symm.trans (ofTable op member))

/-- A table was written, if there is one. -/
theorem builtIfAny {added : Option Table} (fits : FilesFit s)
    (history : s.dir = applyOps s.journal ∅) (built : Engine.BuiltIfAny s added s')
    (limits : WithinLimits s') : s'.dir = applyOps s'.journal ∅ ∧ FilesFit s' := by
  cases added with
  | none => exact ⟨Sys.Did.history built history, filesFit_iff.mpr fun f =>
      (filesFit_iff.mp fits f).untouched history built (by simp)⟩
  | some p =>
      obtain ⟨ops, did, -⟩ := Built.writes built
      exact ⟨did.history history, fits.built history built limits⟩

theorem removed {ops : List FsOp} (fits : FilesFit s) (history : s.dir = applyOps s.journal ∅)
    (did : s.Did ops s') (removals : ∀ op ∈ ops, ∃ g, op = .remove g) : FilesFit s' :=
  filesFit_iff.mpr fun f => (filesFit_iff.mp fits f).removed history did removals

/-- The log was written at its end. -/
theorem appended {ops : List FsOp} {g : FileName} {new : Bytes} (fits : FilesFit s)
    (history : s.dir = applyOps s.journal ∅) (did : s.Did ops s')
    (appends : ∀ op ∈ ops, ∃ data, op = .append g data) (after : s'.dir.lookup g = some new)
    (small : new.length < 2 ^ 32) : FilesFit s' := by
  refine filesFit_iff.mpr fun f => ?_
  have before := filesFit_iff.mp fits f
  by_cases same : f = g
  · subst same
    exact before.appended history did appends after small
  · refine before.untouched history did fun op member => ?_
    obtain ⟨d, rfl⟩ := appends op member
    exact Ne.symm same

end FilesFit

/-! ## What a call costs -/

namespace Call

/-- The bytes that a call may add to the tables and to the log. -/
def cost (call : Call) : Nat := weigh footprint ((call.stores 0 0).map Store.binding)

/-- Neither the sequence number nor the clock changes the cost. -/
theorem weigh_stores (call : Call) (seq t : Nat) :
    weigh footprint ((call.stores seq t).map Store.binding) = call.cost := by
  cases call with
  | put key value => simp [cost, stores, Store.binding, footprint, encodeWithSeq]
  | delete key => simp [cost, stores, Store.binding, footprint, encodeWithSeq]
  | putWithTtl key value ttl =>
      simp [cost, stores, Store.binding, footprint, encodeWithSeq, encodeTtl]
  | writeBatch batch => rfl

/-- A record takes up less than the binding that it stands for. -/
theorem length_record_le (call : Call) {seq t : Nat} {s : Store} (member : s ∈ call.stores seq t)
    (crc : Bytes → UInt32) : (s.record.encode crc).length ≤ footprint s.binding := by
  have shorter : s.record.value.length ≤ s.value.length := by
    cases call with
    | put key value => rw [List.mem_singleton.mp member]
    | delete key => rw [List.mem_singleton.mp member]
    | putWithTtl key value ttl => rw [List.mem_singleton.mp member]
    | writeBatch batch =>
        obtain ⟨op, -, rfl⟩ := List.mem_map.mp member
        cases op with
        | put key value => exact le_rfl
        | delete key => exact Nat.zero_le _
  rw [Record.length_encode]
  simp only [footprint, Store.binding]
  omega

/-- The log of a call is no longer than its cost. -/
theorem length_log_le (call : Call) (seq t : Nat) (crc : Bytes → UInt32) :
    (encodeLog crc ((call.stores seq t).map Store.record)).length ≤ call.cost := by
  rw [← call.weigh_stores seq t]
  have each := fun s (member : s ∈ call.stores seq t) => call.length_record_le member crc
  generalize call.stores seq t = stores at each
  induction stores with
  | nil => exact le_rfl
  | cons s stores inductionHypothesis =>
      have first := each s List.mem_cons_self
      have rest := inductionHypothesis fun s' member => each s' (List.mem_cons_of_mem _ member)
      unfold encodeLog at rest ⊢
      rw [List.map_cons, List.flatMap_cons, List.length_append, List.map_cons, weigh_cons]
      omega

/-- A call that takes a sequence number is not free. -/
theorem seqs_le_cost (call : Call) : call.seqs ≤ call.cost := by
  cases call with
  | put key value => simp [seqs, cost, stores, Store.binding, footprint]
  | delete key => simp [seqs, cost, stores, Store.binding, footprint]
  | putWithTtl key value ttl => simp [seqs, cost, stores, Store.binding, footprint]
  | writeBatch batch => exact Nat.zero_le _

/-- A call that costs nothing does nothing. -/
theorem run_free {call : Call} (free : call.cost = 0) {w : World} : Ends call.run w () w := by
  cases call with
  | put key value => simp [cost, stores, Store.binding, footprint] at free
  | delete key => simp [cost, stores, Store.binding, footprint] at free
  | putWithTtl key value ttl => simp [cost, stores, Store.binding, footprint] at free
  | writeBatch batch =>
      have empty : batch.isEmpty := by
        obtain ⟨ops⟩ := batch
        cases ops with
        | nil => rfl
        | cons op ops => simp [cost, stores, Store.binding, footprint] at free
      show Ends (if batch.isEmpty then pure () else _) w () w
      rw [if_pos empty]
      rfl

/-- Any other call stores and then looks for something to flush. -/
theorem run_charged {call : Call} (charged : call.cost ≠ 0) {w w₁ w' : World}
    (stored : Ends call.store w () w₁) (flushed : Ends Engine.maybeFlush w₁ () w') :
    Ends call.run w () w' := by
  cases call with
  | writeBatch batch =>
      have nonempty : ¬ batch.isEmpty := fun empty => by
        obtain ⟨ops⟩ := batch
        obtain rfl := List.isEmpty_iff.mp empty
        exact charged rfl
      rw [store, if_neg nonempty] at stored
      show Ends (if batch.isEmpty then pure () else _) w () w'
      rw [if_neg nonempty]
      exact stored.bind flushed
  | _ => exact Ends.bind stored flushed

end Call

/-! ## Light engines -/

/-- The engine holds no more than the budget. -/
structure Light (budget : Nat) (w : World) : Prop where
  faultless : w.sys.env.Faultless
  inv : Inv w
  load : w.eng.load ≤ budget
  levels : w.eng.manifest.levels.length ≤ 21
  path : w.eng.wal.file.path = .wal 1
  log : ∃ data, w.sys.dir.lookup (.wal 1) = some data ∧
    data.length + w.eng.wal.file.buf.length ≤ budget
  fits : FilesFit w.sys

namespace Light

open Engine

variable {budget : Nat} {w w₁ w' : World} {u : Unit}

/-- An engine that was opened in an empty directory holds nothing. -/
theorem opened {opts : Options} {env : Env} {e : Engine} {s : Sys} (faultless : env.Faultless)
    (run : Ends (openWithOptions opts) (Sys.initial env) e s) : Light 0 ⟨e, s⟩ := by
  have begun := started run
  obtain ⟨-, did⟩ := ends_openWithOptions run
  have memtable : e.memtable.load = 0 := by
    rw [MemTable.load_eq, show e.memtable.active.contents = SortedMap.empty from begun.active,
      show e.memtable.immutable = none from begun.idle.free]
    rfl
  have readers : e.sstReaders = [] := begun.readers
  have journal : s.journal = [.truncate (.wal 1)] := begun.journal
  refine ⟨?_, begun.idle.inv, ?_, ?_, ?_, ⟨[], begun.log, ?_⟩, filesFit_of_added ?_⟩
  · rw [did.env]
    exact faultless
  · rw [Engine.load, memtable, readers]
    exact le_rfl
  · rw [begun.manifest]
    exact Nat.zero_le _
  · rw [begun.wal]
    rfl
  · rw [begun.wal]
    exact le_rfl
  · rw [journal]
    decide

theorem able (light : Light budget w) : Able w :=
  ⟨light.faultless, light.inv.history, light.fits.withinLimits⟩

/-- The manifest of an engine that is light enough fits into a file. -/
theorem length_manifest_lt {m : Manifest} {tables : List Table} (small : budget < 2 ^ 30)
    (listed : Listed m tables) (described : ∀ p ∈ tables, p.Described) (levels : m.levels.length ≤ 21)
    (load : tablesLoad tables ≤ budget) : m.encode.length < 2 ^ 32 := by
  have bound := length_encode_manifest_le listed described
  omega

/-- What changes neither the entries nor the files leaves the engine light. -/
theorem observed (light : Light budget w) (observed : Observed w w') : Light budget w' := by
  obtain ⟨⟨blockCache, metrics, n, rfl⟩, inv⟩ := observed
  exact ⟨light.faultless, inv, light.load, light.levels, light.path, light.log, light.fits⟩

/-- **A flush** leaves the engine light. -/
theorem flush {imm : SkipList} {p : Table} (light : Light budget w) (small : budget < 2 ^ 30)
    (frozen : w.eng.memtable.immutable = some imm) (flush : Flush (thawed w) p w')
    (map : p.map = imm.contents) (limits : WithinLimits w'.sys) :
    Light budget w' ∧ w'.eng.opts = w.eng.opts ∧ w'.eng.nextSstId = w.eng.nextSstId + 1 := by
  have inv' := flush.inv (inv_thawed light.inv)
  have load : w'.eng.load ≤ budget := (flush.load_eq frozen map).trans_le light.load
  obtain ⟨s₁, s₂, rest, built, saved, reset, leftover⟩ := flush.sys
  obtain ⟨metrics, eng⟩ := flush.eng
  have manifest : w'.eng.manifest = w.eng.manifest.addSst 0 p.1 := by rw [eng]; rfl
  have levels : w'.eng.manifest.levels.length ≤ 21 := by
    have before := light.levels
    rw [manifest, Manifest.length_levels_addSst]
    omega
  -- the files of each step
  have history₁ : s₁.dir = applyOps s₁.journal ∅ := by
    obtain ⟨ops, did, -⟩ := built.writes
    exact did.history light.inv.history
  have history₂ := saved.history history₁
  have until₂ : s₂.Extends w'.sys := ⟨_, reset⟩
  have until₁ : s₁.Extends w'.sys := Sys.Extends.trans ⟨_, saved⟩ until₂
  have fits₁ := FilesFit.built light.fits light.inv.history built (limits.of_extends until₁)
  have bytes := length_manifest_lt small inv'.listed inv'.tables.described levels
    ((Nat.le_add_left _ _).trans load)
  rw [manifest] at bytes
  have fits₂ := fits₁.saved history₁ saved bytes
  obtain ⟨old, present, room⟩ := light.log
  have path : (thawed w).eng.wal.file.path = .wal 1 := light.path
  have short : (thawed w).eng.wal.file.buf.length ≤ budget := by
    change w.eng.wal.file.buf.length ≤ budget
    omega
  obtain ⟨fits, new, after, length⟩ := fits₂.reset history₂ reset leftover path (by omega)
  have did := flush.did
  have opts : w'.eng.opts = w.eng.opts := by rw [eng]; rfl
  have ids : w'.eng.nextSstId = w.eng.nextSstId + 1 := by rw [eng]; rfl
  have wal : w'.eng.wal = freshWal := by rw [eng]
  refine ⟨⟨?_, inv', load, levels, ?_, ⟨new, after, ?_⟩, fits⟩, opts, ids⟩
  · rw [did.env]
    exact light.faultless
  · rw [wal]
    rfl
  · rw [wal]
    simp only [freshWal, List.length_nil]
    omega

/-- **A compaction** leaves the engine light. -/
theorem compaction {level : Nat} {time : Bytes → Nat} {added : Option Table}
    (light : Light budget w) (small : budget < 2 ^ 30) (shallow : level < 20)
    (compaction : Compaction w level time added w') (limits : WithinLimits w'.sys) :
    Light budget w' := by
  have inv' := compaction.inv light.inv
  have load := (compaction.load_le light.inv).trans light.load
  obtain ⟨s₁, s₂, removals, built, removed, sub, saved⟩ := compaction.sys
  obtain ⟨nextSstId, blockCache, metrics, eng⟩ := compaction.eng
  have levels : w'.eng.manifest.levels.length ≤ 21 := by
    have before := light.levels
    rw [eng]
    simp only [Manifest.length_levels_removeAll]
    cases added with
    | none => exact before
    | some p =>
        simp only [withAdded, Manifest.length_levels_addSst]
        omega
  have isRemoval : ∀ op ∈ removals, ∃ g, op = .remove g := fun op member => by
    obtain ⟨sst, -, rfl⟩ := List.mem_map.mp (sub.subset member)
    exact ⟨_, rfl⟩
  -- the files of each step
  have until₂ : s₂.Extends w'.sys := ⟨_, saved⟩
  have until₁ : s₁.Extends w'.sys := Sys.Extends.trans ⟨_, removed⟩ until₂
  obtain ⟨history₁, fits₁⟩ :=
    light.fits.builtIfAny light.inv.history built (limits.of_extends until₁)
  have history₂ := removed.history history₁
  have fits₂ := fits₁.removed history₁ removed isRemoval
  have bytes := length_manifest_lt small inv'.listed inv'.tables.described levels
    ((Nat.le_add_left _ _).trans load)
  have fits := fits₂.saved history₂ saved bytes
  have wal : w'.eng.wal = w.eng.wal := by rw [eng]
  refine ⟨?_, inv', load, levels, by rw [wal]; exact light.path, ?_, fits⟩
  · rw [compaction.did.env]
    exact light.faultless
  · rw [compaction.lookup_wal, wal]
    exact light.log

/-- A light engine has room for every table that a compaction makes. -/
theorem mergeFits (light : Light budget w) (small : budget < 2 ^ 30) (level : Nat) :
    MergeFits w level := by
  have load := light.load
  exact mergeFits_of_load light.inv (by omega) level

/-- **A level that was compacted** in a light engine. -/
theorem compactLevel {level : Nat} (light : Light budget w) (small : budget < 2 ^ 30)
    (shallow : level < 20) (room : w.eng.nextSstId + 1 < u64Limit)
    (run : Ends (compactLevel level) w u w') :
    Light budget w' ∧ (∃ added, Compaction w level (examinedAt w level) added w') ∧
      w'.eng.nextSstId ≤ w.eng.nextSstId + 1 := by
  obtain ⟨w₁, run', able, ids⟩ := compactLevel_run light.able light.inv room
    (ends_compactLevel_nonempty run) (light.mergeFits small level)
  obtain ⟨-, rfl⟩ := run.unique run'
  obtain ⟨added, compaction, -⟩ := ends_compactLevel_examined light.inv able.limits run
  exact ⟨light.compaction small shallow compaction able.limits, ⟨added, compaction⟩, ids⟩

/-- **A part of the loop** leaves the engine light. -/
theorem compactFrom {n level : Nat} (light : Light budget w) (small : budget < 2 ^ 30)
    (shallow : level + n ≤ 20) (room : w.eng.nextSstId + n < u64Limit)
    (run : Ends (compactFrom n level) w u w') :
    Light budget w' ∧ w'.eng.opts = w.eng.opts ∧ w'.eng.nextSstId ≤ w.eng.nextSstId + n := by
  induction n generalizing w level with
  | zero =>
      obtain ⟨-, rfl⟩ := ends_pure.mp run
      exact ⟨light, rfl, le_rfl⟩
  | succ n inductionHypothesis =>
      obtain ⟨u₁, w₁, first, rest⟩ := ends_bind.mp run
      obtain ⟨light₁, opts₁, ids₁⟩ : Light budget w₁ ∧ w₁.eng.opts = w.eng.opts ∧
          w₁.eng.nextSstId ≤ w.eng.nextSstId + 1 := by
        obtain ⟨threshold, -, ⟨-, rfl⟩ | ⟨-, compacts⟩⟩ := ends_compactIfFull first
        · exact ⟨light, rfl, Nat.le_succ _⟩
        · obtain ⟨light₁, ⟨added, compaction⟩, ids⟩ :=
            light.compactLevel small (by omega) (by omega) compacts
          exact ⟨light₁, compaction.opts_eq, ids⟩
      obtain ⟨light', opts', ids'⟩ := inductionHypothesis light₁ (by omega) (by omega) rest
      exact ⟨light', opts'.trans opts₁, by omega⟩

/-- **The loop over the levels** comes to its end. -/
theorem maybeCompact_run (light : Light budget w) (small : budget < 2 ^ 30)
    (schedulable : w.eng.opts.Schedulable) (top : w.eng.manifest.sstsAtLevel 0 ≠ [])
    (room : w.eng.nextSstId + 20 < u64Limit) :
    ∃ w', Ends maybeCompact w () w' ∧ Light budget w' ∧ w'.eng.opts = w.eng.opts ∧
      w'.eng.nextSstId ≤ w.eng.nextSstId + 20 := by
  have few := schedulable.maxLevels_le
  obtain ⟨w', run⟩ := compactFrom_run (w.eng.opts.maxLevels - 1) 0 light.able light.inv schedulable
    (by omega) (fun _ => top) (by omega) (fun k within w₁ before =>
      (light.compactFrom small (by omega) (by omega) before).1.mergeFits small _)
  obtain ⟨light', opts, ids⟩ := light.compactFrom small (by omega) (by omega) run
  exact ⟨w', (self_run w).bind run, light', opts, by omega⟩

/-- **A frozen list** becomes a table. -/
theorem flush_run {imm : SkipList} (light : Light budget w) (small : budget < 2 ^ 30)
    (frozen : w.eng.memtable.immutable = some imm) (room : w.eng.nextSstId + 1 < u64Limit) :
    ∃ w₁ p w', Ends takeSstId (thawed w) w.eng.nextSstId w₁ ∧
      Ends (flushEntries w.eng.nextSstId imm.contents.entries) w₁ () w' ∧
      Flush (thawed w) p w' ∧ p.map = imm.contents ∧ Light budget w' ∧
      w'.eng.opts = w.eng.opts ∧ w'.eng.nextSstId = w.eng.nextSstId + 1 := by
  have member : imm.contents ∈ w.eng.memtable.layers := by
    simp [MemTable.layers, frozen]
  have weight : imm.contents.weight footprint ≤ w.eng.load := by
    rw [Engine.load, MemTable.load_eq, frozen]
    simp only [Option.map_some, Option.getD_some]
    omega
  have load := light.load
  let w₁ : World := { thawed w with
    eng := { (thawed w).eng with nextSstId := w.eng.nextSstId + 1 } }
  have took : Ends takeSstId (thawed w) w.eng.nextSstId w₁ :=
    takeSstId_run (w := thawed w) (show w.eng.nextSstId + 1 < u64Limit by omega)
  have able₁ : Able w₁ := light.able.of_others (.refl _) (by simp)
  obtain ⟨w', flushed, able'⟩ := flushEntries_run able₁ light.path
    (light.inv.memtable.frozen imm frozen) (light.inv.memKeys _ member) (by omega) w.eng.nextSstId
  obtain ⟨p, flush, map⟩ := ends_flushEntries (w := thawed w) (light.inv.memKeys _ member)
    light.inv.history able'.limits took flushed
  exact ⟨w₁, p, w', took, flushed, flush, map, light.flush small frozen flush map able'.limits⟩

/-- **What is frozen is flushed.** -/
theorem maybeFlush_run (light : Light budget w) (small : budget < 2 ^ 30)
    (schedulable : w.eng.opts.Schedulable) (room : w.eng.nextSstId + 21 < u64Limit) :
    ∃ w', Ends maybeFlush w () w' ∧ Light budget w' ∧ w'.eng.opts = w.eng.opts ∧
      w'.eng.nextSstId ≤ w.eng.nextSstId + 21 := by
  cases frozen : w.eng.memtable.immutable with
  | none => exact ⟨w, maybeFlush_nothing frozen, light, rfl, Nat.le_add_right _ _⟩
  | some imm =>
      have valid := light.inv.memtable.immutable imm frozen
      have nonempty := light.inv.memtable.frozen imm frozen
      obtain ⟨w₁, p, w₂, took, flushed, flush, map, light₂, opts₂, ids₂⟩ :=
        light.flush_run small frozen (by omega)
      obtain ⟨w', compacts, light', opts', ids'⟩ := light₂.maybeCompact_run small
        (opts₂ ▸ schedulable) flush.top_ne_nil (by omega)
      have immutable : Ends (flushImmutable imm) (thawed w) () w' := by
        refine took.bind <| Ends.bind (ends_liftResult.mpr ⟨valid.iter_eq, rfl⟩) ?_
        rw [if_neg (by simpa using nonempty)]
        exact flushed.bind compacts
      refine ⟨w', (self_run w).bind ?_, light', opts'.trans opts₂, by omega⟩
      simp only [MemTable.takeImmutable, frozen]
      exact (modifySelf_run w _).bind immutable

/-- **What a call stores** is charged to the budget. -/
theorem store {call : Call} {seqs seq t : Nat} (light : Light budget w)
    (small : budget + call.cost < 2 ^ 30) (keys : call.KeysFit)
    (accepted : Accepted w (call.stores seq t) seqs w') : Light (budget + call.cost) w' := by
  have inv' := accepted.inv light.inv fun s member => keys s.record.key (Call.key_mem_keys member)
  have load := accepted.load_le light.inv.memtable
  rw [call.weigh_stores] at load
  have length := call.length_log_le seq t w.sys.env.crc
  obtain ⟨wal, memtable, metrics, eng⟩ := accepted.eng
  obtain ⟨ops, did, appends⟩ := accepted.logs.did
  have before := light.load
  obtain ⟨old, present, room⟩ := light.log
  have path : w'.eng.wal.file.path = .wal 1 := accepted.logs.path.trans light.path
  obtain ⟨new, written, content⟩ := accepted.logs.content old (by rw [light.path]; exact present)
  have lengths := congrArg List.length content
  simp only [List.length_append] at lengths
  simp only [light.path] at appends
  have after : w'.sys.dir.lookup (.wal 1) = some new := by
    rw [← light.path]
    exact written
  refine ⟨by rw [did.env]; exact light.faultless, inv', by omega, ?_, path,
    ⟨new, after, by omega⟩, light.fits.appended light.inv.history did appends after (by omega)⟩
  rw [eng]
  exact light.levels

/-- **A call** ends with `Ok`. -/
theorem call_run {call : Call} (light : Light budget w) (small : budget + call.cost < 2 ^ 30)
    (schedulable : w.eng.opts.Schedulable) (keys : call.KeysFit) (ttlFits : TtlFits w call)
    (ids : w.eng.nextSstId + 21 < u64Limit)
    (seqs : w.eng.nextSeq + 1 < u64Limit) :
    ∃ w', Ends call.run w () w' ∧ Light (budget + call.cost) w' ∧
      w'.eng.nextSstId ≤ w.eng.nextSstId + 21 * call.cost ∧
      w'.eng.nextSeq ≤ w.eng.nextSeq + call.cost := by
  by_cases free : call.cost = 0
  · refine ⟨w, Call.run_free free, ?_, Nat.le_add_right _ _, Nat.le_add_right _ _⟩
    rw [free]
    exact light
  obtain ⟨w₁, stored⟩ := store_run light.faultless light.inv.memtable seqs ttlFits
  obtain ⟨accepted, -⟩ := ends_store_now stored
  have light₁ := light.store small keys accepted
  obtain ⟨wal, memtable, metrics, eng⟩ := accepted.eng
  have ids₁ : w₁.eng.nextSstId = w.eng.nextSstId := by rw [eng]
  have seqs₁ : w₁.eng.nextSeq = w.eng.nextSeq + call.seqs := by rw [eng]
  have opts₁ : w₁.eng.opts = w.eng.opts := by rw [eng]
  obtain ⟨w', flushed, light', opts', ids'⟩ :=
    light₁.maybeFlush_run small (opts₁ ▸ schedulable) (by omega)
  have seqs' := (flushing_of_maybeFlush light₁.inv light'.fits.withinLimits flushed).kept.1
  have charged := call.seqs_le_cost
  exact ⟨w', Call.run_charged free stored flushed, light', by omega, by omega⟩

theorem freeze (light : Light budget w) (resting : Resting w) : Light budget (frozen w) := by
  have same : (frozen w).eng.load = w.eng.load := by
    rcases resting.frozen_cases with ⟨same, -⟩ | ⟨isFrozen, empty⟩
    · rw [same]
    · have readers : (frozen w).eng.sstReaders = w.eng.sstReaders := rfl
      rw [Engine.load, Engine.load, readers, MemTable.load_eq, MemTable.load_eq, isFrozen, empty,
        resting.free]
      simp
  exact ⟨light.faultless, resting.inv_frozen, same.trans_le light.load, light.levels,
    light.path, light.log, light.fits⟩

/-- Dropping the engine writes the buffer behind the log. -/
theorem filesFit_drop (light : Light budget w) (small : budget < 2 ^ 30) :
    FilesFit (drop w) := by
  obtain ⟨ops, did, leftover⟩ := BufWriter.drop_did w.eng.wal.file w.sys
  obtain ⟨old, present, room⟩ := light.log
  have path := light.path
  rcases leftover with ⟨-, rfl⟩ | ⟨data, rfl, begins, -⟩
  · exact light.fits.removed light.inv.history did (by simp)
  · have shorter := begins.length_le
    rw [path] at did
    have after : (drop w).dir.lookup (.wal 1) = some (old ++ data) := by
      rw [show (drop w).dir = _ from did.dir]
      exact FsOp.lookup_append present data
    refine light.fits.appended light.inv.history did
      (fun op member => ⟨data, List.mem_singleton.mp member⟩) after ?_
    rw [List.length_append]
    omega

/-- **Closing** ends with `Ok`. -/
theorem close_run (light : Light budget w) (resting : Resting w) (small : budget < 2 ^ 30)
    (schedulable : w.eng.opts.Schedulable) (ids : w.eng.nextSstId + 21 < u64Limit) :
    ∃ w', Ends close w () w' ∧ FilesFit w'.sys ∧ w'.eng.wal.file.buf = [] := by
  have nothing : Ends maybeFlush w () w := maybeFlush_nothing resting.free
  obtain ⟨w₁, flushed, light₁, -⟩ := (light.freeze resting).maybeFlush_run small schedulable ids
  obtain ⟨w₂, written⟩ := walFlush_run light₁.faultless
  obtain ⟨logs, empty, wal, eng⟩ := ends_walFlush written
  obtain ⟨ops, did, appends⟩ := logs.did
  obtain ⟨old, present, room⟩ := light₁.log
  obtain ⟨new, after, content⟩ := logs.content old (by rw [light₁.path]; exact present)
  have lengths := congrArg List.length content
  simp only [List.length_append, List.length_nil] at lengths
  have fits₂ := light₁.fits.appended light₁.inv.history did appends after (by omega)
  obtain ⟨w', saved⟩ := saveManifest_run (w := w₂) (by rw [logs.env]; exact light₁.faultless)
  have manifest : w₂.eng.manifest = w₁.eng.manifest := by rw [eng]
  have bytes := length_manifest_lt small light₁.inv.listed light₁.inv.tables.described light₁.levels
    ((Nat.le_add_left _ _).trans light₁.load)
  refine ⟨w', nothing.bind <| (modifySelf_run w _).bind <| flushed.bind <| written.bind saved, ?_, ?_⟩
  · exact fits₂.saved (did.history light₁.inv.history) (ends_saveManifest saved).1
      (by rw [manifest]; exact bytes)
  · rw [(ends_saveManifest saved).2]
    exact empty

end Light

end KvEngine
