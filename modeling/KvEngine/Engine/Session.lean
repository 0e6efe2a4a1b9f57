import KvEngine.Engine.OpenSpec
import KvEngine.Engine.WriteSpec
import KvEngine.Foundations.Crc32

/-!
# Sessions

A session opens an engine on an empty directory and then serves calls that write.
Between two calls the engine is `Idle`: nothing is frozen and every level is
settled.  In a session the order of the tables is also their age.
-/

namespace KvEngine

open Foundations Engine

/-- The state between two calls. -/
structure Idle (w : World) : Prop where
  inv : Inv w
  free : w.eng.memtable.immutable = none
  settled : AllSettled w.eng

/-- Serve the calls one after the other. -/
def runCalls : List Call → EngineM Unit
  | [] => pure ()
  | call :: calls => do
      call.run
      runCalls calls

/-- The outside world before anything happened. -/
def Sys.initial (env : Env) : Sys where
  dir := ∅
  journal := []
  env
  ioCount := 0
  ticks := 0
  draws := 0

variable {w w₁ w' : World} {u : Unit}

/-! ## One call -/

namespace Accepted

variable {stores : List Store} {seqs : Nat}

theorem did (accepted : Accepted w stores seqs w') : w.sys.Extends w'.sys := by
  obtain ⟨ops, did, -⟩ := accepted.logs.did
  exact ⟨ops, did⟩

theorem inv (accepted : Accepted w stores seqs w') (inv : Inv w)
    (keys : ∀ s ∈ stores, s.record.key.length < 2 ^ 16) : Inv w' := by
  obtain ⟨valid, -⟩ := accepted.memtable.valid inv.memtable
  have memKeys := accepted.memtable.mem_layers inv.memtable inv.memKeys (fun b hb => by
    obtain ⟨s, hs, rfl⟩ := List.mem_map.mp hb
    exact keys s hs)
  obtain ⟨ops, did⟩ := accepted.did
  obtain ⟨wal, memtable, metrics, eng⟩ := accepted.eng
  refine ⟨?_, ?_, ?_, valid, memKeys, did.history inv.history⟩
  · rw [eng]
    exact inv.tables
  · rw [eng]
    exact inv.listed
  · rw [eng]
    exact inv.apart

theorem settled (accepted : Accepted w stores seqs w') (settled : AllSettled w.eng) :
    AllSettled w'.eng := by
  obtain ⟨wal, memtable, metrics, eng⟩ := accepted.eng
  rw [eng]
  exact settled

theorem ordered (accepted : Accepted w stores seqs w')
    (ordered : Ordered w.eng.manifest w.eng.sstReaders) :
    Ordered w'.eng.manifest w'.eng.sstReaders := by
  obtain ⟨wal, memtable, metrics, eng⟩ := accepted.eng
  rw [eng]
  exact ordered

theorem nextSeq_eq (accepted : Accepted w stores seqs w') :
    w'.eng.nextSeq = w.eng.nextSeq + seqs := by
  obtain ⟨wal, memtable, metrics, eng⟩ := accepted.eng
  rw [eng]

/-- The tables do not change. -/
theorem versionsOf_eq (accepted : Accepted w stores seqs w') (key : Bytes) :
    w'.eng.versionsOf key =
      w'.eng.memtable.versionsOf key ++ versionsIn key w.eng.sstReaders.reverse := by
  obtain ⟨wal, memtable, metrics, eng⟩ := accepted.eng
  rw [Engine.versionsOf, eng]

/-- A key that is not stored keeps its versions. -/
theorem versionsOf_of_notMem (accepted : Accepted w stores seqs w') (inv : Inv w) {key : Bytes}
    (other : ∀ s ∈ stores, s.record.key ≠ key) :
    w'.eng.versionsOf key = w.eng.versionsOf key := by
  rw [accepted.versionsOf_eq, accepted.memtable.versionsOf_of_notMem inv.memtable fun b hb => by
    obtain ⟨s, hs, rfl⟩ := List.mem_map.mp hb
    exact other s hs, Engine.versionsOf]

/-- A single store becomes the newest version of its key. -/
theorem versionsOf_single {s : Store} (accepted : Accepted w [s] seqs w') (inv : Inv w)
    (free : w.eng.memtable.immutable = none) :
    w'.eng.versionsOf s.record.key =
      s.value :: versionsIn s.record.key w.eng.sstReaders.reverse := by
  rw [accepted.versionsOf_eq]
  cases accepted.memtable with
  | cons first later =>
      cases later with
      | nil =>
          rw [inv.memtable.versionsOf_put first, if_pos rfl]
          simp [MemTable.frozenVersionsOf, free]

end Accepted

/-- Storing keeps the invariant. -/
theorem Idle.ends_store (idle : Idle w) {call : Call} (keys : ∀ key ∈ call.keys, key.length < 2 ^ 16)
    (run : Ends call.store w u w') :
    ∃ t, w.sys.Reads t ∧ Accepted w (call.stores w.eng.nextSeq t) call.seqs w' ∧ Inv w' ∧
      (call.seqs = 1 → w.eng.nextSeq + 1 < u64Limit) := by
  obtain ⟨t, reads, accepted, small⟩ := Engine.ends_store run
  exact ⟨t, reads, accepted, accepted.inv idle.inv fun s hs => keys _ (Call.key_mem_keys hs), small⟩

/-- **One call** leads from an idle state to an idle state. -/
theorem Idle.ends_call (idle : Idle w) {call : Call}
    (keys : ∀ key ∈ call.keys, key.length < 2 ^ 16) (limits : WithinLimits w'.sys)
    (run : Ends call.run w u w') :
    Idle w' ∧ ∃ t w₁, w.sys.Reads t ∧ Accepted w (call.stores w.eng.nextSeq t) call.seqs w₁ ∧
      Inv w₁ ∧ Flushed w₁ w' ∧ (call.seqs = 1 → w.eng.nextSeq + 1 < u64Limit) := by
  obtain ⟨w₁, stored, rest⟩ := Engine.ends_call run
  obtain ⟨t, reads, accepted, inv₁, small⟩ := idle.ends_store keys stored
  rcases rest with flushes | ⟨rfl, rfl⟩
  · obtain ⟨flushed, settled⟩ := ends_maybeFlush inv₁ (accepted.settled idle.settled) limits flushes
    exact ⟨⟨flushed.inv inv₁, flushed.immutable_eq, settled⟩, t, w₁, reads, accepted, inv₁, flushed,
      small⟩
  · exact ⟨idle, t, w', reads, accepted, inv₁, .nothing idle.free rfl, small⟩

/-! ## Opening an empty directory -/

/-- What a session starts from. -/
structure Started (opts : Options) (w : World) : Prop where
  idle : Idle w
  ordered : Ordered w.eng.manifest w.eng.sstReaders
  versions : ∀ key, w.eng.versionsOf key = []
  active : w.eng.memtable.active.contents = SortedMap.empty
  readers : w.eng.sstReaders = []
  manifest : w.eng.manifest = Manifest.new
  wal : w.eng.wal = freshWal
  options : w.eng.opts = opts
  nextSeq : w.eng.nextSeq = 1
  log : w.sys.dir.lookup (.wal 1) = some []
  journal : w.sys.journal = [.truncate (.wal 1)]

theorem started_of_new {opts : Options} {e : Engine} {s₀ s : Sys} (empty : s₀.dir = ∅)
    (new : s₀.journal = []) (run : Ends (openWithOptions opts) s₀ e s) : Started opts ⟨e, s⟩ := by
  obtain ⟨dir, journal, env, ioCount, ticks, draws⟩ := s₀
  obtain rfl : dir = ∅ := empty
  obtain rfl : journal = [] := new
  obtain ⟨recovered, did⟩ := ends_openWithOptions run
  have manifest : e.manifest = Manifest.new :=
    (Except.ok.inj recovered.manifest).symm
  have readers : e.sstReaders = [] := by
    have opened := recovered.readers
    rw [manifest] at opened
    exact (Except.ok.inj opened).symm
  have active : e.memtable.active.contents = SortedMap.empty := by
    obtain ⟨records, log, contents⟩ := recovered.log
    cases log
    exact contents
  have ops : openOps ∅ = [.truncate (.wal 1)] := rfl
  rw [ops] at did
  obtain ⟨valid, free, -⟩ := recovered.memtable
  have levels : ∀ l, e.manifest.sstsAtLevel l = [] := fun l => by
    rw [manifest]
    rfl
  refine ⟨⟨⟨⟨?_, ?_, ?_, ?_⟩, ⟨?_, ?_, ?_⟩, ?_, valid, ?_, ?_⟩, free, ?_⟩, ?_, fun key => ?_, active,
    readers, manifest, recovered.wal, recovered.options, recovered.nextSeq, ?_, ?_⟩
  · simp [readers]
  · simp [readers]
  · simp [readers]
  · rw [recovered.blockCache]
    exact coherent_new opts
  · simp [manifest, Manifest.Distinct, Manifest.entries, Manifest.new]
  · intro l
    rw [levels]
    exact List.nil_sublist _
  · simp [readers]
  · intro l _
    rw [levels]
    exact List.Pairwise.nil
  · intro map hm b hb
    have empty : map = SortedMap.empty := by simpa [MemTable.layers, free, active] using hm
    rw [empty] at hb
    cases hb
  · exact did.history rfl
  · exact fun l _ => Or.inl (levels l)
  · simp [readers, Ordered]
  · simp [Engine.versionsOf, MemTable.versionsOf_none free, active, readers, versionsIn]
  · rw [did.dir]
    exact FsOp.lookup_truncate _ _
  · rw [did.journal]
    rfl

theorem started {opts : Options} {env : Env} {e : Engine} {s : Sys}
    (run : Ends (openWithOptions opts) (Sys.initial env) e s) : Started opts ⟨e, s⟩ :=
  started_of_new rfl rfl run

/-! ## Runs of a session -/

/-- The invariant of a session between two calls. -/
structure InSession (w : World) : Prop where
  idle : Idle w
  ordered : Ordered w.eng.manifest w.eng.sstReaders

theorem Started.inSession {opts : Options} (started : Started opts w) : InSession w :=
  ⟨started.idle, started.ordered⟩

/-- The keys of a call fit the block format. -/
def Call.KeysFit (call : Call) : Prop := ∀ key ∈ call.keys, key.length < 2 ^ 16

theorem extending_store (call : Call) : Extending call.store := by
  cases call with
  | put key value => exact extending_storePut key value
  | delete key => exact extending_storeDelete key
  | putWithTtl key value ttl => exact extending_storeWithTtl key value ttl
  | writeBatch batch =>
      change Extending (if batch.isEmpty then pure () else storeBatch batch.ops)
      split
      · exact .pure _
      · exact extending_storeBatch _

theorem extending_call (call : Call) : Extending call.run := by
  cases call with
  | put key value => exact (extending_storePut key value).bind fun _ => extending_maybeFlush
  | delete key => exact (extending_storeDelete key).bind fun _ => extending_maybeFlush
  | putWithTtl key value ttl =>
      exact (extending_storeWithTtl key value ttl).bind fun _ => extending_maybeFlush
  | writeBatch batch => exact extending_writeBatch batch

theorem extending_runCalls (calls : List Call) : Extending (runCalls calls) := by
  induction calls with
  | nil => exact .pure _
  | cons call calls inductionHypothesis => exact (extending_call call).bind fun _ => inductionHypothesis

/-- A call keeps the invariant of the session. -/
theorem InSession.ends_call (session : InSession w) {call : Call} (keys : call.KeysFit)
    (limits : WithinLimits w'.sys) (run : Ends call.run w u w') : InSession w' := by
  obtain ⟨idle, t, w₁, -, accepted, -, flushed, -⟩ := session.idle.ends_call keys limits run
  exact ⟨idle, flushed.ordered (accepted.ordered session.ordered)⟩

/-- **Induction over a run.** What holds at the start of a session and is kept by every
call holds at its end. -/
theorem InSession.ends_runCalls {P : World → Prop} {calls : List Call} (session : InSession w)
    (keys : ∀ call ∈ calls, call.KeysFit) (limits : WithinLimits w'.sys)
    (run : Ends (runCalls calls) w u w') (start : P w)
    (step : ∀ call ∈ calls, ∀ w₁ u w₂, InSession w₁ → InSession w₂ → WithinLimits w₂.sys →
      Ends call.run w₁ u w₂ → P w₁ → P w₂) : InSession w' ∧ P w' := by
  induction calls generalizing w with
  | nil =>
      obtain ⟨-, rfl⟩ := ends_pure.mp run
      exact ⟨session, start⟩
  | cons call calls inductionHypothesis =>
      obtain ⟨u₁, w₁, first, rest⟩ := ends_bind.mp run
      have limits₁ : WithinLimits w₁.sys :=
        limits.of_extends (extending_runCalls calls _ _ _ rest).sys
      have session₁ := session.ends_call (keys call List.mem_cons_self) limits₁ first
      exact inductionHypothesis session₁ (fun c hc => keys c (List.mem_cons_of_mem _ hc)) rest
        (step call List.mem_cons_self w u₁ w₁ session session₁ limits₁ first start)
        (fun c hc => step c (List.mem_cons_of_mem _ hc))

theorem ends_runCalls_append {calls₁ calls₂ : List Call} :
    Ends (runCalls (calls₁ ++ calls₂)) w u w' ↔
      ∃ w₁, Ends (runCalls calls₁) w () w₁ ∧ Ends (runCalls calls₂) w₁ u w' := by
  induction calls₁ generalizing w with
  | nil =>
      constructor
      · exact fun run => ⟨w, ends_pure.mpr ⟨rfl, rfl⟩, run⟩
      · rintro ⟨w₁, first, rest⟩
        obtain ⟨-, rfl⟩ := ends_pure.mp first
        exact rest
  | cons call calls₁ inductionHypothesis =>
      simp only [List.cons_append, runCalls, ends_bind, inductionHypothesis]
      constructor
      · rintro ⟨u₁, w₁, first, w₂, middle, rest⟩
        exact ⟨w₂, ⟨u₁, w₁, first, middle⟩, rest⟩
      · rintro ⟨w₂, ⟨u₁, w₁, first, middle⟩, rest⟩
        exact ⟨u₁, w₁, first, w₂, middle, rest⟩

/-! ## Runs that can be evaluated -/

/-- An environment in which nothing fails and the clock stands still. -/
def Env.steady : Env where
  crc := crc32
  clock := fun _ => 1700000000
  towers := fun _ => 0
  ioFault := fun _ => none

/-- The session ends, stays within the limits, and its last world passes the test. -/
def sessionPasses (opts : Options) (env : Env) (calls : List Call) (test : World → Bool) : Bool :=
  passes (openWithOptions opts) (Sys.initial env) (fun e s =>
    passes (runCalls calls) ⟨e, s⟩ (fun _ w =>
      decide ((w.sys.journal.map FsOp.added).sum < 2 ^ 32) && test w))

theorem exists_session (opts : Options) (env : Env) (calls : List Call) (test : World → Bool)
    (passed : sessionPasses opts env calls test = true) :
    ∃ e s w, Ends (openWithOptions opts) (Sys.initial env) e s ∧
      Ends (runCalls calls) ⟨e, s⟩ () w ∧ WithinLimits w.sys ∧ test w = true := by
  obtain ⟨e, s, opened, rest⟩ := ends_of_passes passed
  obtain ⟨u, w, ran, tested⟩ := ends_of_passes rest
  obtain ⟨few, isTrue⟩ := Bool.and_eq_true_iff.mp tested
  exact ⟨e, s, w, opened, ran, withinLimits_of_added (of_decide_eq_true few), isTrue⟩

end KvEngine
