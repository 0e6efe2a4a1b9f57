import KvEngine.Engine.Entries
import KvEngine.Engine.Logged

/-!
# Where entries come from

`Origin` is how a user's value came to be stored: the value, and what the write put
around it.  `Told` is a run together with the values its writes were given.  As long as
no file operation fails, every entry that the engine holds is a deletion or one of
these values in its stored form: flushes, compactions and the log only move entries.
-/

namespace KvEngine

open Foundations Engine

/-- A value and the write that stored it. -/
inductive Origin
  /-- `put` -/
  | put (value : Bytes) (seq : Nat)
  /-- `put_with_ttl` -/
  | putWithTtl (value : Bytes) (expiry seq : Nat)
  /-- `put` in a batch -/
  | batchPut (value : Bytes)
  deriving DecidableEq, Repr

namespace Origin

/-- The user's value. -/
def value : Origin → Bytes
  | .put value _ => value
  | .putWithTtl value _ _ => value
  | .batchPut value => value

/-- What the engine stores for it. -/
def stored : Origin → Bytes
  | .put value seq => encodeWithSeq value seq
  | .putWithTtl value expiry seq => encodeWithSeq (encodeTtl expiry value) seq
  | .batchPut value => value

/-- The end of the lifetime fits its field. -/
def Fits : Origin → Prop
  | .putWithTtl _ expiry _ => expiry < u64Limit
  | _ => True

end Origin

/-- The values a batch operation gives. -/
def BatchOp.gives : BatchOp → Option (Bytes × Origin)
  | .put key value => some (key, .batchPut value)
  | .delete _ => none

/-- The values that the call gives when its sequence number is `seq` and its clock reads
`t`. -/
def Call.gives (seq t : Nat) : Call → List (Bytes × Origin)
  | .put key value => [(key, .put value seq)]
  | .delete _ => []
  | .putWithTtl key value ttl => [(key, .putWithTtl value (t + ttl) seq)]
  | .writeBatch batch => batch.ops.filterMap BatchOp.gives

/-- The values that the request gives in the world in which it is served. -/
def Request.gives (w : World) : Request → List (Bytes × Origin)
  | .write call => call.gives w.eng.nextSeq w.sys.time
  | _ => []

/-- The states that a run leads to, with the values it was given, oldest first. -/
inductive Told (env : Env) : List (Bytes × Origin) → World → Prop
  | opened {opts : Options} {e : Engine} {s : Sys}
      (run : Ends (openWithOptions opts) (Sys.initial env) e s) : Told env [] ⟨e, s⟩
  | served {given : List (Bytes × Origin)} {w w' : World} {request : Request} {response : Response}
      (before : Told env given w) (keys : request.KeysFit)
      (run : Ends request.run w response w') : Told env (given ++ request.gives w) w'
  | reopened {given : List (Bytes × Origin)} {w : World} {s s' : Sys} {opts : Options} {e : Engine}
      (before : Told env given w) (left : Left w s) (run : Ends (openWithOptions opts) s e s')
      (keys : ∀ b ∈ e.memtable.active.contents.entries, b.1.length < 2 ^ 16) :
      Told env given ⟨e, s'⟩

variable {env : Env} {given : List (Bytes × Origin)} {w w' : World} {u : Unit}

/-- Every reachable state is reached with some values, and no others are reached. -/
theorem reached_iff_told : Reached env w ↔ ∃ given, Told env given w := by
  constructor
  · intro reached
    induction reached with
    | opened run => exact ⟨[], .opened run⟩
    | served before keys _ run inductionHypothesis =>
        obtain ⟨given, told⟩ := inductionHypothesis
        exact ⟨_, told.served keys run⟩
    | reopened before left _ run keys inductionHypothesis =>
        obtain ⟨given, told⟩ := inductionHypothesis
        exact ⟨given, told.reopened left run keys⟩
  · rintro ⟨given, told⟩
    induction told with
    | opened run => exact .opened run
    | served before keys run inductionHypothesis => exact inductionHypothesis.served keys trivial run
    | reopened before left run keys inductionHypothesis =>
        exact inductionHypothesis.reopened left trivial run keys

/-- The request gives only values of a list. -/
def GivesIn (given : List (Bytes × Origin)) (w : World) (request : Request) : Prop :=
  ∀ g ∈ request.gives w, g ∈ given

theorem Told.reachedBy (told : Told env given w) :
    ReachedBy env (GivesIn given) (fun _ => True) w := by
  have more : ∀ {given' w}, Told env given' w → (∀ g ∈ given', g ∈ given) →
      ReachedBy env (GivesIn given) (fun _ => True) w := by
    intro given' w told
    induction told with
    | opened run => exact fun _ => .opened run
    | served before keys run inductionHypothesis =>
        intro among
        exact (inductionHypothesis fun g hg => among g (List.mem_append_left _ hg)).served keys
          (fun g hg => among g (List.mem_append_right _ hg)) run
    | reopened before left run keys inductionHypothesis =>
        exact fun among => (inductionHypothesis among).reopened left trivial run keys
  exact more told fun g hg => hg

/-- A call whose lifetime ends before the limit of its field gives values that fit. -/
theorem Call.fits_gives {call : Call} {seq t : Nat}
    (small : ∀ key value ttl, call = .putWithTtl key value ttl → t + ttl < u64Limit) :
    ∀ g ∈ call.gives seq t, g.2.Fits := by
  intro g member
  cases call with
  | put key value =>
      rw [List.mem_singleton.mp member]
      exact trivial
  | delete key => cases member
  | putWithTtl key value ttl =>
      rw [List.mem_singleton.mp member]
      exact small key value ttl rfl
  | writeBatch batch =>
      obtain ⟨op, -, gives⟩ := List.mem_filterMap.mp member
      cases op with
      | put key value =>
          cases gives
          exact trivial
      | delete key => cases gives

/-- So does a request that is answered. -/
theorem Request.fits_gives {request : Request} {response : Response}
    (run : Ends request.run w response w') : ∀ g ∈ request.gives w, g.2.Fits := by
  cases request with
  | write call =>
      obtain ⟨u, w₁, ran, -⟩ := ends_bind.mp run
      obtain ⟨w₂, storing, -⟩ := Engine.ends_call ran
      refine Call.fits_gives fun key value ttl same => ?_
      subst same
      exact expiry_fits storing
  | _ => exact fun g member => absurd member List.not_mem_nil

/-- Every lifetime that was given ends before the limit of its field. -/
theorem Told.fits (told : Told env given w) : ∀ g ∈ given, g.2.Fits := by
  induction told with
  | opened run => exact fun g hg => absurd hg List.not_mem_nil
  | reopened before left run keys inductionHypothesis => exact inductionHypothesis
  | @served given w w' request response before keys run inductionHypothesis =>
      intro g hg
      rcases List.mem_append.mp hg with old | new
      · exact inductionHypothesis g old
      · exact Request.fits_gives run g new

/-! ## Entries and their origins -/

/-- The entry is a deletion, or a value that was given, in its stored form. -/
def Given (given : List (Bytes × Origin)) (b : Bytes × Bytes) : Prop :=
  innerOf b.2 = tombstone ∨ ∃ origin, (b.1, origin) ∈ given ∧ origin.stored = b.2

/-- A call stores and logs deletions and what it is given. -/
theorem Call.given_stores (call : Call) (seq t : Nat) :
    ∀ s ∈ call.stores seq t,
      Given (call.gives seq t) s.binding ∧ Given (call.gives seq t) s.record.binding := by
  intro s hs
  cases call with
  | put key value =>
      rw [List.mem_singleton.mp hs]
      have origin : Given (Call.gives seq t (.put key value)) (key, encodeWithSeq value seq) :=
        Or.inr ⟨.put value seq, List.mem_singleton_self _, rfl⟩
      exact ⟨origin, origin⟩
  | delete key =>
      rw [List.mem_singleton.mp hs]
      exact ⟨Or.inl (innerOf_encodeWithSeq tombstone seq), Or.inl rfl⟩
  | putWithTtl key value ttl =>
      rw [List.mem_singleton.mp hs]
      have origin : Given (Call.gives seq t (.putWithTtl key value ttl))
          (key, encodeWithSeq (encodeTtl (t + ttl) value) seq) :=
        Or.inr ⟨.putWithTtl value (t + ttl) seq, List.mem_singleton_self _, rfl⟩
      exact ⟨origin, origin⟩
  | writeBatch batch =>
      obtain ⟨op, hop, rfl⟩ := List.mem_map.mp hs
      cases op with
      | put key value =>
          have origin : Given (Call.gives seq t (.writeBatch batch)) (key, value) :=
            Or.inr ⟨.batchPut value, List.mem_filterMap.mpr ⟨_, hop, rfl⟩, rfl⟩
          exact ⟨origin, origin⟩
      | delete key => exact ⟨Or.inl rfl, Or.inl rfl⟩

theorem Given.mono {more : List (Bytes × Origin)} {b : Bytes × Bytes} (isGiven : Given given b)
    (among : ∀ g ∈ given, g ∈ more) : Given more b := by
  rcases isGiven with deletion | ⟨origin, member, stored⟩
  · exact Or.inl deletion
  · exact Or.inr ⟨origin, among _ member, stored⟩

/-- The entries of the engine and the records of its log were given. -/
structure AllGiven (given : List (Bytes × Origin)) (w : World) : Prop where
  entries : EveryEntry (Given given) w.eng
  log : ∃ rs bs, Logged w rs bs ∧ ∀ r ∈ rs ++ bs, Given given r.binding

/-- **One call** keeps this. -/
theorem AllGiven.call (all : AllGiven given w) (resting : Resting w) (kept : Kept w) {call : Call}
    (faultless : w.sys.env.Faultless) (keys : call.KeysFit) (limits : WithinLimits w'.sys)
    (meets : GivesIn given w (.write call)) (run : Ends call.run w u w') : AllGiven given w' := by
  have stores : ∀ s ∈ call.stores w.eng.nextSeq w.sys.time,
      Given given s.binding ∧ Given given s.record.binding := fun s hs =>
    ⟨(call.given_stores _ _ s hs).1.mono meets, (call.given_stores _ _ s hs).2.mono meets⟩
  obtain ⟨rs, bs, logged, records⟩ := all.log
  obtain ⟨rs', bs', logged', from_⟩ := logged.call resting kept faultless keys limits run
  obtain ⟨w₁, storing, rest⟩ := Engine.ends_call run
  have accepted := (ends_store_now storing).1
  have entries₁ := accepted.everyEntry resting.inv all.entries fun s hs => (stores s hs).1
  refine ⟨?_, rs', bs', logged', fun r hr => ?_⟩
  · rcases rest with flushes | ⟨rfl, rfl⟩
    · have inv₁ : Inv w₁ := accepted.inv resting.inv fun s hs => keys _ (Call.key_mem_keys hs)
      exact (flushing_of_maybeFlush inv₁ limits flushes).everyEntry entries₁
    · exact entries₁
  · rcases List.mem_append.mp (from_ r hr) with old | new
    · exact records r old
    · obtain ⟨s, hs, rfl⟩ := List.mem_map.mp new
      exact (stores s hs).2

theorem AllGiven.observed (all : AllGiven given w) (observed : Observed w w') :
    AllGiven given w' := by
  obtain ⟨c, m, n, rfl⟩ := observed.world
  obtain ⟨rs, bs, logged, records⟩ := all.log
  exact ⟨⟨all.entries.memtable, all.entries.tables⟩, rs, bs, logged.frame rfl rfl rfl, records⟩

/-- **Opening again** keeps this. -/
theorem AllGiven.reopened (all : AllGiven given w) (resting : Resting w) (kept : Kept w)
    (faultless : w.sys.env.Faultless) {s s' : Sys} {opts : Options} {e : Engine} (left : Left w s)
    (fits : FilesFit s) (run : Ends (openWithOptions opts) s e s')
    (keys : ∀ b ∈ e.memtable.active.contents.entries, b.1.length < 2 ^ 16) :
    AllGiven given ⟨e, s'⟩ := by
  have goesOn := left.extends
  obtain ⟨rs, bs, logged, records⟩ := all.log
  obtain ⟨ts, file, logs, among⟩ :=
    logged.left resting kept (Or.inr faultless) left fits.withinLimits
  have given_ts : ∀ r ∈ ts, Given given r.binding := fun r hr => records r (among r hr)
  have fits_ts : ∀ r ∈ ts, r.Fits := fun r hr =>
    logged.fits (fits.of_extends goesOn) resting.inv.history r (among r hr)
  obtain ⟨w₁, ops, resting₁, how, did, onlyLog⟩ := left.resting resting fits.withinLimits
  have fits₁ : FilesFit w₁.sys := fits.of_extends ⟨ops, did⟩
  have every₁ : EveryEntry (Given given) w₁.eng := by
    rcases how with rfl | closed
    · exact all.entries
    · exact all.entries.closed resting fits₁.withinLimits closed
  obtain ⟨⟨found, log, reopened⟩, -⟩ := resting₁.reopened fits₁ did onlyLog run keys
  obtain rfl : ts = found := Except.ok.inj ((logOf_of_lookup logs file fits_ts).symm.trans log)
  refine ⟨reopened.everyEntry every₁.tables fun b hb => ?_, ts, [],
    .opened logs (by rw [file]; rfl) run, fun r hr => given_ts r ?_⟩
  · rw [reopened.contents] at hb
    rcases SortedMap.mem_insertAll hb with empty | replayed
    · cases empty
    · obtain ⟨r, hr, rfl⟩ := List.mem_map.mp replayed
      exact given_ts r hr
  · rwa [List.append_nil] at hr

/-- **Nothing comes from nowhere**: as long as no file operation fails, every entry of a
reachable state is a deletion or a value that was given. -/
theorem Told.allGiven (told : Told env given w) (faultless : env.Faultless)
    (fits : FilesFit w.sys) : AllGiven given w := by
  have all : (Kept w ∧ w.sys.env.Faultless) ∧ AllGiven given w := by
    refine told.reachedBy.induct fits
      (P := fun w => (Kept w ∧ w.sys.env.Faultless) ∧ AllGiven given w)
      (fun opts e s run => ?_)
      (fun w request response w' resting _ fits keys meets run before => ?_)
      (fun w s opts e s' resting resting' left fits _ run before => ?_)
    · have started := started run
      have empty : ((Sys.initial env).dir.lookup (.wal 1)).getD [] = encodeLog env.crc [] := rfl
      have kept : Kept ⟨e, s⟩ :=
        Kept.opened (fun id data present => by cases present) (fun n _ => rfl) run
      refine ⟨⟨kept, by rw [(ends_openWithOptions run).2.env]; exact faultless⟩, ⟨?_, ?_⟩, [], [],
        .opened (fun n _ => rfl) empty run, by simp⟩
      · intro map hm b hb
        have free : e.memtable.immutable = none := started.idle.free
        obtain rfl : map = SortedMap.empty := by
          simpa [MemTable.layers, free, started.active] using hm
        cases hb
      · intro p hp
        rw [started.readers] at hp
        cases hp
    · obtain ⟨⟨kept, quiet⟩, all⟩ := before
      have env := (extending_request _ _ _ _ run).sys.env
      refine ⟨⟨kept.request resting keys fits.withinLimits run, env ▸ quiet⟩, ?_⟩
      rcases resting.ends_request_cases run with ⟨call, rfl, ran⟩ | observed
      · exact all.call resting kept quiet keys fits.withinLimits meets ran
      · exact all.observed observed
    · obtain ⟨⟨kept, quiet⟩, all⟩ := before
      have env : s'.env = w.sys.env := (ends_openWithOptions run).2.env.trans left.extends.env
      exact ⟨⟨kept.reopened resting left fits run, env ▸ quiet⟩,
        all.reopened resting kept quiet left fits run (resting'.inv.memKeys _ List.mem_cons_self)⟩
  exact all.2

end KvEngine
