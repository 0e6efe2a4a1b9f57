import KvEngine.Engine.FailedCalls
import KvEngine.Properties.ExpiringScans

/-!
# Reads after errors

A file operation may fail at any time, after any number of bytes.  The call that it belongs to
returns `Err`, and what it leaves behind on disk may be of no use.  In memory nothing is out of
order: later reads succeed and, while the clock stands still, agree with each other; and whatever
a lookup shows was stored for a value that some call gave.  It is that value itself if the value
survives being stored, as in sessions without errors.
-/

namespace KvEngine

open Foundations Engine

variable {env : Env} {given : List (Bytes × Origin)} {w w' : World}

/-- A session in which writes may return `Err`, and the values that its calls were given, also
those of the calls that failed. -/
inductive Tried (env : Env) : List (Bytes × Origin) → World → Prop
  | opened {opts : Options} {e : Engine} {s : Sys}
      (run : Ends (openWithOptions opts) (Sys.initial env) e s) : Tried env [] ⟨e, s⟩
  | answered {given : List (Bytes × Origin)} {w w' : World} {request : Request}
      {response : Response} (before : Tried env given w) (keys : request.KeysFit)
      (run : Ends request.run w response w') : Tried env (given ++ request.gives w) w'
  | failed {given : List (Bytes × Origin)} {w w' : World} {call : Call} {k : KvError}
      (before : Tried env given w) (keys : call.KeysFit) (run : Fails call.run w (.err k) w') :
      Tried env (given ++ call.gives w.eng.nextSeq w.sys.time) w'

/-- What errors leave intact. -/
structure Sound (given : List (Bytes × Origin)) (w : World) : Prop where
  inv : Inv w
  free : w.eng.memtable.immutable = none
  entries : EveryEntry (Given given) w.eng

namespace Sound

theorem mono {more : List (Bytes × Origin)} (sound : Sound given w)
    (among : ∀ g ∈ given, g ∈ more) : Sound more w :=
  ⟨sound.inv, sound.free, sound.entries.mono fun _ isGiven => isGiven.mono among⟩

theorem observed (sound : Sound given w) (observed : Observed w w') : Sound given w' := by
  have inv := observed.inv
  obtain ⟨⟨blockCache, metrics, n, rfl⟩, -⟩ := observed
  exact ⟨inv, sound.free, sound.entries.memtable, sound.entries.tables⟩

/-- What a call stores comes from the call. -/
theorem stored {call : Call} {w₁ : World} (sound : Sound given w) (keys : call.KeysFit)
    (stored : Ends call.store w () w₁) : Inv w₁ ∧
      EveryEntry (Given (given ++ call.gives w.eng.nextSeq w.sys.time)) w₁.eng := by
  have accepted := (ends_store_now stored).1
  refine ⟨accepted.inv sound.inv fun s member => keys s.record.key (Call.key_mem_keys member),
    accepted.everyEntry sound.inv ?_ fun s member => ?_⟩
  · exact sound.entries.mono fun b isGiven => isGiven.mono fun g => List.mem_append_left _
  · exact (call.given_stores _ _ s member).1.mono fun g => List.mem_append_right _

/-- **A request that is answered.** -/
theorem request {request : Request} {response : Response} (sound : Sound given w)
    (keys : request.KeysFit) (limits : WithinLimits w'.sys) (run : Ends request.run w response w') :
    Sound (given ++ request.gives w) w' := by
  by_cases isWrite : ∃ call, request = .write call
  · obtain ⟨call, rfl⟩ := isWrite
    obtain ⟨u, w₂, ran, rest⟩ := ends_bind.mp run
    obtain ⟨-, rfl⟩ := ends_pure.mp rest
    obtain ⟨w₁, stored, flushes | ⟨rfl, rfl⟩⟩ := ends_call ran
    · obtain ⟨inv₁, entries₁⟩ := sound.stored keys stored
      have flushing := flushing_of_maybeFlush inv₁ limits flushes
      exact ⟨flushing.inv inv₁, flushing.immutable_eq, flushing.everyEntry entries₁⟩
    · obtain ⟨inv₁, entries₁⟩ := sound.stored keys stored
      exact ⟨inv₁, sound.free, entries₁⟩
  · obtain ⟨response', w₁, observed, run'⟩ := read_run sound.inv fun call same => isWrite ⟨call, same⟩
    obtain ⟨-, rfl⟩ := run.unique run'
    exact (sound.observed observed).mono fun g => List.mem_append_left _

/-- **A call that fails.** -/
theorem failed {call : Call} {k : KvError} (sound : Sound given w) (keys : call.KeysFit)
    (limits : WithinLimits w'.sys) (run : Fails call.run w (.err k) w') :
    Sound (given ++ call.gives w.eng.nextSeq w.sys.time) w' := by
  rcases fails_call run with storing | ⟨w₁, stored, flushing⟩
  · have unlogged := fails_store sound.inv.memtable storing
    obtain ⟨wal, nextSeq, eng⟩ := unlogged.eng
    refine Sound.mono ⟨unlogged.inv sound.inv, ?_, ?_⟩ fun g => List.mem_append_left _
    · rw [eng]
      exact sound.free
    · rw [eng]
      exact ⟨sound.entries.memtable, sound.entries.tables⟩
  · obtain ⟨inv₁, entries₁⟩ := sound.stored keys stored
    obtain ⟨imm, frozen, left⟩ := fails_maybeFlush inv₁ limits flushing
    refine ⟨left.inv inv₁, ?_, left.everyEntry frozen entries₁⟩
    rw [left.memtable_eq]
    rfl

end Sound

theorem Tried.sound (tried : Tried env given w) (limits : WithinLimits w.sys) : Sound given w := by
  induction tried with
  | @opened opts e s run =>
      have begun := started run
      have free : e.memtable.immutable = none := begun.idle.free
      refine ⟨begun.idle.inv, free, fun map hm b hb => ?_, fun p hp => ?_⟩
      · obtain rfl : map = SortedMap.empty := by
          simpa [MemTable.layers, free, begun.active] using hm
        cases hb
      · rw [begun.readers] at hp
        cases hp
  | @answered given w w' request response before keys run inductionHypothesis =>
      have earlier := limits.of_extends (extending_request request _ _ _ run).sys
      exact (inductionHypothesis earlier).request keys limits run
  | @failed given w w' call k before keys run inductionHypothesis =>
      have earlier := limits.of_extends ((goesOn_call call).fails _ _ _ run)
      exact (inductionHypothesis earlier).failed keys limits run

/-- A call that fails has given lifetimes that fit: one that does not fit panics. -/
theorem expiry_fits_of_fails {key value : Bytes} {ttl : Nat} {k : KvError}
    (failed : Fails (Call.putWithTtl key value ttl).run w (.err k) w') :
    w.sys.time + ttl < u64Limit := by
  rcases fails_call failed with storing | ⟨w₁, stored, -⟩
  · have read : Ends (onSys now) w w.sys.time ⟨w.eng, w.sys.later 1⟩ :=
      ends_onSys.mpr ⟨_, now_run _, rfl⟩
    rcases fails_bind.mp storing with never | ⟨t, w₁, looked, failed⟩
    · exact absurd never read.not_fails
    obtain ⟨rfl, rfl⟩ := read.unique looked
    rcases fails_bind.mp failed with never | ⟨expiry, w₂, fits, -⟩
    · exact absurd (fails_liftResult.mp never).1 (Result.NotErr.checkedAdd _ _ _ k)
    · exact (checkedAdd_eq_ok.mp (ends_liftResult.mp fits).1).1
  · exact expiry_fits stored

theorem Tried.fits (tried : Tried env given w) : ∀ g ∈ given, g.2.Fits := by
  induction tried with
  | opened run => exact fun g member => absurd member List.not_mem_nil
  | answered before keys run inductionHypothesis =>
      intro g member
      rcases List.mem_append.mp member with old | new
      · exact inductionHypothesis g old
      · exact Request.fits_gives run g new
  | failed before keys run inductionHypothesis =>
      intro g member
      rcases List.mem_append.mp member with old | new
      · exact inductionHypothesis g old
      · refine Call.fits_gives (fun key value ttl same => ?_) g new
        subst same
        exact expiry_fits_of_fails run

/-- A range read lists keys of the range, in ascending order, whatever the clock does. -/
theorem answer_scan_ascending (inv : Inv w) (start stop : Bytes) :
    ∃ entries, answer (scan start stop) w = .ok entries ∧ AscendingKeys entries ∧
      ∀ b ∈ entries, inRange start stop b.1 := by
  obtain ⟨w₁, map, t, t', -, lookups, -, run⟩ := scan_run inv start stop
  have keeps : ∀ {b c : Bytes × Bytes}, displayed (t b.1) (t' b.1) b = some c → c.1 = b.1 := by
    intro b c shows
    unfold displayed at shows
    split at shows
    · cases shows
      rfl
    · cases shows
  refine ⟨_, answer_of_ok run, ?_, fun c member => ?_⟩
  · refine List.Pairwise.filterMap _ (fun a b less c first d second => ?_) map.ascending
    rw [keeps first, keeps second]
    exact less
  · obtain ⟨b, listed, shows⟩ := List.mem_filterMap.mp member
    have found := SortedMap.mem_entries.mp listed
    rw [lookups] at found
    rw [keeps shows]
    by_contra outside
    rw [if_neg outside] at found
    cases found

/-- **Errors leave the reads in order.**  Whichever file operations have failed so far, every
lookup succeeds, and what it shows is shown of the stored form of a value that some call gave for
the key: it is this value if and only if the value survives.  A range read succeeds and lists
keys of the range in ascending order; while the clock stands still it lists exactly what the
lookups find. -/
theorem reads_survive_errors (tried : Tried env given w) (limits : WithinLimits w.sys) :
    (∀ key, ∃ found, answer (get key) w = .ok found ∧ ∀ value, found = some value →
      ∃ origin, (key, origin) ∈ given ∧ shown w.sys.time origin.stored = some value ∧
        (value = origin.value ↔ origin.Survives w.sys.time)) ∧
    ∀ start stop, ∃ entries, answer (scan start stop) w = .ok entries ∧
      AscendingKeys entries ∧ (∀ b ∈ entries, inRange start stop b.1) ∧
      ∀ t, w.sys.ClockAt t → ∀ key value, (key, value) ∈ entries ↔
        inRange start stop key ∧ answer (get key) w = .ok (some value) := by
  have sound := tried.sound limits
  refine ⟨fun key => ⟨_, answer_get sound.inv key, fun value isShown => ?_⟩, fun start stop => ?_⟩
  · obtain ⟨v, newest, shows⟩ := Option.bind_eq_some_iff.mp isShown
    rcases sound.entries.of_mem_versionsOf (List.mem_of_head? newest) with dead | ⟨origin, member, rfl⟩
    · rw [shown, dead, shownInner_tombstone] at shows
      cases shows
    · have survives := origin.displayed_iff (tried.fits _ member) w.sys.time
        (Option.isSome_iff_exists.mpr ⟨value, shows⟩)
      rw [shows, Option.getD_some] at survives
      exact ⟨origin, member, shows, survives⟩
  · obtain ⟨entries, listed, ascending, within⟩ := answer_scan_ascending sound.inv start stop
    refine ⟨entries, listed, ascending, within, fun t still key value => ?_⟩
    obtain ⟨map, listed', lookups⟩ := answer_scan sound.inv still start stop
    obtain rfl : entries = map.entries := Except.ok.inj (listed.symm.trans listed')
    rw [SortedMap.mem_entries, lookups, answer_get sound.inv, still.time]
    split
    · next within => simp [within]
    · next outside => simp [outside]

/-- The first call breaks off while its table is written, the second one succeeds. -/
theorem reads_survive_errors_flush :
    ∃ (env : Env) (given : List (Bytes × Origin)) (w : World) (origin : Origin),
      Tried env given w ∧ w.eng.nextSstId = 3 ∧ w.eng.sstReaders.length = 1 ∧
        answer (get [2]) w = .ok (some [8]) ∧ ([2], origin) ∈ given ∧
          shown w.sys.time origin.stored = some [8] ∧
            ([8] = origin.value ↔ origin.Survives w.sys.time) := by
  let env : Env := { Env.steady with ioFault := fun n => if n = 6 then some 3 else none }
  have passed : passes (openWithOptions { memtableSize := 0 }) (Sys.initial env) (fun e s =>
      failsWith (Call.put [1] [7]).run ⟨e, s⟩ fun failure w =>
        decide (failure ≠ .panic) && decide (failure ≠ .outOfFuel) &&
        passes (Call.put [2] [8]).run w fun _ w' =>
          decide ((w'.sys.journal.map FsOp.added).sum < 2 ^ 32) && w'.eng.nextSstId == 3 &&
            w'.eng.sstReaders.length == 1 && passes (get [2]) w' fun x _ => x == some [8]) = true := by
    decide +kernel
  obtain ⟨e, s, opened, rest⟩ := ends_of_passes passed
  obtain ⟨failure, w, failed, rest⟩ := fails_of_failsWith rest
  obtain ⟨isError, rest⟩ := Bool.and_eq_true_iff.mp rest
  obtain ⟨noPanic, fuelled⟩ := Bool.and_eq_true_iff.mp isError
  obtain ⟨u, w', ran, tested⟩ := ends_of_passes rest
  simp only [Bool.and_eq_true, beq_iff_eq, decide_eq_true_eq] at tested
  obtain ⟨⟨⟨few, ids⟩, readers⟩, got⟩ := tested
  have begun : Tried env [] ⟨e, s⟩ := .opened opened
  cases failure with
  | panic => exact absurd rfl (of_decide_eq_true noPanic)
  | outOfFuel => exact absurd rfl (of_decide_eq_true fuelled)
  | err k =>
      have first := begun.failed (by simp [Call.KeysFit, Call.keys]) failed
      have second : Ends (Request.write (.put [2] [8])).run w .done w' := ends_write ran
      have tried := first.answered (by simp [Request.KeysFit, Call.KeysFit, Call.keys]) second
      obtain ⟨lookups, -⟩ := reads_survive_errors tried (withinLimits_of_added few)
      obtain ⟨found, isFound, given_⟩ := lookups [2]
      have seen := answer_of_passes got
      obtain rfl : found = some [8] := Except.ok.inj (isFound.symm.trans seen)
      obtain ⟨origin, member, shows, survives⟩ := given_ [8] rfl
      exact ⟨env, _, w', origin, tried, ids, readers, seen, member, shows, survives⟩

end KvEngine
