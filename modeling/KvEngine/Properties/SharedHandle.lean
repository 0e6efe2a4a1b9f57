import KvEngine.Engine.Handle
import KvEngine.Properties.CrashSafety
import KvEngine.Properties.TwoLevels

/-!
# Threads that share a database

The clones of a `DB` are used by many threads at once.  Their calls take effect one after
the other, in the order in which they release the lock, so that what holds of the engine
with a single caller holds of the handle:

* every answer is the one a single caller gets, and is given after its call;
* a read shows what the writes before it stored, whichever threads made them;
* what was acknowledged is still there after the handle is gone;
* whoever closes the handle is the only one left;
* after a panic under the lock nothing is done any more.
-/

namespace KvEngine

open Foundations Engine

namespace DB

section Threads

variable {ι : Type} [DecidableEq ι] {w₀ : World} {i j : ι} {es : List (Event ι Method Outcome)}
  {c c' : Config ι World Method Code}

/-- **The handle is linearizable.**  The calls that have released the lock got what a single
caller gets who makes them in that order, and they led to the engine that is there when the
lock is free.  Each of them was called by its thread before it was answered, and the thread
made no other call in between. -/
theorem handle_linearizable (run : Run object (.new w₀ i) es c) :
    (∃ w, Alone w₀ (sections es) w ∧ (c.holder = none → c.value = w)) ∧
      ∀ before after j method outcome, es = before ++ .released j method outcome :: after →
        Calls before j method := by
  refine ⟨?_, ?_⟩
  · cases holds : c.holder with
    | none => exact ⟨c.value, alone_iff_serial.mpr (run.explained.free holds), fun _ => rfl⟩
    | some k =>
        obtain ⟨-, op, left, w, -, serial, -⟩ := run.explained.held k holds
        exact ⟨w, alone_iff_serial.mpr serial, nofun⟩
  · rintro before after j method outcome rfl
    obtain ⟨c₁, c₂, first, next, -⟩ := run.split
    exact first.calls_of_released next

/-- Every history of a single caller whose calls do not panic arises, whichever threads make
the calls. -/
theorem runs_of_alone {w : World} {log : List (Section ι Method Outcome)} (alone : Alone w₀ log w)
    (i : ι) (sound : ∀ e ∈ log, e.outcome ≠ none) :
    ∃ es c, Run object (.new w₀ i) es c ∧ sections es = log ∧ c.value = w ∧ Run.Quiet c i :=
  Run.of_serial (alone_iff_serial.mp alone) i sound

omit [DecidableEq ι] in
theorem Alone.ok {log : List (Section ι Method Outcome)} {w w' : World} {j : ι}
    {method : Method} {reply : Reply} (before : Alone w₀ log w) (run : Ends method.run w reply w') :
    Alone w₀ (log ++ [⟨j, method, some (.ok reply)⟩]) w' := before.next run

/-- While one thread is between storing and flushing, another one calls and has to wait. -/
theorem handle_linearizable_waiting : ∃ (w₀ w : World) (es : List (Event Nat Method Outcome)),
    es = [.cloned 0 1, .called 0 (.put [1] [7]), .entered 0, .worked 0, .called 1 (.get [1]),
        .released 0 (.put [1] [7]) (some (.ok .done)), .entered 1,
        .released 1 (.get [1]) (some (.ok (.found (some [7]))))] ∧
      Alone w₀ (sections es) w ∧ w.eng.metrics.flushes = 1 ∧
      ∀ before after j method outcome, es = before ++ .released j method outcome :: after →
        Calls before j method := by
  have passed : passes (openWithOptions { memtableSize := 0 }) (Sys.initial .steady) (fun e s =>
      passes (Call.put [1] [7]).store ⟨e, s⟩ fun _ w =>
        passes maybeFlush w fun _ w =>
          passes (Method.get [1]).run w fun r w =>
            r == .found (some [7]) && w.eng.metrics.flushes == 1) = true := by
    decide +kernel
  obtain ⟨e, s, -, rest⟩ := ends_of_passes passed
  obtain ⟨u₁, w₁, stored, rest⟩ := ends_of_passes rest
  obtain ⟨u₂, w₂, flushed, rest⟩ := ends_of_passes rest
  obtain ⟨r, w₃, got, rest⟩ := ends_of_passes rest
  simp only [Bool.and_eq_true, beq_iff_eq] at rest
  obtain ⟨rfl, counted⟩ := rest
  have storing : object.step (.whole (.put [1] [7])) ⟨e, s⟩ = (.more .flush, w₁) := by
    rw [step_of_write rfl, stored.eq_ok]
    rfl
  have flushing : object.step .flush w₁ = (.done (.ok .done), w₂) := by
    show turn _ _ _ (maybeFlush w₁) = _
    rw [flushed.eq_ok]
    rfl
  have reading : object.step (.whole (.get [1])) w₂ = (.done (.ok (.found (some [7]))), w₃) := by
    rw [step_of_read rfl, got.eq_ok]
    rfl
  let c₀ : Config Nat World Method Code := .new ⟨e, s⟩ 0
  obtain ⟨c, run, value, free⟩ : ∃ c, Run object c₀ _ c ∧ c.value = w₃ ∧ c.holder = none :=
    ⟨_, .cons (.cloned (i := 0) (j := 1) rfl rfl) <| .cons (.called (i := 0) _ rfl) <|
      .cons (.entered (i := 0) rfl rfl rfl) <| .cons (.worked (i := 0) rfl storing) <|
        .cons (.called (i := 1) _ rfl) <| .cons (.returned (i := 0) rfl flushing) <|
          .cons (.entered (i := 1) rfl rfl rfl) <| .cons (.returned (i := 1) rfl reading) .start,
      rfl, rfl⟩
  obtain ⟨⟨w, alone, isValue⟩, called⟩ := handle_linearizable run
  exact ⟨_, w, _, rfl, alone, by rw [← isValue free, value, counted], called⟩

/-- **A panic under the lock is final.**  Nothing is done any more: the engine stays as the
panic left it, every later call panics too, and so does closing. -/
theorem panic_is_final {before after : List (Event ι Method Outcome)} {method : Method}
    (run : Run object (.new w₀ i) (before ++ .released j method none :: after) c) :
    (∃ w, Alone w₀ (sections before) w ∧ Fails method.run w .panic c.value) ∧
      sections after = [] ∧ Fails (close true c.poisoned) c.value .panic c.value := by
  obtain ⟨c₁, c₂, first, next, later⟩ := run.split
  cases next with
  | panicked isInside step =>
      obtain ⟨-, -, w, serial, steps⟩ := first.explained.underway isInside
      have returns := runs_iff_returns.mp (steps.runs (.panicked step))
      have panicked := first.append (Run.start.step (.panicked isInside step))
      obtain ⟨poisoned, value, none⟩ := panicked.poisoned rfl later
      rw [value, poisoned]
      exact ⟨⟨w, alone_iff_serial.mpr serial, returns⟩, none, rfl⟩

/-- A time to live that the clock cannot be added to panics. -/
theorem putWithTtl_panics {w : World} {ttl : Nat} (large : u64Limit ≤ w.sys.time + ttl)
    (key value : Bytes) :
    Fails (Call.putWithTtl key value ttl).store w .panic ⟨w.eng, w.sys.later 1⟩ := by
  have panics : checkedAdd u64Limit w.sys.time ttl = .error .panic := if_neg (not_lt.mpr large)
  have read : Ends (onSys now) w w.sys.time ⟨w.eng, w.sys.later 1⟩ := ends_onSys.mpr ⟨_, now_run _, rfl⟩
  exact fails_bind.mpr (Or.inr ⟨_, _, read, fails_bind.mpr (Or.inl (by rw [panics]; rfl))⟩)

/-- One thread asks for such a time to live while another one waits to read. -/
theorem panic_is_final_ttl : ∃ (w₀ : World) (es : List (Event Nat Method Outcome))
    (c : Config Nat World Method Code),
    Run object (.new w₀ 0)
        (es ++ [.released 1 (.putWithTtl [1] [2] (2 ^ 64 - 1)) none, .refused 0 (.get [1])]) c ∧
      Fails (close true c.poisoned) c.value .panic c.value := by
  have passed : passes (openWithOptions {}) (Sys.initial .steady)
      (fun _ s => decide (u64Limit ≤ s.time + (2 ^ 64 - 1))) = true := by decide +kernel
  obtain ⟨e, s, -, large⟩ := ends_of_passes passed
  let w₀ : World := ⟨e, s⟩
  let method : Method := .putWithTtl [1] [2] (2 ^ 64 - 1)
  have panics := putWithTtl_panics (w := w₀) (of_decide_eq_true large) [1] [2]
  have step : object.step (.whole method) w₀ = (.panicked, ⟨e, s.later 1⟩) := by
    rw [step_of_write rfl, show Call.store _ w₀ = _ from panics]
    rfl
  let c₀ : Config Nat World Method Code := .new w₀ 0
  have run : Run object c₀ [.cloned 0 1, .called 0 (.get [1]), .called 1 method, .entered 1,
      .released 1 method none, .refused 0 (.get [1])] _ :=
    .cons (.cloned (i := 0) (j := 1) rfl rfl) <| .cons (.called (i := 0) _ rfl) <|
      .cons (.called (i := 1) _ rfl) <| .cons (.entered (i := 1) rfl rfl rfl) <|
        .cons (.panicked (i := 1) rfl step) <| .cons (.refused (i := 0) rfl rfl rfl) .start
  let before : List (Event Nat Method Outcome) :=
    [.cloned 0 1, .called 0 (.get [1]), .called 1 method, .entered 1]
  have split : Run object c₀ (before ++ .released 1 method none :: [.refused 0 (.get [1])]) _ := run
  exact ⟨w₀, before, _, run, (panic_is_final split).2.2⟩

/-- A call that is answered: what came before it, and its own run. -/
theorem acknowledged_of_released (run : Run object (.new w₀ i) es c) {method : Method}
    {reply : Reply} (next : Step object c (.released j method (some (.ok reply))) c')
    (ok : ∀ e ∈ sections es, Ok e) :
    ∃ stores w, Acknowledged w₀ (sections es) stores w ∧ Ends method.run w reply c'.value := by
  cases next with
  | returned isInside step =>
      obtain ⟨-, -, w, serial, steps⟩ := run.explained.underway isInside
      obtain ⟨stores, acknowledged⟩ := (alone_iff_serial.mpr serial).acknowledged ok
      exact ⟨stores, w, acknowledged, runs_iff_returns.mp (steps.runs (.done step))⟩

/-- **Reads under concurrency.**  In a session with two levels a lookup is answered with what
the writes leave that released the lock before it, whichever threads made them, and so is a
range read during which the clock stands still. -/
theorem shared_reads {env : Env} {opts : Options} {e : Engine} {s : Sys}
    (forward : Monotone env.clock) (two : opts.maxLevels ≤ 2)
    (opened : Ends (openWithOptions opts) (Sys.initial env) e s)
    (run : Run object (.new ⟨e, s⟩ i) es c) {method : Method} {reply : Reply}
    (next : Step object c (.released j method (some (.ok reply))) c')
    (ok : ∀ x ∈ sections es, Ok x) (keys : ∀ x ∈ sections es, x.op.KeysFit)
    (fits : FilesFit c'.value.sys) :
    ∃ stores w, Acknowledged ⟨e, s⟩ (sections es) stores w ∧
      (∀ key, method = .get key →
        reply = .found ((shownIn stores w.sys.time).lookup key)) ∧
      ∀ start stop t, method = .scan start stop → w.sys.ClockAt t →
        reply = .listed ((shownIn stores t).entries.filter (fun b => inRange start stop b.1)) := by
  obtain ⟨stores, w, acknowledged, ran⟩ := acknowledged_of_released run next ok
  have history : History env (fun opts => opts.maxLevels ≤ 2) stores w :=
    acknowledged.induct (P := History env _) keys
      (show Meets (fun _ _ => True) _ _ from fun _ _ _ _ _ _ _ _ _ => trivial) (.opened two opened)
      fun _ _ _ _ _ before keys _ run => before.served keys run
  have fits₁ : FilesFit w.sys := fits.of_extends (extending_method _ _ _ _ ran).sys
  obtain ⟨gets, scans⟩ := actsAs_of_visible (history.reached.resting fits₁).inv
    (two_levels forward history fits₁).mirrors
  refine ⟨stores, w, acknowledged, ?_, ?_⟩
  · rintro key rfl
    obtain ⟨a, w₁, got, rest⟩ := ends_bind.mp ran
    obtain ⟨rfl, -⟩ := ends_pure.mp rest
    exact congrArg Reply.found (Except.ok.inj ((answer_of_ok got).symm.trans (gets key)))
  · rintro start stop t rfl still
    obtain ⟨a, w₁, got, rest⟩ := ends_bind.mp ran
    obtain ⟨rfl, -⟩ := ends_pure.mp rest
    exact congrArg Reply.listed
      (Except.ok.inj ((answer_of_ok got).symm.trans (scans t still start stop)))

/-- One thread writes and deletes; another one, which reads afterwards, finds nothing. -/
theorem shared_reads_deleted : ∃ (w₀ w : World) (log : List (Section Nat Method Outcome))
    (stores : List Store), log.length = 2 ∧ Acknowledged w₀ log stores w ∧
      (shownIn stores w.sys.time).lookup [1] = none := by
  let opts : Options := { memtableSize := 0, l0CompactionThreshold := 1, maxLevels := 2 }
  have passed : passes (openWithOptions opts) (Sys.initial .steady) (fun e s =>
      passes (Method.put [1] [7]).run ⟨e, s⟩ fun _ w =>
        passes (Method.delete [1]).run w fun _ w =>
          passes (Method.get [1]).run w fun reply w =>
            decide ((w.sys.journal.map FsOp.added).sum < 2 ^ 32) && reply == .found none) = true := by
    decide +kernel
  obtain ⟨e, s, opened, rest⟩ := ends_of_passes passed
  obtain ⟨r₁, w₁, put, rest⟩ := ends_of_passes rest
  obtain ⟨r₂, w₂, deleted, rest⟩ := ends_of_passes rest
  obtain ⟨reply, w₃, got, rest⟩ := ends_of_passes rest
  obtain ⟨few, isNone⟩ := Bool.and_eq_true_iff.mp rest
  obtain rfl := beq_iff_eq.mp isNone
  let first : Section Nat Method Outcome := ⟨1, .put [1] [7], some (.ok r₁)⟩
  let second : Section Nat Method Outcome := ⟨1, .delete [1], some (.ok r₂)⟩
  obtain ⟨es, c, run, log, rfl, quiet⟩ :=
    runs_of_alone ((Alone.start.ok (j := 1) put).ok (j := 1) deleted) 0 (by simp)
  -- the reader is served next
  have step : object.step (.whole (.get [1])) c.value = (.done (.ok (.found none)), w₃) := by
    rw [step_of_read rfl, got.eq_ok]
    rfl
  have entered : Run object (.new ⟨e, s⟩ 0) (es ++ [.called 0 (.get [1]), .entered 0]) _ :=
    run.append <| .cons (.called _ quiet.self) <|
      .cons (.entered (Config.phase_enter_self ..) quiet.free quiet.sound) .start
  have same : sections (es ++ [.called 0 (.get [1]), .entered 0]) = [first, second] := by
    rw [sections_append, log]
    rfl
  have ok : ∀ x ∈ [first, second], Ok x := by
    rintro x (_ | ⟨_, _ | ⟨_, ⟨⟩⟩⟩)
    · exact ⟨_, rfl⟩
    · exact ⟨_, rfl⟩
  have keys : ∀ x ∈ [first, second], x.op.KeysFit := by
    rintro x (_ | ⟨_, _ | ⟨_, ⟨⟩⟩⟩)
    · rintro request ⟨⟩ key (_ | ⟨_, ⟨⟩⟩)
      decide
    · rintro request ⟨⟩ key (_ | ⟨_, ⟨⟩⟩)
      decide
  obtain ⟨stores, w, acknowledged, gets, -⟩ := shared_reads (fun _ _ _ => le_rfl) (by decide) opened
    entered (.returned (Config.phase_enter_self ..) step) (same ▸ ok) (same ▸ keys)
    (filesFit_of_added (of_decide_eq_true few))
  exact ⟨_, w, _, stores, congrArg List.length same, acknowledged,
    (Reply.found.inj (gets [1] rfl)).symm⟩

omit [DecidableEq ι] in
/-- What the threads of a handle are answered adds to what survived before. -/
theorem Acknowledged.durable {log : List (Section ι Method Outcome)} {stores : List Store}
    {env : Env} {attempts : List Attempt} {w : World} (acknowledged : Acknowledged w₀ log stores w)
    (lived : Lived env attempts (.up w₀)) (keys : ∀ x ∈ log, x.op.KeysFit)
    (late : Meets FreezesLate w₀ log) (fits : FilesFit w.sys) :
    ∃ before, Survived attempts before ∧ ForgetsNothing w.eng.opts ∧ Resting w ∧
      Durable (before ++ stores) w := by
  refine acknowledged.induct
    (P := fun stores w => FilesFit w.sys → ∃ before, Survived attempts before ∧
      ForgetsNothing w.eng.opts ∧ Resting w ∧ Durable (before ++ stores) w) keys late
    (fun fits₀ => ?_) (fun stores w request response w' inductionHypothesis keys late run fits => ?_)
    fits
  · obtain ⟨before, survived, holds⟩ := lived.holds fits₀
    exact ⟨before, survived, by rwa [List.append_nil]⟩
  · have goesOn := extending_request _ _ _ _ run
    obtain ⟨before, survived, allowed, resting, durable⟩ :=
      inductionHypothesis (fits.of_extends goesOn.sys)
    refine ⟨before, survived, goesOn.opts ▸ allowed,
      resting.ends_request keys fits.withinLimits run, ?_⟩
    rw [← List.append_assoc]
    exact durable.request resting allowed keys late fits run

/-- **Nothing acknowledged is lost.**  Threads share a database with a single level whose log is
synced.  However it stops, also on the way through the next call, the session after it acts as
the map of what was there before, all that the threads were told is written, and a first part
of the call that was cut short. -/
theorem shared_durable {env : Env} {attempts new : List Attempt} (lived : Lived env attempts (.up w₀))
    (run : Run object (.new w₀ i) es c) (free : c.holder = none) (ok : ∀ x ∈ sections es, Ok x)
    (keys : ∀ x ∈ sections es, x.op.KeysFit) (late : Meets FreezesLate w₀ (sections es))
    {s s' : Sys} {opts : Options} {e : Engine} (stopped : Stopped c.value new s)
    (reopened : Ends (openWithOptions opts) s e s') (fits : FilesFit s') :
    ∃ stores before after, Acknowledged w₀ (sections es) stores c.value ∧
      Survived attempts before ∧ Survived new after ∧ ActsAs ⟨e, s'⟩ (before ++ stores ++ after) := by
  have fits₁ : FilesFit s := fits.of_extends ⟨_, (ends_openWithOptions reopened).2⟩
  have fits₂ : FilesFit c.value.sys := fits₁.of_extends stopped.extends
  obtain ⟨stores, acknowledged⟩ := (alone_iff_serial.mpr (run.explained.free free)).acknowledged ok
  obtain ⟨before, survived, allowed, resting, durable⟩ :=
    acknowledged.durable lived keys late fits₂
  obtain ⟨after, part, remains⟩ := durable.stopped resting allowed stopped fits₁
  obtain ⟨durable', resting'⟩ := remains.opened fits₁ reopened
  exact ⟨stores, before, after, acknowledged, survived, part,
    actsAs_of_visible resting'.inv fun t _ key => durable'.mirrors t key⟩

omit [DecidableEq ι] in
/-- Calls of `put` with a short key keep the limits, and none of them is a batch. -/
theorem limits_of_puts {log : List (Section ι Method Outcome)} {key : Bytes}
    (short : key.length < 2 ^ 16) (puts : ∀ x ∈ log, ∃ value, x.op = .put key value) :
    (∀ x ∈ log, x.op.KeysFit) ∧ Meets FreezesLate w₀ log := by
  constructor
  · intro x member request comes
    obtain ⟨value, isPut⟩ := puts x member
    rw [isPut] at comes
    cases comes
    rintro other (_ | ⟨_, ⟨⟩⟩)
    exact short
  · intro before x after stores w split _ request comes batch isBatch
    obtain ⟨value, isPut⟩ := puts x (by simp [split])
    rw [isPut] at comes
    cases comes
    cases isBatch

/-- Two threads write, and the process is killed. -/
theorem shared_durable_killed : ∃ (w₀ w : World) (log : List (Section Nat Method Outcome))
    (stores : List Store) (e : Engine) (s : Sys), log.length = 2 ∧ Acknowledged w₀ log stores w ∧
      ActsAs ⟨e, s⟩ stores ∧ answer (get [1]) ⟨e, s⟩ = .ok (some [9]) := by
  let opts : Options := { maxLevels := 1 }
  have allowed : ForgetsNothing opts := by unfold ForgetsNothing; decide
  have passed : passes (openWithOptions opts) (Sys.initial .steady) (fun e s =>
      passes (Method.put [1] [7]).run ⟨e, s⟩ fun _ w =>
        passes (Method.put [1] [9]).run w fun _ w =>
          passes (openWithOptions opts) w.sys fun e s =>
            decide ((s.journal.map FsOp.added).sum < 2 ^ 32) &&
              passes (get [1]) ⟨e, s⟩ (fun x _ => x == some [9])) = true := by
    decide +kernel
  obtain ⟨e, s, opened, rest⟩ := ends_of_passes passed
  obtain ⟨r₁, w₁, first, rest⟩ := ends_of_passes rest
  obtain ⟨r₂, w₂, second, rest⟩ := ends_of_passes rest
  obtain ⟨e₁, s₁, reopened, rest⟩ := ends_of_passes rest
  obtain ⟨few, got⟩ := Bool.and_eq_true_iff.mp rest
  obtain ⟨es, c, run, log, rfl, quiet⟩ :=
    runs_of_alone ((Alone.start.ok (j := 1) first).ok (j := 2) second) 0 (by simp)
  have ok : ∀ x ∈ sections es, Ok x := by
    rw [log]
    rintro x (_ | ⟨_, _ | ⟨_, ⟨⟩⟩⟩)
    · exact ⟨_, rfl⟩
    · exact ⟨_, rfl⟩
  have puts : ∀ x ∈ sections es, ∃ value, x.op = .put [1] value := by
    rw [log]
    rintro x (_ | ⟨_, _ | ⟨_, ⟨⟩⟩⟩)
    · exact ⟨_, rfl⟩
    · exact ⟨_, rfl⟩
  obtain ⟨keys, late⟩ := limits_of_puts (by decide) puts
  obtain ⟨stores, before, after, acknowledged, none, none', acts⟩ := shared_durable
    (.opened .created allowed opened) run quiet.free ok keys late (.left .killed) reopened
    (filesFit_of_added (of_decide_eq_true few))
  obtain rfl := none.of_nil
  obtain rfl := none'.of_nil
  rw [List.nil_append, List.append_nil] at acts
  exact ⟨_, _, _, stores, e₁, s₁, congrArg List.length log, acknowledged, acts,
    answer_of_passes got⟩

/-- **Closing keeps everything.**  A client that gets to close the engine is alone with it: no
thread is in a call, and nothing happens to the handle afterwards.  All that the threads were
answered is there when the directory is opened again. -/
theorem close_keeps_everything {env : Env} {attempts : List Attempt}
    (lived : Lived env attempts (.up w₀)) (run : Run object (.new w₀ i) es c)
    (next : Step object c (.unwrapped j) c') (ok : ∀ x ∈ sections es, Ok x)
    (keys : ∀ x ∈ sections es, x.op.KeysFit) (late : Meets FreezesLate w₀ (sections es))
    {w : World} {s : Sys} {opts : Options} {e : Engine}
    (closed : Ends (close true c.poisoned) c.value () w)
    (reopened : Ends (openWithOptions opts) (drop w) e s) (fits : FilesFit s) :
    ((∀ k method, ¬ (c.phase k).Of method) ∧ ∀ es' c'', Run object c' es' c'' → es' = []) ∧
      ∃ stores before, Acknowledged w₀ (sections es) stores c.value ∧ Survived attempts before ∧
        ActsAs ⟨e, s⟩ (before ++ stores) := by
  obtain ⟨serial, idle, nothing⟩ := run.unwrapped next
  have closes : Ends Engine.close c.value () w := by
    cases sound : c.poisoned with
    | false =>
        rw [sound] at closed
        exact closed
    | true =>
        rw [sound] at closed
        cases closed
  have left : Left c.value (drop w) := .closed closes
  have fits₁ : FilesFit (drop w) := fits.of_extends ⟨_, (ends_openWithOptions reopened).2⟩
  obtain ⟨stores, acknowledged⟩ := (alone_iff_serial.mpr serial).acknowledged ok
  obtain ⟨before, survived, allowed, resting, durable⟩ :=
    acknowledged.durable lived keys late (fits₁.of_extends left.extends)
  have remains : Remains (before ++ stores) (drop w) :=
    .whole (durable.left resting allowed.1 left fits₁)
  obtain ⟨durable', resting'⟩ := remains.opened fits₁ reopened
  exact ⟨⟨idle, fun es' c'' later => (nothing later).1⟩, stores, before, acknowledged, survived,
    actsAs_of_visible resting'.inv fun t _ key => durable'.mirrors t key⟩

/-- A single client stores a value and closes the database. -/
theorem close_keeps_everything_put : ∃ (w₀ w : World) (es : List (Event Nat Method Outcome))
    (c c' : Config Nat World Method Code) (stores : List Store) (e : Engine) (s : Sys),
    Run object (.new w₀ 0) es c ∧ Step object c (.unwrapped 0) c' ∧ Ends Engine.close c.value () w ∧
      (∀ es' c'', Run object c' es' c'' → es' = []) ∧ ActsAs ⟨e, s⟩ stores ∧
      answer (get [1]) ⟨e, s⟩ = .ok (some [7]) := by
  let opts : Options := { maxLevels := 1 }
  have allowed : ForgetsNothing opts := by unfold ForgetsNothing; decide
  have passed : passes (openWithOptions opts) (Sys.initial .steady) (fun e s =>
      passes (Method.put [1] [7]).run ⟨e, s⟩ fun _ w =>
        passes Engine.close w fun _ w =>
          passes (openWithOptions opts) (drop w) fun e s =>
            decide ((s.journal.map FsOp.added).sum < 2 ^ 32) &&
              passes (get [1]) ⟨e, s⟩ (fun x _ => x == some [7])) = true := by
    decide +kernel
  obtain ⟨e, s, opened, rest⟩ := ends_of_passes passed
  obtain ⟨reply, w₁, put, rest⟩ := ends_of_passes rest
  obtain ⟨u, w₂, closed, rest⟩ := ends_of_passes rest
  obtain ⟨e', s', reopened, rest⟩ := ends_of_passes rest
  obtain ⟨few, got⟩ := Bool.and_eq_true_iff.mp rest
  let c₀ : Config Nat World Method Code := .new ⟨e, s⟩ 0
  have called : Step object c₀ (.called 0 (.put [1] [7])) (c₀.enter 0 (.waiting (.put [1] [7]))) :=
    .called _ (by rw [Config.phase_new, if_pos rfl])
  have returns : (Method.put [1] [7]).Returns ⟨e, s⟩ (some (.ok reply)) w₁ := put
  obtain ⟨es, run, log⟩ := Run.of_waiting (c := c₀.enter 0 (.waiting (.put [1] [7])))
    (c₀.phase_enter_self 0 _) rfl rfl (runs_iff_returns.mpr returns)
  let c : Config Nat World Method Code :=
    { (c₀.enter 0 (.waiting (.put [1] [7]))).enter 0 .idle with value := w₁, poisoned := false }
  have next : Step object c (.unwrapped 0) (c.enter 0 .absent) := by
    refine .unwrapped ((c₀.enter 0 (.waiting (.put [1] [7]))).phase_enter_self 0 .idle)
      fun j other => ?_
    show ((c₀.enter 0 (.waiting (.put [1] [7]))).enter 0 .idle).phase j = .absent
    rw [Config.phase_enter_of_ne _ _ other, Config.phase_enter_of_ne _ _ other, Config.phase_new,
      if_neg other]
  have whole : Run object c₀ (.called 0 (.put [1] [7]) :: es) c := .cons called run
  have released : sections (.called 0 (.put [1] [7]) :: es) =
      [⟨0, .put [1] [7], some (.ok reply)⟩] := log
  have isPut : ∀ x ∈ sections (.called 0 (.put [1] [7]) :: es),
      Ok x ∧ ∃ value, x.op = .put [1] value := by
    rw [released]
    rintro x (_ | ⟨_, ⟨⟩⟩)
    exact ⟨⟨_, rfl⟩, _, rfl⟩
  obtain ⟨keys, late⟩ := limits_of_puts (by decide) fun x member => (isPut x member).2
  obtain ⟨⟨-, last⟩, stores, before, -, none, acts⟩ := close_keeps_everything
    (.opened .created allowed opened) whole next (fun x member => (isPut x member).1) keys late
    closed reopened (filesFit_of_added (of_decide_eq_true few))
  obtain rfl := none.of_nil
  rw [List.nil_append] at acts
  exact ⟨⟨e, s⟩, w₂, _, c, _, stores, e', s', whole, next, closed, last, acts, answer_of_passes got⟩

end Threads

end DB

end KvEngine
