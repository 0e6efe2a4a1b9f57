import KvEngine.Engine.Handle
import KvEngine.Engine.Logged
import KvEngine.Engine.Room

/-!
# Availability

As long as no file operation fails, no level below level 0 that may be compacted has a threshold of
zero or one that overflows, and the requests of a session cost less than 2^30 together, nothing
fails: neither opening, nor a request, nor closing, nor opening again.  What an entry costs counts
its key twice, since the index repeats it.  Several threads may share the engine: none of them
finds the lock poisoned, and whoever holds the lock comes to release it.
-/

namespace KvEngine

open Foundations Engine

/-- The bytes that a request may add to the tables and to the log: for each entry twice its key,
its value as it is stored and 22 more. -/
def Request.cost : Request → Nat
  | .write call => call.cost
  | _ => 0

/-- Whatever the clock says, it can be added to the time to live. -/
def Request.TtlFits (env : Env) : Request → Prop
  | .write (.putWithTtl _ _ ttl) => ∀ n, env.clock n + ttl < u64Limit
  | _ => True

variable {w w' : World} {budget : Nat}

/-! ## One request -/

/-- What an engine holds, and the numbers that it has given away, after requests that cost this
much. -/
structure Charged (budget : Nat) (w : World) : Prop where
  light : Light budget w
  schedulable : w.eng.opts.Schedulable
  ids : w.eng.nextSstId ≤ 21 * budget + 1
  seqs : w.eng.nextSeq ≤ budget + 1

namespace Charged

theorem opened {opts : Options} {env : Env} {e : Engine} {s : Sys} (faultless : env.Faultless)
    (schedulable : opts.Schedulable) (run : Ends (openWithOptions opts) (Sys.initial env) e s) :
    Charged 0 ⟨e, s⟩ := by
  have begun := started run
  obtain ⟨recovered, -⟩ := ends_openWithOptions run
  refine ⟨.opened faultless run, ?_, ?_, begun.nextSeq.le⟩
  · rw [begun.options]
    exact schedulable
  · rw [recovered.nextSstId, show e.sstReaders = [] from begun.readers]
    exact le_rfl

theorem observed (charged : Charged budget w) (observed : Observed w w') : Charged budget w' := by
  have light := charged.light.observed observed
  obtain ⟨⟨blockCache, metrics, n, rfl⟩, -⟩ := observed
  exact ⟨light, charged.schedulable, charged.ids, charged.seqs⟩

/-- A read is free. -/
theorem read {request : Request} (charged : Charged budget w)
    (isRead : ∀ call, request ≠ .write call) :
    ∃ response w', Ends request.run w response w' ∧ Charged (budget + request.cost) w' := by
  obtain ⟨response, w', observed, run⟩ := read_run charged.light.inv isRead
  have free : request.cost = 0 := by
    cases request with
    | write call => exact absurd rfl (isRead call)
    | _ => rfl
  rw [free]
  exact ⟨response, w', run, charged.observed observed⟩

/-- **A request** that is still within the budget ends with `Ok`. -/
theorem request {request : Request} (charged : Charged budget w)
    (small : budget + request.cost < 2 ^ 30) (keys : request.KeysFit)
    (ttlFits : request.TtlFits w.sys.env) :
    ∃ response w', Ends request.run w response w' ∧ Charged (budget + request.cost) w' := by
  have ids := charged.ids
  have seqs := charged.seqs
  cases request with
  | write call =>
      change budget + call.cost < 2 ^ 30 at small
      have fits : TtlFits w call := by
        cases call with
        | putWithTtl key value ttl => exact ttlFits w.sys.ticks
        | _ => exact trivial
      obtain ⟨w', run, light, ids', seqs'⟩ :=
        charged.light.call_run small charged.schedulable keys fits (by unfold u64Limit; omega)
          (by unfold u64Limit; omega)
      refine ⟨.done, w', ends_write run, light, ?_, ?_, ?_⟩
      · rw [(extending_call _ _ _ _ run).opts]
        exact charged.schedulable
      · show w'.eng.nextSstId ≤ 21 * (budget + call.cost) + 1
        omega
      · show w'.eng.nextSeq ≤ budget + call.cost + 1
        omega
  | _ => exact charged.read (by simp)

/-- **Requests**, one after the other. -/
theorem serve {requests : List Request} (charged : Charged budget w)
    (small : budget + (requests.map Request.cost).sum < 2 ^ 30)
    (keys : ∀ request ∈ requests, request.KeysFit)
    (ttlFits : ∀ request ∈ requests, request.TtlFits w.sys.env) :
    ∃ (responses : List Response) (w' : World),
      KvEngine.serve requests w = (responses.map Except.ok, w') ∧
      Charged (budget + (requests.map Request.cost).sum) w' := by
  induction requests generalizing budget w with
  | nil => exact ⟨[], w, rfl, charged⟩
  | cons request requests inductionHypothesis =>
      rw [List.map_cons, List.sum_cons, ← Nat.add_assoc] at small ⊢
      obtain ⟨response, w₁, run, charged₁⟩ := charged.request (by omega)
        (keys request List.mem_cons_self) (ttlFits request List.mem_cons_self)
      have env := (extending_request request _ _ _ run).sys.env
      obtain ⟨responses, w', later, charged'⟩ := inductionHypothesis charged₁ small
        (fun r member => keys r (List.mem_cons_of_mem _ member))
        (fun r member => env ▸ ttlFits r (List.mem_cons_of_mem _ member))
      refine ⟨response :: responses, w', ?_, charged'⟩
      rw [KvEngine.serve, run.eq_ok]
      simp only [later, List.map_cons]

end Charged

/-- The state after requests is one that is reached. -/
theorem reached_serve {env : Env} {requests : List Request} {responses : List Response}
    (reached : Reached env w) (keys : ∀ request ∈ requests, request.KeysFit)
    (ran : serve requests w = (responses.map Except.ok, w')) : Reached env w' := by
  induction requests generalizing w responses with
  | nil => exact (Prod.mk.inj ran).2 ▸ reached
  | cons request requests inductionHypothesis =>
      rw [serve] at ran
      cases outcome : request.run w with
      | ok response w₁ =>
          simp only [outcome, Prod.mk.injEq] at ran
          cases responses with
          | nil => cases ran.1
          | cons r responses =>
              obtain ⟨-, rest⟩ := List.cons.inj ran.1
              exact inductionHypothesis
                (reached.served (keys request List.mem_cons_self) trivial outcome)
                (fun r member => keys r (List.mem_cons_of_mem _ member)) (Prod.ext rest ran.2)
      | error e w₁ =>
          simp only [outcome, Prod.mk.injEq] at ran
          cases responses with
          | nil => cases ran.1
          | cons r responses => cases (List.cons.inj ran.1).1

/-! ## A session -/

/-- An empty directory is opened. -/
theorem opens_new {env : Env} (faultless : env.Faultless) (opts : Options) :
    ∃ e s, Ends (openWithOptions opts) (Sys.initial env) e s := by
  have manifest : manifestOf (Sys.initial env).dir = .ok Manifest.new := rfl
  have readers : tablesOf (Sys.initial env).dir Manifest.new.levels.flatten = .ok [] := rfl
  have log : logOf env.crc (Sys.initial env).dir = .ok [] := rfl
  exact openWithOptions_run faultless opts manifest readers (by simp) log

/-- **However an engine goes away**, its directory is opened again, as long as no file has
become too large. -/
theorem ReachedBy.reopens {env : Env} {Serves : World → Request → Prop} {Opens : Sys → Prop}
    (reached : ReachedBy env Serves Opens w) (faultless : env.Faultless) {s : Sys} (left : Left w s)
    (fits : FilesFit s) (opts : Options) : ∃ e s', Ends (openWithOptions opts) s e s' := by
  have fitsHere : FilesFit w.sys := fits.of_extends left.extends
  have resting := reached.resting fitsHere
  have env_eq : w.sys.env = env := reached.env_eq
  obtain ⟨rs, bs, logged⟩ := reached.logged faultless fitsHere
  obtain ⟨ts, file, oneLog, among⟩ := logged.left resting (reached.kept fitsHere)
    (Or.inr (env_eq ▸ faultless)) left fits.withinLimits
  have log := logOf_of_lookup oneLog file
    fun r member => logged.fits fitsHere resting.inv.history r (among r member)
  obtain ⟨w₁, ops, resting₁, -, did, onlyLog⟩ := left.resting resting fits.withinLimits
  refine resting₁.reopens (fits.of_extends ⟨ops, did⟩) ?_
    (fun f other => did.lookup_of_log onlyLog other) log opts
  rw [left.extends.env, env_eq]
  exact faultless

/-- **Below a gigabyte nothing fails.**  Where the disk works and no threshold below level 0 is
zero or overflows, a database is opened in an empty directory, answers each of its requests with `Ok`,
whatever is flushed and compacted on the way, and keeps all of its files within the range of a
`u32`; it is closed; and, whether it was killed, dropped or closed, its directory is opened
again. -/
theorem never_fails {env : Env} {opts : Options} {requests : List Request}
    (faultless : env.Faultless) (schedulable : opts.Schedulable)
    (small : (requests.map Request.cost).sum < 2 ^ 30)
    (keys : ∀ request ∈ requests, request.KeysFit)
    (ttlFits : ∀ request ∈ requests, request.TtlFits env) :
    ∃ (e : Engine) (s : Sys) (responses : List Response) (w w' : World),
      Ends (openWithOptions opts) (Sys.initial env) e s ∧
        serve requests ⟨e, s⟩ = (responses.map Except.ok, w) ∧ FilesFit w.sys ∧
          FilesFit (drop w) ∧ Ends close w () w' ∧ FilesFit (drop w') ∧
            ∀ s₁, s₁ = w.sys ∨ s₁ = drop w ∨ s₁ = drop w' →
              ∀ opts', ∃ e' s', Ends (openWithOptions opts') s₁ e' s' := by
  obtain ⟨e, s, opened⟩ := opens_new faultless opts
  have began := Charged.opened faultless schedulable opened
  obtain ⟨-, did⟩ := ends_openWithOptions opened
  have env_eq : s.env = env := did.env
  obtain ⟨responses, w, ran, charged⟩ := began.serve (by rwa [Nat.zero_add]) keys
    fun request member => env_eq ▸ ttlFits request member
  rw [Nat.zero_add] at charged
  have reached : Reached env w := reached_serve (.opened opened) keys ran
  have fits := charged.light.fits
  have fitsDropped := charged.light.filesFit_drop small
  have ids := charged.ids
  obtain ⟨w', closed, fits', empty⟩ := charged.light.close_run (reached.resting fits) small
    charged.schedulable
    (by unfold u64Limit; omega)
  have same : drop w' = w'.sys := BufWriter.drop_of_empty empty
  refine ⟨e, s, responses, w, w', opened, ran, fits, fitsDropped, closed, same ▸ fits', ?_⟩
  rintro s₁ (rfl | rfl | rfl) opts'
  · exact reached.reopens faultless .killed fits opts'
  · exact reached.reopens faultless .dropped fitsDropped opts'
  · exact reached.reopens faultless (.closed closed) (same ▸ fits') opts'

/-- A map with two entries that is written and read while everything is flushed at once. -/
theorem never_fails_flushing :
    ∃ (e : Engine) (s : Sys) (responses : List Response) (w w' : World),
      Ends (openWithOptions { memtableSize := 0, l0CompactionThreshold := 1, maxLevels := 3 })
          (Sys.initial .steady) e s ∧
        serve [.write (.put [1] [7]), .write (.putWithTtl [2] [8] 60), .write (.delete [1]),
            .scan [0] [9]] ⟨e, s⟩ = (responses.map Except.ok, w) ∧ FilesFit w.sys ∧
          FilesFit (drop w) ∧ Ends close w () w' ∧ FilesFit (drop w') ∧
            ∀ s₁, s₁ = w.sys ∨ s₁ = drop w ∨ s₁ = drop w' →
              ∀ opts', ∃ e' s', Ends (openWithOptions opts') s₁ e' s' := by
  refine never_fails (fun _ => rfl) (by unfold Options.Schedulable; decide) (by decide) ?_ ?_
  · simp [Request.KeysFit, Call.KeysFit, Call.keys]
  · simp [Request.TtlFits, Env.steady, u64Limit]

/-! ## Threads -/

namespace DB

/-- The bytes that a method may add to the tables and to the log. -/
def Method.cost (method : Method) : Nat := (method.request?.map Request.cost).getD 0

/-- Whatever the clock says, it can be added to the time to live. -/
def Method.TtlFits (env : Env) (method : Method) : Prop :=
  ∀ request ∈ method.request?, request.TtlFits env

/-- What calls have cost together. -/
def costOf {ι : Type} (log : List (Section ι Method Outcome)) : Nat :=
  (log.map (fun x => x.op.cost)).sum

variable {method : Method}

/-- A method ends if the request that it comes to does. -/
theorem Method.ends_of_request {request : Request} {response : Response}
    (comes : method.request? = some request) (run : Ends request.run w response w') :
    ∃ reply, Ends method.run w reply w' := by
  cases method with
  | snapshot => cases comes
  | metrics => cases comes
  | _ =>
      cases comes
      obtain ⟨a, w₁, first, rest⟩ := ends_bind.mp run
      obtain ⟨-, rfl⟩ := ends_pure.mp rest
      exact ⟨_, first.bind rfl⟩

/-- **A method** that is still within the budget returns `Ok`. -/
theorem Method.returns_ok (charged : Charged budget w) (small : budget + method.cost < 2 ^ 30)
    (keys : method.KeysFit) (ttlFits : method.TtlFits w.sys.env) :
    ∃ reply w', Ends method.run w reply w' ∧ Charged (budget + method.cost) w' := by
  cases comes : method.request? with
  | none =>
      have free : method.cost = 0 := by rw [Method.cost, comes]; rfl
      have looks : ∃ reply, Ends method.run w reply w := by
        cases method with
        | snapshot => exact ⟨_, (self_run w).bind rfl⟩
        | metrics => exact ⟨_, (self_run w).bind rfl⟩
        | _ => cases comes
      obtain ⟨reply, run⟩ := looks
      exact ⟨reply, w, run, by rwa [free]⟩
  | some request =>
      have same : method.cost = request.cost := by rw [Method.cost, comes]; rfl
      rw [same] at small ⊢
      obtain ⟨response, w', run, charged'⟩ :=
        charged.request small (keys request comes) (ttlFits request comes)
      obtain ⟨reply, run'⟩ := Method.ends_of_request comes run
      exact ⟨reply, w', run', charged'⟩

/-- What a method returns is what it is seen to return. -/
theorem Method.Returns.of_ends {outcome : Option Outcome} {reply : Reply} {w₁ : World}
    (returns : method.Returns w outcome w₁) (run : Ends method.run w reply w') :
    outcome = some (.ok reply) ∧ w₁ = w' := by
  cases outcome with
  | none => exact absurd returns run.not_fails
  | some result =>
      cases result with
      | ok reply' =>
          obtain ⟨rfl, rfl⟩ := Ends.unique returns run
          exact ⟨rfl, rfl⟩
      | error e => exact absurd returns run.not_fails

section Threads

variable {ι : Type} {w₀ : World} {log : List (Section ι Method Outcome)}

theorem Method.extends_of_ends {reply : Reply} (run : Ends method.run w reply w') :
    w'.sys.env = w.sys.env := by
  cases comes : method.request? with
  | none => rw [Method.eq_of_request_none run comes]
  | some request =>
      obtain ⟨response, ran⟩ := Method.ends_request run comes
      exact (extending_request request _ _ _ ran).sys.env

/-- **Calls one after the other** within the budget are all answered with `Ok`. -/
theorem Alone.charged (alone : Alone w₀ log w) (began : Charged 0 w₀) (small : costOf log < 2 ^ 30)
    (keys : ∀ x ∈ log, x.op.KeysFit) (ttlFits : ∀ x ∈ log, x.op.TtlFits w₀.sys.env) :
    (∀ x ∈ log, Ok x) ∧ w.sys.env = w₀.sys.env ∧ Charged (costOf log) w := by
  induction alone with
  | start => exact ⟨by simp, rfl, began⟩
  | @next log w w' x before returns inductionHypothesis =>
      have total : costOf (log ++ [x]) = costOf log + x.op.cost := by simp [costOf]
      rw [total] at small ⊢
      obtain ⟨ok, env, charged⟩ := inductionHypothesis (by omega)
        (fun y member => keys y (List.mem_append_left _ member))
        (fun y member => ttlFits y (List.mem_append_left _ member))
      have last : x ∈ log ++ [x] := List.mem_append_right _ List.mem_cons_self
      obtain ⟨reply, w₁, run, charged'⟩ :=
        Method.returns_ok charged small (keys x last) (env ▸ ttlFits x last)
      obtain ⟨isOk, rfl⟩ := Method.Returns.of_ends returns run
      refine ⟨fun y member => ?_, (Method.extends_of_ends run).trans env, charged'⟩
      rcases List.mem_append.mp member with old | new
      · exact ok y old
      · rw [List.mem_singleton.mp new]
        exact ⟨reply, isOk⟩

variable [DecidableEq ι] {i : ι} {es : List (Event ι Method Outcome)}
  {c : Config ι World Method Code}

/-- **Below a gigabyte no thread is let down.**  With thresholds that, below level 0, are neither
zero nor overflow, every call was answered with `Ok`, the lock is not poisoned, and whichever call holds
the lock, or finds it free, comes to be answered with `Ok` as well. -/
theorem threads_never_fail {env : Env} {opts : Options} {e : Engine} {s : Sys}
    (faultless : env.Faultless) (schedulable : opts.Schedulable)
    (opened : Ends (openWithOptions opts) (Sys.initial env) e s)
    (run : Run object (.new ⟨e, s⟩ i) es c) (small : costOf (sections es) < 2 ^ 30)
    (keys : ∀ x ∈ sections es, x.op.KeysFit) (ttlFits : ∀ x ∈ sections es, x.op.TtlFits env) :
    (∀ x ∈ sections es, Ok x) ∧ c.poisoned = false ∧
      ∀ j method, (c.phase j).Of method → c.holder = none ∨ c.holder = some j →
        costOf (sections es) + method.cost < 2 ^ 30 → method.KeysFit → method.TtlFits env →
          ∃ es' c' reply, Run object c es' c' ∧
            sections es' = [⟨j, method, some (.ok reply)⟩] ∧ c'.holder = none := by
  have began := Charged.opened faultless schedulable opened
  obtain ⟨-, did⟩ := ends_openWithOptions opened
  have env_eq : s.env = env := did.env
  have ttls : ∀ x ∈ sections es, x.op.TtlFits s.env := fun x member => env_eq ▸ ttlFits x member
  have ok : ∀ x ∈ sections es, Ok x := by
    cases holds : c.holder with
    | none =>
        have alone := alone_iff_serial.mpr (run.explained.free holds)
        exact (alone.charged began small keys ttls).1
    | some k =>
        obtain ⟨-, op, left, w, -, serial, -⟩ := run.explained.held k holds
        exact ((alone_iff_serial.mpr serial).charged began small keys ttls).1
  have sound : c.poisoned = false := by
    by_contra poisoned
    obtain ⟨before, k, op, log, -⟩ := run.explained.poisoned (Bool.not_eq_false _ ▸ poisoned)
    obtain ⟨reply, isOk⟩ := ok ⟨k, op, none⟩ (log ▸ List.mem_append_right _ List.mem_cons_self)
    cases isOk
  refine ⟨ok, sound, fun j method inCall turn room keysFit ttl => ?_⟩
  have ends : ∀ w, Serial object ⟨e, s⟩ (sections es) w →
      ∃ outcome w', (∃ reply, outcome = .ok reply) ∧
        object.Runs (object.start method) w (some outcome) w' := by
    intro w serial
    obtain ⟨-, env', charged⟩ := (alone_iff_serial.mpr serial).charged began small keys ttls
    obtain ⟨reply, w', ran, -⟩ := Method.returns_ok charged room keysFit
      (env'.trans env_eq ▸ ttl)
    exact ⟨.ok reply, w', ⟨reply, rfl⟩, runs_iff_returns.mpr ran⟩
  obtain ⟨es', c', outcome, ⟨reply, rfl⟩, run', ended, free⟩ := run.finishes inCall sound turn ends
  exact ⟨es', c', reply, run', ended, free⟩

/-- Two threads wait for the lock; the second one takes it and is served. -/
theorem threads_never_fail_waiting :
    ∃ (w₀ : World) (es es' : List (Event Nat Method Outcome)) (c c' : Config Nat World Method Code)
      (reply : Reply), Run object (.new w₀ 0) es c ∧ c.phase 0 = .waiting (.get [1]) ∧
        Run object c es' c' ∧ sections es' = [⟨1, .put [1] [7], some (.ok reply)⟩] ∧
          c'.holder = none := by
  obtain ⟨e, s, opened⟩ := opens_new (fun _ => rfl : Env.steady.Faultless) {}
  have run : Run object (.new ⟨e, s⟩ 0) [.cloned 0 1, .called 0 (.get [1]), .called 1 (.put [1] [7])]
      _ :=
    .cons (.cloned (i := 0) (j := 1) rfl rfl) <| .cons (.called (i := 0) _ rfl) <|
      .cons (.called (i := 1) _ rfl) .start
  obtain ⟨-, -, served⟩ := threads_never_fail (fun _ => rfl)
    (by unfold Options.Schedulable; decide) opened run (by decide) nofun nofun
  obtain ⟨es', c', reply, run', ended, free⟩ := served 1 (.put [1] [7]) rfl (Or.inl rfl) (by decide)
    (by simp [Method.KeysFit, Method.request?, Request.KeysFit, Call.KeysFit, Call.keys])
    (by simp [Method.TtlFits, Method.request?, Request.TtlFits])
  exact ⟨_, _, es', _, c', reply, run, rfl, run', ended, free⟩

end Threads

end DB

end KvEngine
