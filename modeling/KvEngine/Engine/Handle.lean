import KvEngine.Engine.History
import KvEngine.Foundations.SharedLock

/-!
# The thread-safe handle

`DB` shares one engine behind a lock.  A method locks, calls the method of the engine and
unlocks; a panic in between poisons the lock, and every later method then panics at its
`lock().unwrap()`.  A write runs in two steps, storing and the flush at its end, so that
other clients find the engine between them if the lock should let them.

`close` takes the engine out of its handle, which it can only do with the last reference.
-/

namespace KvEngine

open Foundations Engine

/-- A point-in-time copy of metrics. -/
structure MetricsSnapshot where
  writes : Nat
  reads : Nat
  deletes : Nat
  compactions : Nat
  flushes : Nat
  deriving DecidableEq, Repr

/-- Copy the counters. -/
def Metrics.snapshot (m : Metrics) : MetricsSnapshot where
  writes := m.writes
  reads := m.reads
  deletes := m.deletes
  compactions := m.compactions
  flushes := m.flushes

namespace DB

/-- A method that runs under the lock, with its arguments. -/
inductive Method
  | put (key value : Bytes)
  | delete (key : Bytes)
  | get (key : Bytes)
  | scan (start stop : Bytes)
  | prefixScan (keyPrefix : Bytes)
  | writeBatch (batch : WriteBatch)
  | snapshot
  | getAt (key : Bytes) (snap : Snapshot)
  | putWithTtl (key value : Bytes) (ttl : Nat)
  | metrics
  deriving DecidableEq, Repr

/-- What a method returns. -/
inductive Reply
  | done
  | found (value : Option Bytes)
  | listed (entries : List (Bytes × Bytes))
  | taken (snap : Snapshot)
  | counted (metrics : MetricsSnapshot)
  deriving DecidableEq, Repr

/-- `Ok` or `Err` of a method that does not panic. -/
abbrev Outcome := Except KvError Reply

namespace Method

/-- The call of the engine that a method makes if it writes. -/
def call? : Method → Option Call
  | .put key value => some (.put key value)
  | .delete key => some (.delete key)
  | .writeBatch batch => some (.writeBatch batch)
  | .putWithTtl key value ttl => some (.putWithTtl key value ttl)
  | _ => none

/-- The method of the engine that is called under the lock. -/
def run : Method → EngineM Reply
  | .put key value => do
      Engine.put key value
      pure .done
  | .delete key => do
      Engine.delete key
      pure .done
  | .get key => do
      let value ← Engine.get key
      pure (.found value)
  | .scan start stop => do
      let entries ← Engine.scan start stop
      pure (.listed entries)
  | .prefixScan keyPrefix => do
      let entries ← Engine.prefixScan keyPrefix
      pure (.listed entries)
  | .writeBatch batch => do
      Engine.writeBatch batch
      pure .done
  | .snapshot => do
      let e ← self
      pure (.taken (Engine.snapshot e))
  | .getAt key snap => do
      let value ← Engine.getAt key snap
      pure (.found value)
  | .putWithTtl key value ttl => do
      Engine.putWithTtl key value ttl
      pure .done
  | .metrics => do
      let e ← self
      pure (.counted e.metrics.snapshot)

end Method

/-- What is left to run of a method: all of it, or the flush at the end of a write. -/
inductive Code
  | whole (method : Method)
  | flush
  deriving DecidableEq, Repr

/-- How a part of a method goes on.  A loop that does not end keeps the lock. -/
def turn {α : Type} (now : Code) (w : World) (next : α → Turn Code Outcome) :
    EStateM.Result Failure World α → Turn Code Outcome × World
  | .ok a w' => (next a, w')
  | .error (.err e) w' => (.done (.error e), w')
  | .error .panic w' => (.panicked, w')
  | .error .outOfFuel _ => (.more now, w)

/-- Whether the call ends with a flush; an empty batch returns at once. -/
def flushes : Call → Bool
  | .writeBatch batch => !batch.isEmpty
  | _ => true

/-- The engine behind the lock. -/
def object : Object World Method Code Outcome where
  start := .whole
  step
    | .whole method, w =>
        match method.call? with
        | some call =>
            turn (.whole method) w
              (fun _ => if flushes call then .more .flush else .done (.ok .done)) (call.store w)
        | none => turn (.whole method) w (fun reply => .done (.ok reply)) (method.run w)
    | .flush, w => turn .flush w (fun _ => .done (.ok .done)) (maybeFlush w)

/-- `close` of a client: the engine is closed if the client has the last reference and can
take it out of its lock. -/
def close (last poisoned : Bool) : EngineM Unit :=
  if last then
    if poisoned then throw .panic else Engine.close
  else throw (.err (.internal "cannot close: other references exist"))

/-! ## One method under the lock -/

variable {w w' : World} {method : Method}

/-- The engine comes to this outcome; `none` is a panic. -/
def Gives (x : EngineM Reply) (w : World) (outcome : Option Outcome) (w' : World) : Prop :=
  match outcome with
  | some (.ok reply) => Ends x w reply w'
  | some (.error e) => Fails x w (.err e) w'
  | none => Fails x w .panic w'

/-- The engine, called by a single caller, gives the method this outcome. -/
def Method.Returns (method : Method) (w : World) (outcome : Option Outcome) (w' : World) : Prop :=
  Gives method.run w outcome w'

theorem gives_pure {reply : Reply} {outcome : Option Outcome} :
    Gives (pure reply) w outcome w' ↔ outcome = some (.ok reply) ∧ w' = w := by
  cases outcome with
  | none => simp [Gives]
  | some result =>
      cases result with
      | ok reply' => simp [Gives, eq_comm]
      | error e => simp [Gives]

/-- A sequence comes to the outcome of its rest, or the failure of its first part is one. -/
theorem gives_bind {α : Type} {x : EngineM α} {f : α → EngineM Reply} {outcome : Option Outcome} :
    Gives (x >>= f) w outcome w' ↔
      (∃ a w₁, Ends x w a w₁ ∧ Gives (f a) w₁ outcome w') ∨
        (∃ e, Fails x w (.err e) w' ∧ outcome = some (.error e)) ∨
          Fails x w .panic w' ∧ outcome = none := by
  cases outcome with
  | none => simp [Gives, fails_bind, or_comm]
  | some result =>
      cases result with
      | ok reply => simp [Gives, ends_bind]
      | error e => simp [Gives, fails_bind, or_comm]

/-- What follows a part of a method: it goes on to the outcome, or it stopped with it. -/
def Follows (outcome : Option Outcome) (w' : World) : Turn Code Outcome → World → Prop
  | .more k, w => object.Runs k w outcome w'
  | .done result, w => outcome = some result ∧ w' = w
  | .panicked, w => outcome = none ∧ w' = w

/-- A part of a method has ended before what follows, or its failure is the outcome. -/
theorem runs_turn {α : Type} {k : Code} {x : EngineM α} {next : α → Turn Code Outcome}
    {outcome : Option Outcome} (step : object.step k w = turn k w next (x w)) :
    object.Runs k w outcome w' ↔
      (∃ a w₁, Ends x w a w₁ ∧ Follows outcome w' (next a) w₁) ∨
        (∃ e, Fails x w (.err e) w' ∧ outcome = some (.error e)) ∨
          Fails x w .panic w' ∧ outcome = none := by
  have follows : ∀ {t w₁}, object.step k w = (t, w₁) →
      (object.Runs k w outcome w' ↔ Follows outcome w' t w₁) := by
    intro t w₁ isTurn
    refine ⟨fun runs => ?_, fun follows => ?_⟩
    · cases runs with
      | done step' => cases isTurn.symm.trans step'; exact ⟨rfl, rfl⟩
      | panicked step' => cases isTurn.symm.trans step'; exact ⟨rfl, rfl⟩
      | more step' rest => cases isTurn.symm.trans step'; exact rest
    · cases t with
      | more k' => exact .more isTurn follows
      | done result =>
          obtain ⟨rfl, rfl⟩ := follows
          exact .done isTurn
      | panicked =>
          obtain ⟨rfl, rfl⟩ := follows
          exact .panicked isTurn
  unfold Ends Fails
  cases ran : x w with
  | ok a w₁ =>
      rw [ran] at step
      simp [follows step]
  | error failure w₁ =>
      rw [ran] at step
      cases failure with
      | err e => simp [follows step, Follows, and_comm, eq_comm]
      | panic => simp [follows step, Follows, and_comm, eq_comm]
      | outOfFuel => simp [Object.Runs.not_of_more step]

/-- A write is its store and, unless it is an empty batch, a flush. -/
theorem run_of_call {call : Call} (isWrite : method.call? = some call) :
    method.run = call.store >>= fun _ =>
      (if flushes call then maybeFlush else pure ()) >>= fun _ => pure .done := by
  cases method with
  | put key value => cases isWrite; exact bind_assoc ..
  | delete key => cases isWrite; exact bind_assoc ..
  | putWithTtl key value ttl => cases isWrite; exact bind_assoc ..
  | writeBatch batch =>
      cases isWrite
      simp only [Method.run, Engine.writeBatch, Call.store, flushes]
      by_cases empty : batch.isEmpty = true
      · simp [empty]
      · simp only [Bool.not_eq_true] at empty
        simp [empty]
  | _ => cases isWrite

theorem step_of_read (isRead : method.call? = none) : object.step (.whole method) w =
    turn (.whole method) w (fun reply => .done (.ok reply)) (method.run w) := by
  show (match method.call? with
    | some call => turn (.whole method) w _ (call.store w)
    | none => turn (.whole method) w _ (method.run w)) = _
  rw [isRead]

theorem step_of_write {call : Call} (isWrite : method.call? = some call) :
    object.step (.whole method) w = turn (.whole method) w
      (fun _ => if flushes call then .more .flush else .done (.ok .done)) (call.store w) := by
  show (match method.call? with
    | some call => turn (.whole method) w _ (call.store w)
    | none => turn (.whole method) w _ (method.run w)) = _
  rw [isWrite]

/-- The flush at the end of a write. -/
theorem runs_flush {outcome : Option Outcome} : object.Runs .flush w outcome w' ↔
    Gives (maybeFlush >>= fun _ => pure .done) w outcome w' := by
  have step : object.step .flush w = turn .flush w (fun _ => .done (.ok .done)) (maybeFlush w) := rfl
  rw [runs_turn step, gives_bind]
  simp only [Follows, gives_pure]

/-- **The lock hides the steps**: what a method comes to under it is what the engine gives a
single caller. -/
theorem runs_iff_returns {outcome : Option Outcome} :
    object.Runs (object.start method) w outcome w' ↔ method.Returns w outcome w' := by
  cases isWrite : method.call? with
  | none =>
      rw [Method.Returns, ← bind_pure method.run, gives_bind]
      simp only [gives_pure]
      exact runs_turn (step_of_read isWrite)
  | some call =>
      rw [Method.Returns, run_of_call isWrite, gives_bind]
      refine (runs_turn (step_of_write isWrite)).trans ?_
      cases flushes call with
      | true => simp only [if_true, Follows, runs_flush]
      | false => simp [Follows, gives_pure]

/-! ## What the calls store -/

/-- The request of a client that a method comes to, if it does more than look at a field. -/
def Method.request? : Method → Option Request
  | .put key value => some (.write (.put key value))
  | .delete key => some (.write (.delete key))
  | .get key => some (.get key)
  | .scan start stop => some (.scan start stop)
  | .prefixScan keyPrefix => some (.scan keyPrefix (nextKey keyPrefix))
  | .writeBatch batch => some (.write (.writeBatch batch))
  | .getAt key snap => some (.getAt key snap)
  | .putWithTtl key value ttl => some (.write (.putWithTtl key value ttl))
  | _ => none

/-- What the method stores in the world in which it runs. -/
def Method.stores (w : World) (method : Method) : List Store :=
  (method.request?.map (Request.stores w)).getD []

/-- The keys that the method writes fit the block format. -/
def Method.KeysFit (method : Method) : Prop := ∀ request ∈ method.request?, request.KeysFit

variable {ι : Type} {reply : Reply}

theorem Method.ends_request (run : Ends method.run w reply w') {request : Request}
    (comes : method.request? = some request) : ∃ response, Ends request.run w response w' := by
  cases method with
  | snapshot => cases comes
  | metrics => cases comes
  | _ =>
      cases comes
      obtain ⟨a, w₁, first, rest⟩ := ends_bind.mp run
      obtain ⟨-, rfl⟩ := ends_pure.mp rest
      exact ⟨_, ends_bind.mpr ⟨a, w₁, first, ends_pure.mpr ⟨rfl, rfl⟩⟩⟩

theorem extending_method (method : Method) : Extending method.run := by
  cases method with
  | put key value => exact (extending_call (.put key value)).bind fun _ => .pure _
  | delete key => exact (extending_call (.delete key)).bind fun _ => .pure _
  | get key => exact (extending_get key).bind fun _ => .pure _
  | scan start stop => exact (extending_scan start stop).bind fun _ => .pure _
  | prefixScan keyPrefix => exact (extending_scan _ _).bind fun _ => .pure _
  | writeBatch batch => exact (extending_call (.writeBatch batch)).bind fun _ => .pure _
  | snapshot => exact Extending.self.bind fun _ => .pure _
  | getAt key snap => exact (extending_getAt key snap).bind fun _ => .pure _
  | putWithTtl key value ttl =>
      exact (extending_call (.putWithTtl key value ttl)).bind fun _ => .pure _
  | metrics => exact Extending.self.bind fun _ => .pure _

theorem Method.eq_of_request_none (run : Ends method.run w reply w') (none : method.request? = none) :
    w' = w := by
  cases method with
  | snapshot =>
      obtain ⟨e, w₁, this, rest⟩ := ends_bind.mp run
      obtain ⟨rfl, rfl⟩ := ends_self.mp this
      exact (ends_pure.mp rest).2.symm
  | metrics =>
      obtain ⟨e, w₁, this, rest⟩ := ends_bind.mp run
      obtain ⟨rfl, rfl⟩ := ends_self.mp this
      exact (ends_pure.mp rest).2.symm
  | _ => cases none

/-! ## Calls one after the other -/

/-- A single caller makes the calls one after the other and gets these outcomes. -/
inductive Alone (w₀ : World) : List (Section ι Method Outcome) → World → Prop
  | start : Alone w₀ [] w₀
  | next {log : List (Section ι Method Outcome)} {w w' : World} {e : Section ι Method Outcome}
      (before : Alone w₀ log w) (returns : e.op.Returns w e.outcome w') : Alone w₀ (log ++ [e]) w'

theorem alone_iff_serial {w₀ w : World} {log : List (Section ι Method Outcome)} :
    Alone w₀ log w ↔ Serial object w₀ log w := by
  constructor
  · intro alone
    induction alone with
    | start => exact .start
    | next _ returns inductionHypothesis =>
        exact inductionHypothesis.next (runs_iff_returns.mpr returns)
  · intro serial
    induction serial with
    | start => exact .start
    | next _ run inductionHypothesis => exact inductionHypothesis.next (runs_iff_returns.mp run)

/-- The calls were all answered with `Ok`; together they stored this. -/
inductive Acknowledged (w₀ : World) : List (Section ι Method Outcome) → List Store → World → Prop
  | start : Acknowledged w₀ [] [] w₀
  | next {log : List (Section ι Method Outcome)} {stores : List Store} {w w' : World} {client : ι}
      {method : Method} {reply : Reply} (before : Acknowledged w₀ log stores w)
      (run : Ends method.run w reply w') :
      Acknowledged w₀ (log ++ [⟨client, method, some (.ok reply)⟩]) (stores ++ method.stores w) w'

/-- A call that was answered with `Ok`. -/
def Ok (e : Section ι Method Outcome) : Prop := ∃ reply, e.outcome = some (.ok reply)

theorem Alone.acknowledged {w₀ : World} {log : List (Section ι Method Outcome)}
    (alone : Alone w₀ log w) (ok : ∀ e ∈ log, Ok e) : ∃ stores, Acknowledged w₀ log stores w := by
  induction alone with
  | start => exact ⟨[], .start⟩
  | @next log w w' e before returns inductionHypothesis =>
      obtain ⟨stores, acknowledged⟩ :=
        inductionHypothesis fun e' member => ok e' (List.mem_append_left _ member)
      obtain ⟨client, method, outcome⟩ := e
      obtain ⟨reply, rfl⟩ := ok _ (List.mem_append_right _ List.mem_cons_self)
      exact ⟨_, acknowledged.next returns⟩

/-- Each request of the log meets `Serves` where it is served. -/
def Meets (Serves : World → Request → Prop) (w₀ : World) (log : List (Section ι Method Outcome)) :
    Prop :=
  ∀ before e after stores w, log = before ++ e :: after → Acknowledged w₀ before stores w →
    ∀ request ∈ e.op.request?, Serves w request

/-- **Induction over acknowledged calls**: what their requests keep is kept. -/
theorem Acknowledged.induct {P : List Store → World → Prop} {Serves : World → Request → Prop}
    {w₀ : World} {stores : List Store} {log : List (Section ι Method Outcome)}
    (acknowledged : Acknowledged w₀ log stores w) (keys : ∀ e ∈ log, e.op.KeysFit)
    (meets : Meets Serves w₀ log) (start : P [] w₀)
    (served : ∀ stores w (request : Request) response w', P stores w → request.KeysFit →
      Serves w request → Ends request.run w response w' →
      P (stores ++ request.stores w) w') : P stores w := by
  induction acknowledged with
  | start => exact start
  | @next log stores w w' client method reply before run inductionHypothesis =>
      have earlier := inductionHypothesis (fun e member => keys e (List.mem_append_left _ member))
        fun before e after stores w split =>
          meets before e (after ++ [⟨client, method, some (.ok reply)⟩]) stores w (by simp [split])
      cases comes : method.request? with
      | none =>
          obtain rfl := Method.eq_of_request_none run comes
          rw [Method.stores, comes, Option.map_none, Option.getD_none, List.append_nil]
          exact earlier
      | some request =>
          obtain ⟨response, ran⟩ := Method.ends_request run comes
          rw [Method.stores, comes, Option.map_some, Option.getD_some]
          exact served _ _ _ _ _ earlier
            (keys _ (List.mem_append_right _ List.mem_cons_self) request comes)
            (meets log _ [] stores w rfl before request comes) ran

end DB

end KvEngine
