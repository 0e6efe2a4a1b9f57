import KvEngine.Engine.Reached

/-!
# Sessions and what they stored

`History` is a session together with everything that its writes stored, oldest first.  What
the engine is for is to answer like the map that these stores leave, read through the
clock: `ActsAs` says so of every lookup, and of every range read during which the clock stands
still.  The map holds the stored forms of the values, not the values: a put that reads as a
lifetime, and a batch value of eight bytes or more, are shown otherwise than they were given.
-/

namespace KvEngine

open Foundations Engine

/-- What the request stores in the world in which it is served. -/
def Request.stores (w : World) : Request → List Store
  | .write call => call.stores w.eng.nextSeq w.sys.time
  | _ => []

/-- The states of a session that starts on an empty directory with options that `Allows`
accepts, with what it stored, oldest first. -/
inductive History (env : Env) (Allows : Options → Prop) : List Store → World → Prop
  | opened {opts : Options} {e : Engine} {s : Sys} (allowed : Allows opts)
      (run : Ends (openWithOptions opts) (Sys.initial env) e s) : History env Allows [] ⟨e, s⟩
  | served {stores : List Store} {w w' : World} {request : Request} {response : Response}
      (before : History env Allows stores w) (keys : request.KeysFit)
      (run : Ends request.run w response w') : History env Allows (stores ++ request.stores w) w'

/-- A request is a call that stores, or it stores nothing and only observes. -/
theorem Resting.ends_request_stores {w w' : World} (resting : Resting w) {request : Request}
    {response : Response} (run : Ends request.run w response w') :
    (∃ call, request = .write call ∧ Ends call.run w () w') ∨
      (request.stores w = [] ∧ Observed w w') := by
  cases request with
  | write call =>
      obtain ⟨u, w₁, ran, rest⟩ := ends_bind.mp run
      obtain ⟨-, rfl⟩ := ends_pure.mp rest
      exact Or.inl ⟨call, rfl, ran⟩
  | _ =>
      rcases resting.ends_request_cases run with ⟨call, ⟨⟩, -⟩ | observed
      exact Or.inr ⟨rfl, observed⟩

/-- The map that the stores leave: the last one of a key decides. -/
def ledger (stores : List Store) : SortedMap Bytes Bytes :=
  SortedMap.empty.insertAll (stores.map Store.binding)

/-- What this map shows when the clock reads `t`. -/
def shownIn (stores : List Store) (t : Nat) : SortedMap Bytes Bytes :=
  (ledger stores).filterMapValues (shown t)

theorem lookup_shownIn (stores : List Store) (t : Nat) (key : Bytes) :
    (shownIn stores t).lookup key = ((ledger stores).lookup key).bind (shown t) :=
  SortedMap.lookup_filterMapValues _

/-- New stores come before the old ones. -/
theorem lookup_ledger_append (stores new : List Store) (key : Bytes) :
    (ledger (stores ++ new)).lookup key =
      (lookupList key (new.map Store.binding).reverse).or ((ledger stores).lookup key) := by
  rw [ledger, List.map_append, SortedMap.insertAll_append, SortedMap.lookup_insertAll]
  rfl

/-- A lookup answers with what the stored form that is last for its key shows at that moment, and
a range read, as long as the clock stands still, lists what the stored forms of its keys show. -/
def ActsAs (w : World) (stores : List Store) : Prop :=
  (∀ key, answer (get key) w = .ok ((shownIn stores w.sys.time).lookup key)) ∧
    ∀ t, w.sys.ClockAt t → ∀ start stop, answer (scan start stop) w =
      .ok ((shownIn stores t).entries.filter (fun b => inRange start stop b.1))

/-- Whether the engine acts as its stores shows in what is visible from now on. -/
theorem actsAs_of_visible {w : World} {stores : List Store} (inv : Inv w)
    (same : ∀ t, w.sys.time ≤ t → ∀ key,
      w.eng.visible t key = ((ledger stores).lookup key).bind (shown t)) : ActsAs w stores := by
  refine ⟨fun key => ?_, fun t still start stop => ?_⟩
  · rw [answer_get inv, same _ le_rfl, lookup_shownIn]
  · obtain ⟨map, scans, lookups⟩ := answer_scan inv still start stop
    have equal : map = (shownIn stores t).filter (fun b => inRange start stop b.1) := by
      refine SortedMap.ext fun key => ?_
      rw [lookups, SortedMap.lookup_filter, lookup_shownIn, same t still.time.le]
      cases ((ledger stores).lookup key).bind (shown t) with
      | none => exact ite_self none
      | some v => rw [Option.filter_some]
    rw [scans, equal]
    rfl

section History

variable {env : Env} {Allows : Options → Prop} {stores : List Store} {w : World}

/-- A session with its stores is a run. -/
theorem History.reached (history : History env Allows stores w) :
    ReachedBy env (fun _ _ => True) (fun _ => False) w := by
  induction history with
  | opened _ run => exact .opened run
  | served _ keys run inductionHypothesis => exact inductionHypothesis.served keys trivial run

/-- The options in force were allowed. -/
theorem History.allowed (history : History env Allows stores w) : Allows w.eng.opts := by
  induction history with
  | opened allowed run =>
      rw [(ends_openWithOptions run).1.options]
      exact allowed
  | served _ _ run inductionHypothesis =>
      rw [(extending_request _ _ _ _ run).opts]
      exact inductionHypothesis

/-- **Induction over a session and its stores.** -/
theorem History.induct {P : List Store → World → Prop} (history : History env Allows stores w)
    (fits : FilesFit w.sys)
    (opened : ∀ opts e s, Allows opts → Ends (openWithOptions opts) (Sys.initial env) e s →
      P [] ⟨e, s⟩)
    (served : ∀ stores w (request : Request) response w', History env Allows stores w →
      Resting w → FilesFit w'.sys → request.KeysFit → Ends request.run w response w' →
      P stores w → P (stores ++ request.stores w) w') : P stores w := by
  induction history with
  | opened allowed run => exact opened _ _ _ allowed run
  | @served stores w w' request response before keys run inductionHypothesis =>
      have fitsBefore := fits.of_extends (extending_request _ _ _ _ run).sys
      exact served _ _ _ _ _ before (before.reached.resting fitsBefore) fits keys run
        (inductionHypothesis fitsBefore)

/-- A session that goes on with calls that write, with what they stored. -/
theorem History.runCalls {calls : List Call} {w' : World} {u : Unit}
    (history : History env Allows stores w) (keys : ∀ call ∈ calls, call.KeysFit)
    (run : Ends (KvEngine.runCalls calls) w u w') : ∃ new, History env Allows (stores ++ new) w' := by
  induction calls generalizing stores w with
  | nil =>
      obtain ⟨-, rfl⟩ := ends_pure.mp run
      exact ⟨[], by rwa [List.append_nil]⟩
  | cons call calls inductionHypothesis =>
      obtain ⟨u₁, w₁, first, rest⟩ := ends_bind.mp run
      have fit : (Request.write call).KeysFit := keys call List.mem_cons_self
      obtain ⟨new, later⟩ := inductionHypothesis (.served history fit (ends_write first))
        (fun c hc => keys c (List.mem_cons_of_mem _ hc)) rest
      exact ⟨_, List.append_assoc .. ▸ later⟩

end History

end KvEngine
