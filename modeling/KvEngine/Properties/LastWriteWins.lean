import KvEngine.Engine.ReadSpec
import KvEngine.Engine.Session

/-!
# The last write wins

As long as a key is not written again, its newest version survives flushes and
compactions, provided that it shows something at every clock reading: a version
that shows nothing may be dropped by a compaction.
-/

namespace KvEngine

open Foundations Engine

variable {w w₁ w' : World} {level : Nat}

/-- A stored value that shows something whatever the clock reads. -/
def Lasting (x : Bytes) : Prop := ∀ t, (shown t x).isSome

theorem lasting_encodeWithSeq {v : Bytes} (plain : Opaque v) (seq : Nat) :
    Lasting (encodeWithSeq v seq) := fun t => by
  rw [shown_encodeWithSeq plain]
  rfl

/-! ## The newest version -/

/-- A compaction keeps a newest version that lasts. -/
theorem Engine.Compaction.head?_versionsOf {time : Bytes → Nat} {added : Option Table}
    (compaction : Compaction w level time added w') (inv : Inv w)
    (ordered : Ordered w.eng.manifest w.eng.sstReaders) (topmost : Topmost w.eng.manifest level)
    {key x : Bytes} (newest : (w.eng.versionsOf key).head? = some x) (lasting : Lasting x) :
    (w'.eng.versionsOf key).head? = some x := by
  obtain ⟨before, merged⟩ := compaction.versionsOf_before inv ordered topmost key
  rw [before, List.append_assoc, List.head?_append] at newest
  rw [compaction.versionsOf_after, List.append_assoc, List.head?_append, merged]
  -- the newest version is in the memtable, or taken up, or left
  cases inMemory : (w.eng.memtable.versionsOf key).head? with
  | some y =>
      rw [inMemory] at newest
      exact newest
  | none =>
      rw [inMemory, Option.none_or, List.head?_append] at newest
      rw [Option.none_or, List.head?_append]
      cases taken : (w.eng.takenVersions level key).head? with
      | none =>
          rw [taken] at newest
          exact newest
      | some y =>
          rw [taken] at newest
          cases newest
          rw [Option.filter_some, if_pos (lasting _)]
          rfl

theorem Engine.Cascade.head?_versionsOf (cascade : Cascade level w w')
    (ordered : Ordered w.eng.manifest w.eng.sstReaders) {key x : Bytes}
    (newest : (w.eng.versionsOf key).head? = some x) (lasting : Lasting x) :
    (w'.eng.versionsOf key).head? = some x := by
  induction cascade with
  | done => exact newest
  | step inv topmost compaction _ inductionHypothesis =>
      exact inductionHypothesis (compaction.ordered inv ordered topmost)
        (compaction.head?_versionsOf inv ordered topmost newest lasting)

theorem Engine.Flushed.head?_versionsOf (flushed : Flushed w w')
    (ordered : Ordered w.eng.manifest w.eng.sstReaders) {key x : Bytes}
    (newest : (w.eng.versionsOf key).head? = some x) (lasting : Lasting x) :
    (w'.eng.versionsOf key).head? = some x := by
  cases flushed with
  | nothing _ same => exact same ▸ newest
  | flush frozen invThawed flush map cascade =>
      rw [← flush.versionsOf_eq frozen map key] at newest
      exact cascade.head?_versionsOf (flush.ordered invThawed ordered) newest lasting

/-- A call that does not write the key keeps a newest version that lasts. -/
theorem InSession.head?_versionsOf (session : InSession w) {call : Call} {u : Unit}
    (keys : call.KeysFit) (limits : WithinLimits w'.sys) (run : Ends call.run w u w')
    {key x : Bytes} (other : key ∉ call.keys) (newest : (w.eng.versionsOf key).head? = some x)
    (lasting : Lasting x) : (w'.eng.versionsOf key).head? = some x := by
  obtain ⟨-, t, w₁, -, accepted, -, flushed, -⟩ := session.idle.ends_call keys limits run
  refine flushed.head?_versionsOf (accepted.ordered session.ordered) ?_ lasting
  have versions : w₁.eng.versionsOf key = w.eng.versionsOf key :=
    accepted.versionsOf_of_notMem session.idle.inv fun s hs same =>
      other (same ▸ Call.key_mem_keys hs)
  rw [versions]
  exact newest

/-- A `put` of an opaque value makes it the newest version of its key. -/
theorem InSession.head?_versionsOf_put (session : InSession w) {key value : Bytes} {u : Unit}
    (keys : (Call.put key value).KeysFit) (limits : WithinLimits w'.sys)
    (run : Ends (Call.put key value).run w u w') (plain : Opaque value) :
    (w'.eng.versionsOf key).head? = some (encodeWithSeq value w.eng.nextSeq) := by
  obtain ⟨-, t, w₁, -, accepted, -, flushed, -⟩ := session.idle.ends_call keys limits run
  refine flushed.head?_versionsOf (accepted.ordered session.ordered) ?_
    (lasting_encodeWithSeq plain _)
  have first := accepted.versionsOf_single session.idle.inv session.idle.free
  rw [first]
  rfl

/-! ## The last write of a key -/

/-- The last call that writes the key is `put(key, value)`. -/
def LastWrite (calls : List Call) (key value : Bytes) : Prop :=
  ∃ before after, calls = before ++ .put key value :: after ∧ ∀ call ∈ after, key ∉ call.keys

/-- **The last write wins** in every session, however many flushes and compactions it
goes through. -/
theorem get_last_put {opts : Options} {env : Env} {e : Engine} {s : Sys} {calls : List Call}
    {key value : Bytes} (opened : Ends (openWithOptions opts) (Sys.initial env) e s)
    (ran : Ends (runCalls calls) ⟨e, s⟩ () w) (limits : WithinLimits w.sys)
    (keys : ∀ call ∈ calls, call.KeysFit) (last : LastWrite calls key value)
    (plain : Opaque value) : ∃ w', Engine.get key w = .ok (some value) w' := by
  obtain ⟨before, after, rfl, others⟩ := last
  obtain ⟨w₁, ranBefore, ranRest⟩ := ends_runCalls_append.mp ran
  obtain ⟨u, w₂, put, ranAfter⟩ := ends_bind.mp ranRest
  have limits₂ := limits.of_extends (extending_runCalls after _ _ _ ranAfter).sys
  have limits₁ := limits₂.of_extends (extending_call _ _ _ _ put).sys
  obtain ⟨session₁, -⟩ := (started opened).inSession.ends_runCalls (P := fun _ => True)
    (fun c hc => keys c (List.mem_append_left _ hc)) limits₁ ranBefore trivial
    (fun _ _ _ _ _ _ _ _ _ _ => trivial)
  have keysPut := keys _ (List.mem_append_right before List.mem_cons_self)
  have session₂ := session₁.ends_call keysPut limits₂ put
  have newest := session₁.head?_versionsOf_put keysPut limits₂ put plain
  -- the newest version survives the rest of the run
  obtain ⟨session, newest⟩ := session₂.ends_runCalls
    (P := fun w => (w.eng.versionsOf key).head? = some (encodeWithSeq value w₁.eng.nextSeq))
    (fun c hc => keys c (List.mem_append_right _ (List.mem_cons_of_mem _ hc))) limits ranAfter newest
    (fun call hc w₃ u w₄ session₃ _ limits₄ run newest => session₃.head?_versionsOf
      (keys call (List.mem_append_right _ (List.mem_cons_of_mem _ hc))) limits₄ run
      (others call hc) newest (lasting_encodeWithSeq plain _))
  obtain ⟨w', -, answer⟩ := get_run session.idle.inv key
  rw [newest, Option.bind_some, shown_encodeWithSeq plain] at answer
  exact ⟨w', answer⟩

/-- A run in which the key is overwritten twice and every call flushes and compacts. -/
theorem get_last_put_overwritten :
    ∃ e s w w', Ends (openWithOptions { memtableSize := 0, l0CompactionThreshold := 1, maxLevels := 3 })
        (Sys.initial .steady) e s ∧
      Ends (runCalls [.put [1] [7], .writeBatch ⟨[.put [1] [8], .delete [2]]⟩, .put [1] [9],
        .delete [2], .putWithTtl [3] [5] 60]) ⟨e, s⟩ () w ∧
      Engine.get [1] w = .ok (some [9]) w' := by
  obtain ⟨e, s, w, opened, ran, limits, -⟩ := exists_session
    { memtableSize := 0, l0CompactionThreshold := 1, maxLevels := 3 } .steady
    [.put [1] [7], .writeBatch ⟨[.put [1] [8], .delete [2]]⟩, .put [1] [9], .delete [2],
      .putWithTtl [3] [5] 60] (fun _ => true) (by decide +kernel)
  have last : LastWrite [.put [1] [7], .writeBatch ⟨[.put [1] [8], .delete [2]]⟩, .put [1] [9],
      .delete [2], .putWithTtl [3] [5] 60] [1] [9] :=
    ⟨[.put [1] [7], .writeBatch ⟨[.put [1] [8], .delete [2]]⟩],
      [.delete [2], .putWithTtl [3] [5] 60], rfl, by decide⟩
  obtain ⟨w', answer⟩ :=
    get_last_put opened ran limits (by unfold Call.KeysFit; decide) last (by decide)
  exact ⟨e, s, w, w', opened, ran, answer⟩

end KvEngine
