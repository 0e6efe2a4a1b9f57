import KvEngine.Engine.FailedCalls

/-!
# Engines that endure errors

A call may return `Err`, and the engine is used on.  Whichever step has failed, the files of the
tables that it has open are there; only the manifest may be behind, until it is saved again by
the next flush or by closing.
-/

namespace KvEngine

open Foundations Engine

variable {env : Env} {w w' : World}

/-- A flush that fails leaves the files of what the engine has open. -/
theorem unharmed_of_failedFlush {k : KvError} (inv : Inv w) (onDisk : OnDisk w)
    (limits : WithinLimits w'.sys) (failed : Fails maybeFlush w (.err k) w') : Unharmed w' := by
  obtain ⟨imm, frozen, left⟩ := fails_maybeFlush inv limits failed
  refine ⟨left.inv inv, left.onDisk inv onDisk, ?_, left.ids⟩
  rw [left.memtable_eq]
  rfl

/-- **A call that fails** leaves them too. -/
theorem Unharmed.fails_call (unharmed : Unharmed w) {call : Call} {k : KvError}
    (keys : call.KeysFit) (limits : WithinLimits w'.sys) (failed : Fails call.run w (.err k) w') :
    Unharmed w' := by
  rcases Engine.fails_call failed with storing | ⟨w₁, stored, flushing⟩
  · have unlogged := fails_store unharmed.inv.memtable storing
    obtain ⟨wal, nextSeq, eng⟩ := unlogged.eng
    refine ⟨unlogged.inv unharmed.inv, unlogged.onDisk unharmed.onDisk, ?_, ?_⟩
    · rw [eng]
      exact unharmed.free
    · rw [eng]
      exact unharmed.ids
  · obtain ⟨accepted, -⟩ := ends_store_now stored
    exact unharmed_of_failedFlush (accepted.inv unharmed.inv fun s hs => keys _ (Call.key_mem_keys hs))
      (accepted.onDisk unharmed.onDisk) limits flushing

/-! ## Runs with errors -/

/-- The states that requests lead to, also requests that fail, and reopenings of directories
whose manifest is not behind. -/
inductive Endured (env : Env) : World → Prop
  | opened {opts : Options} {e : Engine} {s : Sys}
      (run : Ends (openWithOptions opts) (Sys.initial env) e s) : Endured env ⟨e, s⟩
  | served {w w' : World} {request : Request} {response : Response} (before : Endured env w)
      (keys : request.KeysFit) (run : Ends request.run w response w') : Endured env w'
  | failed {w w' : World} {call : Call} {k : KvError} (before : Endured env w)
      (keys : call.KeysFit) (run : Fails call.run w (.err k) w') : Endured env w'
  | closed {w w₁ : World} {s : Sys} {opts : Options} {e : Engine} (before : Endured env w)
      (closed : Ends close w () w₁) (run : Ends (openWithOptions opts) (drop w₁) e s)
      (keys : ∀ b ∈ e.memtable.active.contents.entries, b.1.length < 2 ^ 16) : Endured env ⟨e, s⟩
  | reopened {w : World} {s s' : Sys} {opts : Options} {e : Engine} (before : Endured env w)
      (saved : Saved w.sys.dir w.eng.manifest) (left : Left w s)
      (run : Ends (openWithOptions opts) s e s')
      (keys : ∀ b ∈ e.memtable.active.contents.entries, b.1.length < 2 ^ 16) : Endured env ⟨e, s'⟩

/-- **What every such state has in common.** -/
theorem Endured.unharmed (endured : Endured env w) (fits : FilesFit w.sys) : Unharmed w := by
  induction endured with
  | opened run => exact (Started.resting run).toUnharmed
  | served before keys run inductionHypothesis =>
      have earlier := fits.of_extends (extending_request _ _ _ _ run).sys
      exact (inductionHypothesis earlier).ends_request keys fits.withinLimits run
  | @failed w w' call k before keys run inductionHypothesis =>
      have earlier := fits.of_extends ((goesOn_call call).fails _ _ _ run)
      exact (inductionHypothesis earlier).fails_call keys fits.withinLimits run
  | @closed w w₁ s opts e before closed run keys inductionHypothesis =>
      obtain ⟨ops, dropped, -⟩ := BufWriter.drop_did w₁.eng.wal.file w₁.sys
      have fits₁ : FilesFit w₁.sys :=
        fits.of_extends (Sys.Extends.trans ⟨ops, dropped⟩ ⟨_, (ends_openWithOptions run).2⟩)
      have earlier := fits₁.of_extends (extending_close _ _ _ closed).sys
      have resting := (inductionHypothesis earlier).ends_close fits₁.withinLimits closed
      obtain ⟨ops', did, onlyLog⟩ := resting.stored.drop
      exact (resting.reopened fits₁ did onlyLog run keys).2.toUnharmed
  | @reopened w s s' opts e before saved left run keys inductionHypothesis =>
      have fits₁ : FilesFit s := fits.of_extends ⟨_, (ends_openWithOptions run).2⟩
      have resting : Resting w := ⟨inductionHypothesis (fits₁.of_extends left.extends), saved⟩
      obtain ⟨w₁, ops, resting₁, -, did, onlyLog⟩ := left.resting resting fits₁.withinLimits
      exact (resting₁.reopened (fits₁.of_extends ⟨_, did⟩) did onlyLog run keys).2.toUnharmed

theorem Endured.env_eq (endured : Endured env w) : w.sys.env = env := by
  induction endured with
  | opened run => exact (ends_openWithOptions run).2.env
  | served before keys run inductionHypothesis =>
      exact (extending_request _ _ _ _ run).sys.env.trans inductionHypothesis
  | @failed w w' call k before keys run inductionHypothesis =>
      exact ((goesOn_call call).fails _ _ _ run).env.trans inductionHypothesis
  | @closed w w₁ s opts e before closed run keys inductionHypothesis =>
      exact (ends_openWithOptions run).2.env.trans
        ((Left.closed closed).extends.env.trans inductionHypothesis)
  | reopened before saved left run keys inductionHypothesis =>
      exact (ends_openWithOptions run).2.env.trans (left.extends.env.trans inductionHypothesis)

theorem Endured.runCalls {calls : List Call} {u : Unit} (endured : Endured env w)
    (keys : ∀ call ∈ calls, call.KeysFit) (run : Ends (KvEngine.runCalls calls) w u w') :
    Endured env w' := by
  induction calls generalizing w with
  | nil =>
      obtain ⟨-, rfl⟩ := ends_pure.mp run
      exact endured
  | cons call calls inductionHypothesis =>
      obtain ⟨u₁, w₁, first, rest⟩ := ends_bind.mp run
      have fit : (Request.write call).KeysFit := keys call List.mem_cons_self
      exact inductionHypothesis (.served endured fit (ends_write first))
        (fun c member => keys c (List.mem_cons_of_mem _ member)) rest

/-- The states that requests lead to from `w`, also requests that fail, when every request
satisfies `Serves` in the state it is made in. -/
inductive Onward (Serves : World → Request → Prop) (w : World) : World → Prop
  | now : Onward Serves w w
  | served {w₁ w₂ : World} {request : Request} {response : Response} (before : Onward Serves w w₁)
      (keys : request.KeysFit) (meets : Serves w₁ request)
      (run : Ends request.run w₁ response w₂) : Onward Serves w w₂
  | failed {w₁ w₂ : World} {call : Call} {k : KvError} (before : Onward Serves w w₁)
      (keys : call.KeysFit) (meets : Serves w₁ (.write call))
      (run : Fails call.run w₁ (.err k) w₂) : Onward Serves w w₂

/-- **Induction over such a run.** What every request keeps, answered or not, holds in the end. -/
theorem Onward.induct {Serves : World → Request → Prop} {P : World → Prop}
    (onward : Onward Serves w w') (unharmed : Unharmed w) (fits : FilesFit w'.sys) (begun : P w)
    (served : ∀ w₁ request response w₂, Unharmed w₁ → FilesFit w₂.sys → request.KeysFit →
      Serves w₁ request → Ends request.run w₁ response w₂ → P w₁ → P w₂)
    (failed : ∀ w₁ call k w₂, Unharmed w₁ → FilesFit w₂.sys → call.KeysFit →
      Serves w₁ (.write call) → Fails call.run w₁ (.err k) w₂ → P w₁ → P w₂) :
    Unharmed w' ∧ P w' := by
  induction onward with
  | now => exact ⟨unharmed, begun⟩
  | @served w₁ w₂ request response before keys meets run inductionHypothesis =>
      obtain ⟨unharmed₁, held⟩ :=
        inductionHypothesis (fits.of_extends (extending_request _ _ _ _ run).sys)
      exact ⟨unharmed₁.ends_request keys fits.withinLimits run,
        served w₁ request response w₂ unharmed₁ fits keys meets run held⟩
  | @failed w₁ w₂ call k before keys meets run inductionHypothesis =>
      obtain ⟨unharmed₁, held⟩ :=
        inductionHypothesis (fits.of_extends ((goesOn_call call).fails _ _ _ run))
      exact ⟨unharmed₁.fails_call keys fits.withinLimits run,
        failed w₁ call k w₂ unharmed₁ fits keys meets run held⟩

end KvEngine
