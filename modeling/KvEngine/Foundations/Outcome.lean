import Mathlib.Logic.Basic
import Mathlib.Tactic.Common

/-!
# Computations that may fail and keep their state

An imperative method is an `EStateM ε σ α`: it ends with a value or with a
failure, and in both cases with a state, so that what an early return leaves
half done is still visible.  The lemmas here read a successful run backwards,
one bind at a time, and run a computation on a part of a larger state.
-/

namespace Foundations

variable {ε σ τ α β : Type}

/-- The run of a computation ended with the value `a` in the state `s'`. -/
def Ends (x : EStateM ε σ α) (s : σ) (a : α) (s' : σ) : Prop :=
  x s = .ok a s'

namespace Ends

theorem eq_ok {x : EStateM ε σ α} {s s' : σ} {a : α} (h : Ends x s a s') :
    x s = .ok a s' := h

/-- A run has one outcome. -/
theorem unique {x : EStateM ε σ α} {s s₁ s₂ : σ} {a₁ a₂ : α}
    (h₁ : Ends x s a₁ s₁) (h₂ : Ends x s a₂ s₂) : a₁ = a₂ ∧ s₁ = s₂ := by
  have same : EStateM.Result.ok a₁ s₁ = (EStateM.Result.ok a₂ s₂ : EStateM.Result ε σ α) :=
    h₁.symm.trans h₂
  cases same
  exact ⟨rfl, rfl⟩

end Ends

@[simp] theorem ends_pure {s s' : σ} {a b : α} :
    Ends (pure a : EStateM ε σ α) s b s' ↔ a = b ∧ s = s' := by
  simp [Ends, pure, EStateM.pure]

/-- A sequence ends exactly when its first part ends and the rest ends from
where the first part stopped. -/
theorem ends_bind {x : EStateM ε σ α} {f : α → EStateM ε σ β} {s s'' : σ} {b : β} :
    Ends (x >>= f) s b s'' ↔ ∃ a s', Ends x s a s' ∧ Ends (f a) s' b s'' := by
  unfold Ends
  change EStateM.bind x f s = _ ↔ _
  unfold EStateM.bind
  cases outcome : x s with
  | ok a s' => simp
  | error e s' => simp

/-- Running forward: what comes after a first part that ended. -/
theorem bind_apply_ok {x : EStateM ε σ α} {f : α → EStateM ε σ β} {s s' : σ} {a : α}
    (first : x s = .ok a s') : (x >>= f) s = f a s' := by
  change EStateM.bind x f s = _
  simp [EStateM.bind, first]

/-- Running forward: nothing comes after a first part that failed. -/
theorem bind_apply_error {x : EStateM ε σ α} {f : α → EStateM ε σ β} {s s' : σ} {e : ε}
    (first : x s = .error e s') : (x >>= f) s = .error e s' := by
  change EStateM.bind x f s = _
  simp [EStateM.bind, first]

theorem Ends.bind {x : EStateM ε σ α} {f : α → EStateM ε σ β} {s s' s'' : σ} {a : α} {b : β}
    (first : Ends x s a s') (rest : Ends (f a) s' b s'') : Ends (x >>= f) s b s'' :=
  ends_bind.mpr ⟨a, s', first, rest⟩

@[simp] theorem ends_map {x : EStateM ε σ α} {f : α → β} {s s' : σ} {b : β} :
    Ends (f <$> x) s b s' ↔ ∃ a, Ends x s a s' ∧ f a = b := by
  unfold Ends
  change EStateM.map f x s = _ ↔ _
  unfold EStateM.map
  cases outcome : x s with
  | ok a s' => simp [and_comm]
  | error e s' => simp

@[simp] theorem ends_throw {s s' : σ} {a : α} {e : ε} :
    Ends (throw e : EStateM ε σ α) s a s' ↔ False := by
  show EStateM.Result.error e s = EStateM.Result.ok a s' ↔ False
  simp

@[simp] theorem ends_get {s s' a : σ} :
    Ends (get : EStateM ε σ σ) s a s' ↔ a = s ∧ s' = s := by
  show EStateM.Result.ok s s = EStateM.Result.ok a s' ↔ _
  simp [eq_comm]

@[simp] theorem ends_set {s s' t : σ} {u : PUnit} :
    Ends (set t : EStateM ε σ PUnit) s u s' ↔ s' = t := by
  show EStateM.Result.ok PUnit.unit t = EStateM.Result.ok u s' ↔ _
  simp [eq_comm]

@[simp] theorem ends_modify {s s' : σ} {f : σ → σ} {u : PUnit} :
    Ends (modify f : EStateM ε σ PUnit) s u s' ↔ s' = f s := by
  show EStateM.Result.ok PUnit.unit (f s) = EStateM.Result.ok u s' ↔ _
  simp [eq_comm]

/-! ## Runs that fail -/

/-- The run of a computation failed with `e` and left the state `s'`. -/
def Fails (x : EStateM ε σ α) (s : σ) (e : ε) (s' : σ) : Prop :=
  x s = .error e s'

@[simp] theorem fails_pure {s s' : σ} {a : α} {e : ε} :
    Fails (pure a : EStateM ε σ α) s e s' ↔ False := by
  simp [Fails, pure, EStateM.pure]

/-- A sequence fails in its first part, or in the rest once the first part ended. -/
theorem fails_bind {x : EStateM ε σ α} {f : α → EStateM ε σ β} {s s'' : σ} {e : ε} :
    Fails (x >>= f) s e s'' ↔
      Fails x s e s'' ∨ ∃ a s', Ends x s a s' ∧ Fails (f a) s' e s'' := by
  unfold Fails Ends
  change EStateM.bind x f s = _ ↔ _
  unfold EStateM.bind
  cases outcome : x s with
  | ok a s' => simp
  | error e s' => simp

@[simp] theorem fails_throw {s s' : σ} {e e' : ε} :
    Fails (throw e : EStateM ε σ α) s e' s' ↔ e' = e ∧ s' = s := by
  show EStateM.Result.error e s = EStateM.Result.error e' s' ↔ _
  simp [eq_comm]

@[simp] theorem fails_get {s s' : σ} {e : ε} : Fails (get : EStateM ε σ σ) s e s' ↔ False := by
  show EStateM.Result.ok s s = EStateM.Result.error e s' ↔ False
  simp

@[simp] theorem fails_modify {s s' : σ} {f : σ → σ} {e : ε} :
    Fails (modify f : EStateM ε σ PUnit) s e s' ↔ False := by
  show EStateM.Result.ok PUnit.unit (f s) = EStateM.Result.error e s' ↔ False
  simp

/-- A run that ended did not fail. -/
theorem Ends.not_fails {x : EStateM ε σ α} {s s' t : σ} {a : α} {e : ε} (ended : Ends x s a s') :
    ¬ Fails x s e t := by
  intro failed
  cases ended.symm.trans failed

/-- What a computation returns. -/
def answer (x : EStateM ε σ α) (s : σ) : Except ε α :=
  match x s with
  | .ok a _ => .ok a
  | .error e _ => .error e

theorem answer_of_ok {x : EStateM ε σ α} {s s' : σ} {a : α} (run : x s = .ok a s') :
    answer x s = .ok a := by
  rw [answer, run]

/-- The run ends, and its outcome passes the test. -/
def passes (x : EStateM ε σ α) (s : σ) (test : α → σ → Bool) : Bool :=
  match x s with
  | .ok a s' => test a s'
  | .error _ _ => false

theorem ends_of_passes {x : EStateM ε σ α} {s : σ} {test : α → σ → Bool}
    (passed : passes x s test = true) : ∃ a s', Ends x s a s' ∧ test a s' = true := by
  unfold passes at passed
  cases outcome : x s with
  | ok a s' => exact ⟨a, s', outcome, by simpa only [outcome] using passed⟩
  | error e s' => simp [outcome] at passed

/-- The run fails, and its failure passes the test. -/
def failsWith (x : EStateM ε σ α) (s : σ) (test : ε → σ → Bool) : Bool :=
  match x s with
  | .ok _ _ => false
  | .error e s' => test e s'

theorem fails_of_failsWith {x : EStateM ε σ α} {s : σ} {test : ε → σ → Bool}
    (passed : failsWith x s test = true) : ∃ e s', Fails x s e s' ∧ test e s' = true := by
  unfold failsWith at passed
  cases outcome : x s with
  | ok a s' => simp [outcome] at passed
  | error e s' => exact ⟨e, s', outcome, by simpa only [outcome] using passed⟩

/-- What a run is seen to return. -/
theorem answer_of_passes [BEq α] [LawfulBEq α] {x : EStateM ε σ α} {s : σ} {a : α}
    (passed : passes x s (fun b _ => b == a) = true) : answer x s = .ok a := by
  obtain ⟨b, s', run, same⟩ := ends_of_passes passed
  rw [answer_of_ok run, eq_of_beq same]

/-! ## A result without state inside a computation -/

/-- Return the value of a plain result, or fail with its failure. -/
def liftResult : Except ε α → EStateM ε σ α
  | .ok a => pure a
  | .error e => throw e

@[simp] theorem ends_liftResult {r : Except ε α} {s s' : σ} {a : α} :
    Ends (liftResult r) s a s' ↔ r = .ok a ∧ s' = s := by
  cases r with
  | ok b => simp [liftResult, eq_comm]
  | error e => simp [liftResult]

@[simp] theorem fails_liftResult {r : Except ε α} {s s' : σ} {e : ε} :
    Fails (liftResult r) s e s' ↔ r = .error e ∧ s' = s := by
  cases r with
  | ok b => simp [liftResult]
  | error e => simp [liftResult, eq_comm]

/-! ## A computation on a part of the state -/

/-- Run `x` on the part of the state that `view` reads and `put` writes back. -/
def zoom (view : τ → σ) (put : σ → τ → τ) (x : EStateM ε σ α) : EStateM ε τ α := fun t =>
  match x (view t) with
  | .ok a s => .ok a (put s t)
  | .error e s => .error e (put s t)

@[simp] theorem ends_zoom {view : τ → σ} {put : σ → τ → τ} {x : EStateM ε σ α} {t t' : τ} {a : α} :
    Ends (zoom view put x) t a t' ↔ ∃ s, Ends x (view t) a s ∧ t' = put s t := by
  unfold Ends zoom
  cases outcome : x (view t) with
  | ok b s => simp [eq_comm, and_comm]
  | error e s => simp

@[simp] theorem fails_zoom {view : τ → σ} {put : σ → τ → τ} {x : EStateM ε σ α} {t t' : τ} {e : ε} :
    Fails (zoom view put x) t e t' ↔ ∃ s, Fails x (view t) e s ∧ t' = put s t := by
  unfold Fails zoom
  cases outcome : x (view t) with
  | ok b s => simp
  | error e s => simp [eq_comm, and_comm]

/-- Run `x` and go on whether or not it failed. -/
def ignoring (x : EStateM ε σ α) : EStateM ε σ Unit := fun s =>
  match x s with
  | .ok _ s' => .ok () s'
  | .error _ s' => .ok () s'

@[simp] theorem fails_ignoring {x : EStateM ε σ α} {s s' : σ} {e : ε} :
    Fails (ignoring x) s e s' ↔ False := by
  unfold Fails ignoring
  cases x s <;> simp

/-! ## What every run does to the state -/

/-- Every run of `x` that ends relates its first state to its last one. -/
def Advances (R : σ → σ → Prop) (x : EStateM ε σ α) : Prop :=
  ∀ s a s', Ends x s a s' → R s s'

section Advances

variable {R : σ → σ → Prop}

theorem advances_pure (reflexive : ∀ s, R s s) (a : α) :
    Advances R (pure a : EStateM ε σ α) := by
  intro s b s' run
  obtain ⟨-, rfl⟩ := ends_pure.mp run
  exact reflexive s

theorem advances_bind (transitive : ∀ {s s' s''}, R s s' → R s' s'' → R s s'')
    {x : EStateM ε σ α} {f : α → EStateM ε σ β} (first : Advances R x)
    (rest : ∀ a, Advances R (f a)) : Advances R (x >>= f) := by
  intro s b s'' run
  obtain ⟨a, s', runFirst, runRest⟩ := ends_bind.mp run
  exact transitive (first s a s' runFirst) (rest a s' b s'' runRest)

theorem advances_throw (e : ε) : Advances R (throw e : EStateM ε σ α) := by
  intro s a s' run
  simp at run

theorem advances_liftResult (reflexive : ∀ s, R s s) (r : Except ε α) :
    Advances R (liftResult r : EStateM ε σ α) := by
  intro s a s' run
  obtain ⟨-, rfl⟩ := ends_liftResult.mp run
  exact reflexive s'

theorem advances_zoom {S : τ → τ → Prop} {view : τ → σ} {put : σ → τ → τ} {x : EStateM ε σ α}
    (inner : Advances R x) (lift : ∀ t s, R (view t) s → S t (put s t)) :
    Advances S (zoom view put x) := by
  intro t a t' run
  obtain ⟨s, runInner, rfl⟩ := ends_zoom.mp run
  exact lift t s (inner (view t) a s runInner)

end Advances

/-! ## What every run does, also when it fails -/

/-- Every run of `x`, however it ends, relates its first state to its last one. -/
structure Always (R : σ → σ → Prop) (x : EStateM ε σ α) : Prop where
  ends : Advances R x
  fails : ∀ s e s', Fails x s e s' → R s s'

section Always

variable {R : σ → σ → Prop}

/-- A run that fails nowhere has only ends. -/
theorem Advances.always {x : EStateM ε σ α} (ends : Advances R x)
    (never : ∀ s e s', ¬ Fails x s e s') : Always R x :=
  ⟨ends, fun s e s' failed => absurd failed (never s e s')⟩

theorem always_pure (reflexive : ∀ s, R s s) (a : α) : Always R (pure a : EStateM ε σ α) :=
  (advances_pure reflexive a).always fun _ _ _ => fails_pure.mp

theorem always_get (reflexive : ∀ s, R s s) : Always R (get : EStateM ε σ σ) := by
  refine Advances.always (fun s a s' run => ?_) fun _ _ _ => fails_get.mp
  rw [(ends_get.mp run).2]
  exact reflexive s

theorem always_modify {f : σ → σ} (steps : ∀ s, R s (f s)) :
    Always R (modify f : EStateM ε σ PUnit) := by
  refine Advances.always (fun s u s' run => ?_) fun _ _ _ => fails_modify.mp
  rw [ends_modify.mp run]
  exact steps s

theorem always_throw (reflexive : ∀ s, R s s) (e : ε) : Always R (throw e : EStateM ε σ α) := by
  refine ⟨advances_throw e, fun s e' s' failed => ?_⟩
  rw [(fails_throw.mp failed).2]
  exact reflexive s

theorem always_liftResult (reflexive : ∀ s, R s s) (r : Except ε α) :
    Always R (liftResult r : EStateM ε σ α) := by
  refine ⟨advances_liftResult reflexive r, fun s e s' failed => ?_⟩
  rw [(fails_liftResult.mp failed).2]
  exact reflexive s

theorem always_bind (transitive : ∀ {s s' s''}, R s s' → R s' s'' → R s s'')
    {x : EStateM ε σ α} {f : α → EStateM ε σ β} (first : Always R x)
    (rest : ∀ a, Always R (f a)) : Always R (x >>= f) := by
  refine ⟨advances_bind (R := R) transitive first.ends fun a => (rest a).ends,
    fun s e s'' failed => ?_⟩
  rcases fails_bind.mp failed with early | ⟨a, s', ended, late⟩
  · exact first.fails s e s'' early
  · exact transitive (first.ends s a s' ended) ((rest a).fails s' e s'' late)

theorem always_zoom {S : τ → τ → Prop} {view : τ → σ} {put : σ → τ → τ} {x : EStateM ε σ α}
    (inner : Always R x) (lift : ∀ t s, R (view t) s → S t (put s t)) :
    Always S (zoom view put x) := by
  refine ⟨advances_zoom inner.ends lift, fun t e t' failed => ?_⟩
  obtain ⟨s, failedInner, rfl⟩ := fails_zoom.mp failed
  exact lift t s (inner.fails (view t) e s failedInner)

end Always

end Foundations
