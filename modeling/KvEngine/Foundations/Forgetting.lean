import KvEngine.Foundations.Outcome

/-!
# Forgetting a part of the state

A part of the state is transparent to a computation when the run without it ends
in the same way.  `Forgets forget P x s` says so of the run of `x` from `s`, where
`forget` drops the part, and that `P` holds of the state in which the run stops.
The laws follow the structure of a computation.
-/

namespace Foundations

variable {ε σ τ α β : Type}

/-- Run from `forget s` the computation ends as it does from `s`, up to what is
forgotten, and `P` holds of the state where it stops. -/
def Forgets (forget : σ → σ) (P : σ → Prop) (x : EStateM ε σ α) (s : σ) : Prop :=
  ∃ t, P t ∧
    ((∃ a, x s = .ok a t ∧ x (forget s) = .ok a (forget t)) ∨
      (∃ e, x s = .error e t ∧ x (forget s) = .error e (forget t)))

namespace Forgets

variable {forget : σ → σ} {P Q : σ → Prop} {s : σ}

theorem pure (holds : P s) (a : α) : Forgets forget P (Pure.pure a : EStateM ε σ α) s :=
  ⟨s, holds, Or.inl ⟨a, rfl, rfl⟩⟩

theorem throw (holds : P s) (e : ε) : Forgets forget P (throw e : EStateM ε σ α) s :=
  ⟨s, holds, Or.inr ⟨e, rfl, rfl⟩⟩

theorem liftResult (holds : P s) (r : Except ε α) :
    Forgets forget P (Foundations.liftResult r : EStateM ε σ α) s := by
  cases r with
  | ok a => exact .pure holds a
  | error e => exact .throw holds e

/-- What holds where the first part stops has to be kept by the rest, and has to be
enough when there is no rest. -/
theorem bind {x : EStateM ε σ α} {f : α → EStateM ε σ β} (first : Forgets forget P x s)
    (weaken : ∀ t, P t → Q t)
    (rest : ∀ a t, x s = .ok a t → P t → Forgets forget Q (f a) t) :
    Forgets forget Q (x >>= f) s := by
  obtain ⟨t, holds, ⟨a, run, run'⟩ | ⟨e, run, run'⟩⟩ := first
  · obtain ⟨t', holds', outcome⟩ := rest a t run holds
    refine ⟨t', holds', ?_⟩
    rw [bind_apply_ok run, bind_apply_ok run']
    exact outcome
  · exact ⟨t, weaken t holds, Or.inr ⟨e, bind_apply_error run, bind_apply_error run'⟩⟩

theorem mono {x : EStateM ε σ α} (inner : Forgets forget P x s) (weaken : ∀ t, P t → Q t) :
    Forgets forget Q x s := by
  obtain ⟨t, holds, outcome⟩ := inner
  exact ⟨t, weaken t holds, outcome⟩

theorem modify {f : σ → σ} (commutes : f (forget s) = forget (f s)) (holds : P (f s)) :
    Forgets forget P (modify f : EStateM ε σ PUnit) s := by
  refine ⟨f s, holds, Or.inl ⟨⟨⟩, rfl, ?_⟩⟩
  rw [← commutes]
  rfl

/-- A computation on a part of the state that is not forgotten. -/
theorem zoom {view : σ → τ} {put : τ → σ → σ} {x : EStateM ε τ α} (seen : view (forget s) = view s)
    (written : ∀ t, put t (forget s) = forget (put t s)) (holds : ∀ t, P (put t s)) :
    Forgets forget P (Foundations.zoom view put x) s := by
  unfold Foundations.zoom Forgets
  simp only [seen]
  cases x (view s) with
  | ok a t => exact ⟨put t s, holds t, Or.inl ⟨a, rfl, by simp only [written]⟩⟩
  | error e t => exact ⟨put t s, holds t, Or.inr ⟨e, rfl, by simp only [written]⟩⟩

end Forgets

end Foundations
