import KvEngine.Foundations.Outcome

/-!
# Computations in a calm world

`calm` takes what can go wrong out of a state.  A computation shadows its calm run if trouble
can only make it give up: whatever it does from the calm state, it does from the state itself
as well, unless it stops there with a failure of the given kind.
-/

namespace Foundations

variable {ε σ τ α β : Type}

/-- If the computation ends from the calm state, then from the state itself it ends with the
same value in a state with the same calm form, or it gives up. -/
def Shadows (calm : σ → σ) (gaveUp : ε → Prop) (x : EStateM ε σ α) : Prop :=
  ∀ s a t, Ends x (calm s) a t →
    (∃ e s', Fails x s e s' ∧ gaveUp e) ∨ ∃ s', Ends x s a s' ∧ calm s' = t

namespace Shadows

variable {calm : σ → σ} {gaveUp : ε → Prop}

theorem pure (a : α) : Shadows calm gaveUp (Pure.pure a : EStateM ε σ α) := by
  intro s b t run
  obtain ⟨rfl, rfl⟩ := ends_pure.mp run
  exact Or.inr ⟨s, ends_pure.mpr ⟨rfl, rfl⟩, rfl⟩

theorem bind {x : EStateM ε σ α} {f : α → EStateM ε σ β} (first : Shadows calm gaveUp x)
    (rest : ∀ a, Shadows calm gaveUp (f a)) : Shadows calm gaveUp (x >>= f) := by
  intro s b t run
  obtain ⟨a, t₁, run₁, run₂⟩ := ends_bind.mp run
  rcases first s a t₁ run₁ with ⟨e, s', failed, reason⟩ | ⟨s₁, ended₁, rfl⟩
  · exact Or.inl ⟨e, s', fails_bind.mpr (Or.inl failed), reason⟩
  · rcases rest a s₁ b t run₂ with ⟨e, s', failed, reason⟩ | ⟨s', ended, same⟩
    · exact Or.inl ⟨e, s', fails_bind.mpr (Or.inr ⟨a, s₁, ended₁, failed⟩), reason⟩
    · exact Or.inr ⟨s', ended₁.bind ended, same⟩

/-- What goes on from the state may look at it, if it does not see the trouble. -/
theorem get_bind {f : σ → EStateM ε σ β} (blind : ∀ s, f (calm s) = f s)
    (rest : ∀ s, Shadows calm gaveUp (f s)) :
    Shadows calm gaveUp ((get : EStateM ε σ σ) >>= f) := by
  intro s b t run
  have run' : Ends (f s) (calm s) b t := by
    rw [← blind s]
    exact run
  rcases rest s s b t run' with ⟨e, s', failed, reason⟩ | ⟨s', ended, same⟩
  · exact Or.inl ⟨e, s', failed, reason⟩
  · exact Or.inr ⟨s', ended, same⟩

theorem change {f : σ → σ} (commutes : ∀ s, f (calm s) = calm (f s)) :
    Shadows calm gaveUp (modify f : EStateM ε σ PUnit) := by
  intro s u t run
  obtain rfl := ends_modify.mp run
  exact Or.inr ⟨f s, rfl, (commutes s).symm⟩

theorem liftResult (r : Except ε α) :
    Shadows calm gaveUp (Foundations.liftResult r : EStateM ε σ α) := by
  intro s a t run
  obtain ⟨rfl, rfl⟩ := ends_liftResult.mp run
  exact Or.inr ⟨s, ends_liftResult.mpr ⟨rfl, rfl⟩, rfl⟩

theorem zoom {calm' : τ → τ} {view : σ → τ} {put : τ → σ → σ} {x : EStateM ε τ α}
    (inner : Shadows calm' gaveUp x) (seen : ∀ s, view (calm s) = calm' (view s))
    (kept : ∀ s t, put (calm' t) (calm s) = calm (put t s)) :
    Shadows calm gaveUp (Foundations.zoom view put x) := by
  intro s a t run
  obtain ⟨t₁, run₁, rfl⟩ := ends_zoom.mp run
  rw [seen] at run₁
  rcases inner (view s) a t₁ run₁ with ⟨e, s', failed, reason⟩ | ⟨s', ended, rfl⟩
  · exact Or.inl ⟨e, _, fails_zoom.mpr ⟨s', failed, rfl⟩, reason⟩
  · exact Or.inr ⟨put s' s, ends_zoom.mpr ⟨s', ended, rfl⟩, (kept s s').symm⟩

end Shadows

end Foundations
