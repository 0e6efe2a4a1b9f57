import Mathlib.Data.List.Induction
import Mathlib.Logic.Function.Basic
import Mathlib.Order.Nat

/-!
# A part of a sequence of updates

A function is updated at one point after the other.  If the sequence may stop after any
number of updates, the result is that of none or of all of them exactly when all that is
changed is one point, and each change brings its last value.
-/

namespace Foundations

universe u v

variable {K : Type u} {V : Type v} [DecidableEq K]

/-- The function after the updates, the first one first. -/
def updates (f : K → V) (us : List (K × V)) : K → V :=
  us.foldl (fun f u => Function.update f u.1 u.2) f

@[simp] theorem updates_nil (f : K → V) : updates f [] = f := rfl

theorem updates_append (f : K → V) (us vs : List (K × V)) :
    updates f (us ++ vs) = updates (updates f us) vs :=
  List.foldl_append

theorem updates_concat (f : K → V) (us : List (K × V)) (u : K × V) :
    updates f (us ++ [u]) = Function.update (updates f us) u.1 u.2 :=
  updates_append f us [u]

/-- What holds of the old value and of every new one holds of the value afterwards. -/
theorem updates_cases {P : V → Prop} {f : K → V} {us : List (K × V)} {k : K} (old : P (f k))
    (new : ∀ u ∈ us, u.1 = k → P u.2) : P (updates f us k) := by
  induction us using List.reverseRecOn with
  | nil => exact old
  | append_singleton us u inductionHypothesis =>
      have before := inductionHypothesis fun v member => new v (List.mem_append_left [u] member)
      rw [updates_concat]
      by_cases same : k = u.1
      · rw [same, Function.update_self]
        exact new u (List.mem_append_right us (List.mem_singleton_self u)) same.symm
      · rwa [Function.update_of_ne same]

/-- Right after an update its value is found. -/
theorem updates_take_succ (f : K → V) {us : List (K × V)} {n : Nat} (within : n < us.length) :
    updates f (us.take (n + 1)) = Function.update (updates f (us.take n)) us[n].1 us[n].2 := by
  rw [List.take_succ_eq_append_getElem within, updates_concat]

/-- Stopped anywhere, the updates are all missing or all there. -/
def Atomic (f : K → V) (us : List (K × V)) : Prop :=
  ∀ n, updates f (us.take n) = f ∨ updates f (us.take n) = updates f us

/-- Only the point `k` is changed, and only to the value that it has in the end. -/
def OnlyChanges (f : K → V) (us : List (K × V)) (k : K) : Prop :=
  ∀ u ∈ us, u.2 = f u.1 ∨ (u.1 = k ∧ u.2 = updates f us k)

instance [DecidableEq V] (f : K → V) (us : List (K × V)) (k : K) : Decidable (OnlyChanges f us k) :=
  inferInstanceAs (Decidable (∀ u ∈ us, u.2 = f u.1 ∨ (u.1 = k ∧ u.2 = updates f us k)))

/-- The first change brings about the whole effect, so this is a change at one point. -/
theorem Atomic.exists_update {f : K → V} {us : List (K × V)} (atomic : Atomic f us)
    (changed : updates f us ≠ f) : ∃ k v, updates f us = Function.update f k v := by
  have some : ∃ n, updates f (us.take n) ≠ f := ⟨us.length, by rwa [List.take_length]⟩
  classical
  cases first : Nat.find some with
  | zero => exact absurd rfl (first ▸ Nat.find_spec some)
  | succ n =>
      have unchanged : updates f (us.take n) = f :=
        not_not.mp (Nat.find_min some (first ▸ Nat.lt_succ_self n))
      have differs : updates f (us.take (n + 1)) ≠ f := first ▸ Nat.find_spec some
      have within : n < us.length := by
        by_contra beyond
        rw [List.take_of_length_le (by omega)] at differs unchanged
        exact differs unchanged
      rcases atomic (n + 1) with none | all
      · exact absurd none differs
      · refine ⟨us[n].1, us[n].2, ?_⟩
        rw [← all, updates_take_succ f within, unchanged]

/-- **Stopping anywhere** is harmless exactly when one point is changed to its last value. -/
theorem atomic_iff [Inhabited K] {f : K → V} {us : List (K × V)} :
    Atomic f us ↔ ∃ k, OnlyChanges f us k := by
  constructor
  · intro atomic
    -- each update is seen right after it happened
    have seen : ∀ u ∈ us, u.2 = f u.1 ∨ u.2 = updates f us u.1 := by
      intro u member
      obtain ⟨n, within, rfl⟩ := List.mem_iff_getElem.mp member
      have now : updates f (us.take (n + 1)) us[n].1 = us[n].2 := by
        rw [updates_take_succ f within, Function.update_self]
      rcases atomic (n + 1) with none | all
      · exact Or.inl (by rw [← now, none])
      · exact Or.inr (by rw [← now, all])
    by_cases changed : updates f us = f
    · refine ⟨default, fun u member => ?_⟩
      rcases seen u member with old | final
      · exact Or.inl old
      · exact Or.inl (by rw [final, changed])
    · obtain ⟨k, v, effect⟩ := atomic.exists_update changed
      refine ⟨k, fun u member => ?_⟩
      rcases seen u member with old | final
      · exact Or.inl old
      · by_cases same : u.1 = k
        · exact Or.inr ⟨same, same ▸ final⟩
        · refine Or.inl ?_
          rw [final, effect, Function.update_of_ne same]
  · rintro ⟨k, only⟩ n
    have part : ∀ u ∈ us.take n, u ∈ us := fun u member => List.mem_of_mem_take member
    have elsewhere : ∀ vs : List (K × V), (∀ u ∈ vs, u ∈ us) → ∀ k', k' ≠ k →
        updates f vs k' = f k' := by
      intro vs among k' other
      refine updates_cases (P := fun v => v = f k') rfl ?_
      rintro u member rfl
      rcases only u (among u member) with old | ⟨same, -⟩
      · exact old
      · exact absurd same other
    have there : updates f (us.take n) k = f k ∨ updates f (us.take n) k = updates f us k := by
      refine updates_cases (P := fun v => v = f k ∨ v = updates f us k) (Or.inl rfl) ?_
      intro u member same
      rcases only u (part u member) with old | ⟨-, final⟩
      · exact Or.inl (same ▸ old)
      · exact Or.inr final
    refine there.imp (fun old => ?_) (fun final => ?_)
    · funext k'
      by_cases same : k' = k
      · rw [same, old]
      · exact elsewhere _ part k' same
    · funext k'
      by_cases same : k' = k
      · rw [same, final]
      · rw [elsewhere _ part k' same, elsewhere us (fun _ member => member) k' same]

end Foundations
