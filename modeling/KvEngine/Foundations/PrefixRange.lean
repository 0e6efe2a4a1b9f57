import Mathlib.Data.List.Infix
import Mathlib.Data.List.Lex
import Mathlib.Order.Cover

/-!
# Ranges of words with a common prefix

In the lexicographic order the words that begin with a given one form a range.  If
the last letter that can be raised is raised and what follows is cut off, the range
ends there; a word of top letters alone has no bound.
-/

namespace Foundations

variable {α : Type} [LinearOrder α] {top b c : α}

theorem append_lt_append_iff (q a b : List α) : q ++ a < q ++ b ↔ a < b := by
  induction q with
  | nil => rfl
  | cons d q inductionHypothesis => simp [inductionHypothesis]

/-- The first letter decides, and the rest where it is the same. -/
theorem cons_le_cons_cases {k l : List α} (le : b :: k ≤ c :: l) : b < c ∨ b = c ∧ k ≤ l := by
  rcases lt_trichotomy b c with lower | rfl | higher
  · exact .inl lower
  · exact .inr ⟨rfl, not_lt.mp fun below =>
      not_lt.mpr le (List.cons_lt_cons_iff.mpr (.inr ⟨rfl, below⟩))⟩
  · exact absurd (List.cons_lt_cons_iff.mpr (.inl higher)) (not_lt.mpr le)

theorem le_of_isPrefix {p k : List α} (begins : p <+: k) : p ≤ k := by
  obtain ⟨rest, rfl⟩ := begins
  have extension := (append_lt_append_iff p rest []).not.mpr (List.not_lt_nil rest)
  rwa [List.append_nil, not_lt] at extension

/-- Above a word of top letters are its extensions only. -/
theorem replicate_top_le_iff (isTop : IsTop top) (n : Nat) (k : List α) :
    List.replicate n top ≤ k ↔ List.replicate n top <+: k := by
  refine ⟨fun above => ?_, le_of_isPrefix⟩
  induction n generalizing k with
  | zero => exact List.nil_prefix
  | succ n inductionHypothesis =>
      rw [List.replicate_succ] at above ⊢
      cases k with
      | nil => exact absurd (List.nil_lt_cons _ _) (not_lt.mpr above)
      | cons d k =>
          rcases cons_le_cons_cases above with higher | ⟨same, rest⟩
          · exact absurd higher (not_lt.mpr (isTop d))
          · subst same
            exact (List.prefix_cons_inj top).mpr (inductionHypothesis k rest)

/-- A word between two words with the same beginning begins like them. -/
theorem between_appends {q a c k : List α} (above : q ++ a ≤ k) (below : k < q ++ c) :
    ∃ rest, k = q ++ rest ∧ a ≤ rest ∧ rest < c := by
  induction q generalizing k with
  | nil => exact ⟨k, rfl, above, below⟩
  | cons d q inductionHypothesis =>
      cases k with
      | nil => exact absurd (List.nil_lt_cons _ _) (not_lt.mpr above)
      | cons d' k =>
          rcases cons_le_cons_cases above with higher | ⟨rfl, aboveTail⟩
          · rcases List.cons_lt_cons_iff.mp below with lower | ⟨rfl, -⟩
            · exact absurd lower (lt_asymm higher)
            · exact absurd higher (lt_irrefl _)
          · rcases List.cons_lt_cons_iff.mp below with lower | ⟨-, belowTail⟩
            · exact absurd lower (lt_irrefl d)
            · obtain ⟨rest, rfl, within⟩ := inductionHypothesis aboveTail belowTail
              exact ⟨rest, rfl, within⟩

/-- **The range of a prefix** ends where its last raisable letter is raised and the
top letters behind it are cut off. -/
theorem le_and_lt_iff_isPrefix (isTop : IsTop top) (next : b ⋖ c) (q : List α) (n : Nat)
    (k : List α) :
    q ++ b :: List.replicate n top ≤ k ∧ k < q ++ [c] ↔
      q ++ b :: List.replicate n top <+: k := by
  constructor
  · rintro ⟨above, below⟩
    obtain ⟨rest, rfl, above, below⟩ := between_appends above below
    rw [List.prefix_append_right_inj]
    cases rest with
    | nil => exact absurd (List.nil_lt_cons _ _) (not_lt.mpr above)
    | cons d rest =>
        have low : d < c := by
          rcases List.cons_lt_cons_iff.mp below with low | ⟨-, none⟩
          · exact low
          · exact absurd none (List.not_lt_nil rest)
        rcases cons_le_cons_cases above with higher | ⟨rfl, aboveTail⟩
        -- no letter lies between the raised one and its predecessor
        · exact absurd low (next.2 higher)
        · exact (List.prefix_cons_inj b).mpr ((replicate_top_le_iff isTop n rest).mp aboveTail)
  · intro begins
    refine ⟨le_of_isPrefix begins, ?_⟩
    obtain ⟨rest, rfl⟩ := begins
    rw [List.append_assoc, append_lt_append_iff]
    exact List.cons_lt_cons_iff.mpr (.inl next.1)

/-- A word consists of top letters, or there is a last letter that can be raised. -/
theorem eq_replicate_or_stem (isTop : IsTop top) (p : List α) :
    (∃ n, p = List.replicate n top) ∨
      ∃ q b n, b < top ∧ p = q ++ b :: List.replicate n top := by
  induction p using List.reverseRecOn with
  | nil => exact .inl ⟨0, rfl⟩
  | append_singleton p d inductionHypothesis =>
      rcases (isTop d).lt_or_eq with low | rfl
      · exact .inr ⟨p, d, 0, low, rfl⟩
      · rcases inductionHypothesis with ⟨n, rfl⟩ | ⟨q, b, n, low, rfl⟩
        · exact .inl ⟨n + 1, List.replicate_succ'.symm⟩
        · refine .inr ⟨q, b, n + 1, low, ?_⟩
          rw [List.append_assoc, List.cons_append, ← List.replicate_succ']

end Foundations
