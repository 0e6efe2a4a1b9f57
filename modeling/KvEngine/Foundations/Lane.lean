import Mathlib.Data.List.Pairwise
import Mathlib.Tactic.Common

/-!
# Singly linked lanes

`Lane next p lane` says that following the pointers `next` from `p` visits the
addresses `lane` in order and ends there.  Reading a pointer is partial, so
`next` distinguishes a dangling address (`none`) from the end (`some none`).
-/

namespace Foundations

variable {α : Type} {next next' : α → Option (Option α)}

/-- Following `next` from an address visits the list and ends there. -/
def Lane (next : α → Option (Option α)) : α → List α → Prop
  | p, [] => next p = some none
  | p, q :: lane => next p = some (some q) ∧ Lane next q lane

namespace Lane

@[simp] theorem nil {p : α} : Lane next p [] ↔ next p = some none := Iff.rfl

@[simp] theorem cons {p q : α} {lane : List α} :
    Lane next p (q :: lane) ↔ next p = some (some q) ∧ Lane next q lane := Iff.rfl

/-- The pointer at the start of a lane is its first address. -/
theorem first {p : α} {lane : List α} (lanes : Lane next p lane) : next p = some lane.head? := by
  cases lane with
  | nil => exact lanes
  | cons q lane => exact lanes.1

/-- What follows an address of a lane is again a lane. -/
theorem behind {p q : α} {lane : List α} (lanes : Lane next p lane) (before after : List α)
    (split : p :: lane = before ++ q :: after) : Lane next q after := by
  induction before generalizing p lane with
  | nil =>
      simp only [List.nil_append, List.cons.injEq] at split
      obtain ⟨rfl, rfl⟩ := split
      exact lanes
  | cons r before inductionHypothesis =>
      obtain ⟨rfl, rest⟩ : p = r ∧ lane = before ++ q :: after := by simpa using split
      cases lane with
      | nil => simp at rest
      | cons s lane => exact inductionHypothesis lanes.2 rest

/-- A lane depends only on the pointers it follows. -/
theorem congr {p : α} {lane : List α} (lanes : Lane next p lane)
    (same : ∀ q ∈ p :: lane, next' q = next q) : Lane next' p lane := by
  induction lane generalizing p with
  | nil => exact (same p List.mem_cons_self).trans lanes
  | cons q lane inductionHypothesis =>
      refine ⟨(same p List.mem_cons_self).trans lanes.1, inductionHypothesis lanes.2 ?_⟩
      exact fun r hr => same r (List.mem_cons_of_mem _ hr)

/-- Splice an address in behind the last address of the first part: it takes over
that address's pointer, and that address points to it. -/
theorem splice {p new : α} {before after : List α} (lanes : Lane next p (before ++ after))
    (distinct : (p :: (before ++ after)).Nodup)
    (inserted : next' new = some after.head?)
    (redirected : next' ((p :: before).getLast (List.cons_ne_nil _ _)) = some (some new))
    (same : ∀ q ∈ p :: (before ++ after), q ≠ (p :: before).getLast (List.cons_ne_nil _ _) →
      next' q = next q) :
    Lane next' p (before ++ new :: after) := by
  induction before generalizing p with
  | nil =>
      simp only [List.nil_append, List.getLast_singleton] at *
      refine ⟨redirected, ?_⟩
      cases after with
      | nil => exact inserted
      | cons r after =>
          refine ⟨inserted, lanes.2.congr fun q hq => same q (List.mem_cons_of_mem _ hq) ?_⟩
          rintro rfl
          exact (List.nodup_cons.mp distinct).1 hq
  | cons q before inductionHypothesis =>
      have notLast : p ≠ (q :: before).getLast (List.cons_ne_nil _ _) := by
        rintro equal
        have member : p ∈ q :: before := equal ▸ List.getLast_mem _
        exact (List.nodup_cons.mp distinct).1 (List.mem_append_left _ member)
      refine ⟨(same p List.mem_cons_self (by simpa using notLast)).trans lanes.1, ?_⟩
      refine inductionHypothesis lanes.2 (List.nodup_cons.mp distinct).2
        (by simpa using redirected) fun r hr other => ?_
      exact same r (List.mem_cons_of_mem _ hr) (by simpa using other)

end Lane

end Foundations
