import Mathlib.Data.List.Perm.Basic
import Mathlib.Order.Basic
import Mathlib.Order.Lattice

/-!
# Merging any number of sorted lists

As long as a list is left, a merge takes the first entry of one of them: one whose key is
least, and of several such lists the first.  If every list is sorted, the result is the
stable sort of their concatenation.
-/

namespace Foundations

universe u v

variable {K : Type u} {E : Type v} [LinearOrder K]

/-- The list at `i` is `e :: rest`, its first key is the least of all first keys, and no
earlier list starts with that key. -/
structure Chosen (key : E → K) (pending : List (List E)) (i : Nat) (e : E) (rest : List E) :
    Prop where
  head : pending[i]? = some (e :: rest)
  least : ∀ j x xs, pending[j]? = some (x :: xs) → key e < key x ∨ (key e = key x ∧ i ≤ j)

/-- Merging the lists `pending` yields `out`. -/
inductive Merges (key : E → K) : List (List E) → List E → Prop
  | done {pending : List (List E)} (exhausted : ∀ s ∈ pending, s = []) : Merges key pending []
  | step {pending : List (List E)} {i : Nat} {e : E} {rest out : List E}
      (chosen : Chosen key pending i e rest) (later : Merges key (pending.set i rest) out) :
      Merges key pending (e :: out)

variable {key : E → K} {pending : List (List E)} {out rest : List E} {i : Nat} {e : E}

/-- Every list is sorted by key. -/
def AllSorted (key : E → K) (pending : List (List E)) : Prop :=
  ∀ s ∈ pending, s.Pairwise (fun a b => key a ≤ key b)

/-- A position splits a list, and setting it changes the middle only. -/
theorem split_at_index {α : Type v} {l : List α} {i : Nat} {a : α} (found : l[i]? = some a) :
    ∃ before after, l = before ++ a :: after ∧ before.length = i ∧
      ∀ b, l.set i b = before ++ b :: after := by
  obtain ⟨inside, rfl⟩ := List.getElem?_eq_some_iff.mp found
  refine ⟨l.take i, l.drop (i + 1), ?_, List.length_take_of_le (Nat.le_of_lt inside), fun b => ?_⟩
  · rw [List.getElem_cons_drop, List.take_append_drop]
  · exact List.set_eq_take_append_cons_drop.trans (if_pos inside)

namespace Chosen

/-- The lists before the chosen one, and those behind it. -/
theorem split (chosen : Chosen key pending i e rest) :
    ∃ before after, pending = before ++ (e :: rest) :: after ∧ before.length = i ∧
      pending.set i rest = before ++ rest :: after := by
  obtain ⟨before, after, whole, length, set⟩ := split_at_index chosen.head
  exact ⟨before, after, whole, length, set rest⟩

/-- A sorted list that starts at or behind a key holds no smaller one. -/
theorem least_of_mem (chosen : Chosen key pending i e rest) (sorted : AllSorted key pending)
    {j : Nat} {s : List E} (found : pending[j]? = some s) {x : E} (member : x ∈ s) :
    key e < key x ∨ (key e = key x ∧ i ≤ j) := by
  cases s with
  | nil => cases member
  | cons y ys =>
      have first := chosen.least j y ys found
      have ordered := sorted _ (List.mem_of_getElem? found)
      rcases List.mem_cons.mp member with rfl | later
      · exact first
      · have below : key y ≤ key x := List.rel_of_pairwise_cons ordered later
        rcases first with less | ⟨same, index⟩
        · exact Or.inl (less.trans_le below)
        · rcases below.lt_or_eq with less | equal
          · exact Or.inl (same ▸ less)
          · exact Or.inr ⟨same.trans equal, index⟩

/-- The chosen entry comes first in the order of the keys. -/
theorem le_of_mem (chosen : Chosen key pending i e rest) (sorted : AllSorted key pending) {x : E}
    (member : x ∈ pending.flatten) : key e ≤ key x := by
  obtain ⟨s, isList, inside⟩ := List.mem_flatten.mp member
  obtain ⟨j, found⟩ := List.mem_iff_getElem?.mp isList
  rcases chosen.least_of_mem sorted found inside with less | ⟨same, -⟩
  · exact less.le
  · exact same.le

/-- No list before the chosen one holds its key. -/
theorem absent_before (chosen : Chosen key pending i e rest) (sorted : AllSorted key pending)
    {before after : List (List E)} (whole : pending = before ++ (e :: rest) :: after)
    (length : before.length = i) {x : E} (member : x ∈ before.flatten) : key x ≠ key e := by
  obtain ⟨s, isList, inside⟩ := List.mem_flatten.mp member
  obtain ⟨j, found⟩ := List.mem_iff_getElem?.mp isList
  obtain ⟨earlier, -⟩ := List.getElem?_eq_some_iff.mp found
  have found' : pending[j]? = some s := by
    rw [whole, List.getElem?_append_left earlier]
    exact found
  rcases chosen.least_of_mem sorted found' inside with less | ⟨-, index⟩
  · exact less.ne'
  · exact absurd index (by omega)

/-- Taking an entry out leaves the lists sorted. -/
theorem sorted_set (chosen : Chosen key pending i e rest) (sorted : AllSorted key pending) :
    AllSorted key (pending.set i rest) := by
  intro s member
  rcases List.mem_or_eq_of_mem_set member with old | rfl
  · exact sorted s old
  · exact (sorted _ (List.mem_of_getElem? chosen.head)).of_cons

end Chosen

namespace Merges

/-- **Nothing is lost and nothing is duplicated.** -/
theorem perm (merges : Merges key pending out) : out.Perm pending.flatten := by
  induction merges with
  | done exhausted =>
      have empty : List.flatten _ = [] := List.flatten_eq_nil_iff.mpr exhausted
      rw [empty]
  | step chosen _ inductionHypothesis =>
      obtain ⟨before, after, rfl, -, set⟩ := chosen.split
      rw [set, List.flatten_append, List.flatten_cons] at inductionHypothesis
      rw [List.flatten_append, List.flatten_cons, List.cons_append]
      exact (inductionHypothesis.cons _).trans List.perm_middle.symm

/-- **The result is sorted.** -/
theorem sorted (merges : Merges key pending out) (sorted : AllSorted key pending) :
    out.Pairwise (fun a b => key a ≤ key b) := by
  induction merges with
  | done => exact List.Pairwise.nil
  | step chosen later inductionHypothesis =>
      refine List.Pairwise.cons (fun x member => ?_) (inductionHypothesis (chosen.sorted_set sorted))
      refine chosen.le_of_mem sorted ?_
      have inRest := later.perm.mem_iff.mp member
      obtain ⟨before, after, rfl, -, set⟩ := chosen.split
      rw [set, List.flatten_append, List.flatten_cons] at inRest
      rw [List.flatten_append, List.flatten_cons, List.cons_append]
      rcases List.mem_append.mp inRest with early | late
      · exact List.mem_append_left _ early
      · exact List.mem_append_right _ (List.mem_cons_of_mem _ late)

/-- **Entries with equal keys** keep the order of the concatenation. -/
theorem filter_eq [DecidableEq K] (merges : Merges key pending out)
    (sorted : AllSorted key pending) (k : K) :
    out.filter (fun x => key x = k) = pending.flatten.filter (fun x => key x = k) := by
  induction merges with
  | done exhausted => rw [List.flatten_eq_nil_iff.mpr exhausted]
  | @step pending i e rest out chosen _ inductionHypothesis =>
      have later := inductionHypothesis (chosen.sorted_set sorted)
      obtain ⟨before, after, whole, length, set⟩ := chosen.split
      have absent := fun {x} => chosen.absent_before sorted whole length (x := x)
      rw [set, List.flatten_append, List.flatten_cons, List.filter_append] at later
      rw [whole, List.flatten_append, List.flatten_cons, List.cons_append, List.filter_append,
        List.filter_cons, List.filter_cons]
      by_cases same : key e = k
      · -- nothing before the chosen list has its key
        have none : before.flatten.filter (fun x => key x = k) = [] :=
          List.filter_eq_nil_iff.mpr fun x member => by simpa [← same] using absent member
        rw [none, List.nil_append] at later
        simp only [same, decide_true, if_true, none, List.nil_append, later]
      · simp only [same, decide_false, Bool.false_eq_true, if_false, later]

/-- The first entry of a key comes from the first list that holds the key. -/
theorem find?_eq [DecidableEq K] (merges : Merges key pending out)
    (sorted : AllSorted key pending) (k : K) :
    out.find? (fun x => key x = k) = pending.findSome? (fun s => s.find? (fun x => key x = k)) := by
  rw [← List.head?_filter, merges.filter_eq sorted, List.head?_filter, List.find?_flatten]

end Merges

end Foundations
