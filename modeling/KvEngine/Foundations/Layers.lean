import Mathlib.Tactic
import KvEngine.Foundations.SortedMap

/-!
# Reading through layers

A layered store keeps several partial maps, newest first; a read asks them in
turn and the first one that knows the key answers.  `versions val layers` lists
what the layers say about one key, newest first, where `val` is the answer of a
single layer; the read is its head.

The two laws that a compaction rests on are `versions_partition`, which pulls a
set of layers to the front when no unselected layer hides them, and
`lookup_mergeAll_eq_head`, which says what one map merged from them answers.
-/

namespace Foundations

universe u v w

variable {α : Type u} {V : Type v} {K : Type w}

/-- What the layers say about one key, newest first. -/
def versions (val : α → Option V) (layers : List α) : List V :=
  layers.filterMap val

@[simp] theorem versions_nil (val : α → Option V) : versions val [] = [] := rfl

theorem versions_cons (val : α → Option V) (a : α) (layers : List α) :
    versions val (a :: layers) = (val a).toList ++ versions val layers := by
  unfold versions
  rw [List.filterMap_cons]
  cases val a <;> rfl

@[simp] theorem versions_append (val : α → Option V) (l₁ l₂ : List α) :
    versions val (l₁ ++ l₂) = versions val l₁ ++ versions val l₂ :=
  List.filterMap_append

theorem versions_eq_nil {val : α → Option V} {layers : List α} :
    versions val layers = [] ↔ ∀ a ∈ layers, val a = none :=
  List.filterMap_eq_nil_iff

theorem mem_versions {val : α → Option V} {layers : List α} {v : V} :
    v ∈ versions val layers ↔ ∃ a ∈ layers, val a = some v :=
  List.mem_filterMap

theorem head?_versions (val : α → Option V) (layers : List α) :
    (versions val layers).head? = layers.findSome? val :=
  List.head?_filterMap

/-- Selecting by either of two predicates, when everything the first one selects
comes before everything the second one does. -/
theorem filter_or_of_pairwise {p q : α → Bool} {l : List α}
    (disjoint : ∀ a ∈ l, p a = true → q a = false)
    (inOrder : l.Pairwise (fun a b => q a = true → p b = false)) :
    l.filter (fun a => p a || q a) = l.filter p ++ l.filter q := by
  induction l with
  | nil => rfl
  | cons a rest inductionHypothesis =>
      obtain ⟨first, inOrderRest⟩ := List.pairwise_cons.mp inOrder
      have later := inductionHypothesis (fun b hb => disjoint b (List.mem_cons_of_mem _ hb)) inOrderRest
      cases chosen : p a with
      | true =>
          have other := disjoint a List.mem_cons_self chosen
          simp [chosen, other, later]
      | false =>
          cases other : q a with
          | false => simp [chosen, other, later]
          | true =>
              -- nothing that `p` selects can follow `a`
              have none : rest.filter p = [] :=
                List.filter_eq_nil_iff.mpr fun b hb => by simp [first b hb other]
              simp [chosen, other, later, none]

/-- `a` before `b` does not hide a version of `b` when `b` is selected and `a` is not. -/
def KeepsBehind (val : α → Option V) (selected : α → Bool) (a b : α) : Prop :=
  selected a = false → selected b = true → val a = none ∨ val b = none

/-- Layers can be selected to the front as long as no other layer hides them. -/
theorem versions_partition {val : α → Option V} {selected : α → Bool} {layers : List α}
    (behind : layers.Pairwise (KeepsBehind val selected)) :
    versions val layers =
      versions val (layers.filter selected) ++
        versions val (layers.filter (fun a => !selected a)) := by
  induction layers with
  | nil => rfl
  | cons a rest inductionHypothesis =>
      obtain ⟨hides, behindRest⟩ := List.pairwise_cons.mp behind
      rw [versions_cons, inductionHypothesis behindRest]
      cases chosen : selected a with
      | true => simp [chosen, versions_cons]
      | false =>
          simp only [List.filter_cons, chosen, Bool.false_eq_true, if_false, Bool.not_false,
            if_true, versions_cons]
          cases answer : val a with
          | none => simp
          | some v =>
              have silent : versions val (rest.filter selected) = [] := by
                rw [versions_eq_nil]
                intro b hb
                obtain ⟨member, selectedB⟩ := List.mem_filter.mp hb
                rcases hides b member chosen selectedB with none | none
                · rw [answer] at none
                  cases none
                · exact none
              simp [silent]

/-- A map merged from layers, oldest first, answers with the newest version. -/
theorem lookup_mergeAll_eq_head [LinearOrder K] (ms : List (SortedMap K V)) (k : K) :
    (SortedMap.mergeAll ms).lookup k =
      (versions (fun m => SortedMap.lookup m k) ms.reverse).head? := by
  rw [SortedMap.lookup_mergeAll, head?_versions]

end Foundations
