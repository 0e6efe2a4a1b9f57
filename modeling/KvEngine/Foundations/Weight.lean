import KvEngine.Foundations.SortedMap
import Mathlib.Algebra.GroupWithZero.Nat
import Mathlib.Algebra.Order.BigOperators.Group.List
import Mathlib.Algebra.Order.Group.Nat

/-!
# Weights of bindings

Every binding weighs something, and a map weighs what its bindings weigh together.  Maps that
are laid over each other weigh at most what they weigh one by one.
-/

namespace Foundations

universe u v

variable {K : Type u} {V : Type v} {c : K × V → Nat}

/-- What bindings weigh together. -/
def weigh (c : K × V → Nat) (l : List (K × V)) : Nat := (l.map c).sum

@[simp] theorem weigh_nil : weigh c [] = 0 := rfl

@[simp] theorem weigh_cons (b : K × V) (l : List (K × V)) :
    weigh c (b :: l) = c b + weigh c l := by
  simp [weigh]

@[simp] theorem weigh_append (l₁ l₂ : List (K × V)) :
    weigh c (l₁ ++ l₂) = weigh c l₁ + weigh c l₂ := by
  simp [weigh]

theorem weigh_le_of_sublist {l₁ l₂ : List (K × V)} (sub : l₁.Sublist l₂) :
    weigh c l₁ ≤ weigh c l₂ :=
  (sub.map c).sum_le_sum fun _ _ => Nat.zero_le _

theorem le_weigh_of_mem {b : K × V} {l : List (K × V)} (member : b ∈ l) : c b ≤ weigh c l := by
  simpa using weigh_le_of_sublist (c := c) (List.singleton_sublist.mpr member)

/-- A binding that weighs more makes each list heavier by as much for each of its bindings. -/
theorem weigh_add_const (n : Nat) (l : List (K × V)) :
    weigh (fun b => c b + n) l = weigh c l + n * l.length := by
  induction l with
  | nil => rfl
  | cons b l inductionHypothesis =>
      rw [weigh_cons, weigh_cons, inductionHypothesis, List.length_cons, Nat.mul_succ]
      omega

theorem weigh_add (c' : K × V → Nat) (l : List (K × V)) :
    weigh (fun b => c b + c' b) l = weigh c l + weigh c' l :=
  List.sum_map_add

variable [LinearOrder K]

theorem weigh_insertList_le (k : K) (v : V) (l : List (K × V)) :
    weigh c (insertList k v l) ≤ weigh c l + c (k, v) := by
  induction l with
  | nil => simp [insertList]
  | cons b l inductionHypothesis =>
      obtain ⟨k', v'⟩ := b
      unfold insertList
      split
      · simp only [weigh_cons]
        omega
      · split
        · simp only [weigh_cons]
          omega
        · simp only [weigh_cons]
          omega

/-- Binding a key anew changes nothing if only keys have a weight. -/
theorem weigh_insertList_present {k : K} {v : V} {l : List (K × V)} (ascending : AscendingKeys l)
    (keysOnly : ∀ v', c (k, v') = c (k, v)) (present : (lookupList k l).isSome) :
    weigh c (insertList k v l) = weigh c l := by
  induction l with
  | nil => cases present
  | cons b l inductionHypothesis =>
      obtain ⟨k', v'⟩ := b
      obtain ⟨below, ascendingRest⟩ := List.pairwise_cons.mp ascending
      rw [lookupList_cons] at present
      unfold insertList
      split
      · next less =>
          have absent : lookupList k l = none :=
            lookupList_eq_none_of_lt fun b member => less.trans (below b member)
          rw [if_neg less.ne, absent] at present
          cases present
      · split
        · next same =>
            subst same
            rw [weigh_cons, weigh_cons, keysOnly v']
        · next other =>
            rw [if_neg other] at present
            rw [weigh_cons, weigh_cons, inductionHypothesis ascendingRest present]

namespace SortedMap

/-- What a map weighs. -/
def weight (c : K × V → Nat) (m : SortedMap K V) : Nat := weigh c m.entries

@[simp] theorem weight_empty : weight c (empty : SortedMap K V) = 0 := rfl

theorem weight_insert_le (m : SortedMap K V) (k : K) (v : V) :
    (m.insert k v).weight c ≤ m.weight c + c (k, v) :=
  weigh_insertList_le k v m.entries

theorem weight_insert_present (m : SortedMap K V) {k : K} {v : V}
    (keysOnly : ∀ v', c (k, v') = c (k, v)) (present : (m.lookup k).isSome) :
    (m.insert k v).weight c = m.weight c :=
  weigh_insertList_present m.ascending keysOnly present

theorem weight_insertAll_le (m : SortedMap K V) (l : List (K × V)) :
    (m.insertAll l).weight c ≤ m.weight c + weigh c l := by
  induction l generalizing m with
  | nil => exact le_rfl
  | cons b l inductionHypothesis =>
      have first : (m.insert b.1 b.2).weight c ≤ m.weight c + c b := weight_insert_le m b.1 b.2
      have rest := inductionHypothesis (m.insert b.1 b.2)
      rw [insertAll_cons, weigh_cons]
      omega

theorem weight_filter_le (m : SortedMap K V) (p : K × V → Bool) :
    (m.filter p).weight c ≤ m.weight c :=
  weigh_le_of_sublist List.filter_sublist

theorem weight_mergeAll_le (ms : List (SortedMap K V)) :
    (mergeAll ms).weight c ≤ (ms.map (weight c)).sum := by
  induction ms using List.reverseRecOn with
  | nil => exact le_rfl
  | append_singleton ms m inductionHypothesis =>
      have last := weight_insertAll_le (c := c) (mergeAll ms) m.entries
      rw [mergeAll_concat, List.map_append, List.sum_append, List.map_singleton, List.sum_singleton]
      unfold weight at inductionHypothesis last ⊢
      omega

end SortedMap

end Foundations
