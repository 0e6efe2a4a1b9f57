import Mathlib.Algebra.GroupWithZero.Nat
import Mathlib.Data.List.Nodup
import Mathlib.Data.Nat.Find

/-!
# Least-recently-used caches, as lists

A cache is the list of its entries, from the most to the least recently used one, no key
twice.  A hit moves an entry to the front; a new entry goes to the front, and as many entries
stay behind it as fit, the most recent ones.
-/

namespace Foundations

namespace LruList

variable {K V : Type} [DecidableEq K] {l l' : List (K × V)} {k k' : K} {v v' : V}
variable (weight : V → Nat) (capacity : Nat)

/-- The keys, from the most to the least recently used one. -/
def keys (l : List (K × V)) : List K := l.map Prod.fst

/-- The entries of the other keys. -/
def others (k : K) (l : List (K × V)) : List (K × V) := l.filter (fun e => e.1 ≠ k)

/-- Look a key up; a hit moves its entry to the front. -/
def touch (k : K) (l : List (K × V)) : List (K × V) :=
  match l.find? (fun e => e.1 = k) with
  | some e => e :: others k l
  | none => l

/-- The weight of all entries. -/
def total (l : List (K × V)) : Nat := (l.map (fun e => weight e.2)).sum

/-- The `n` most recent entries leave room for one of weight `w`. -/
def Fits (w : Nat) (l : List (K × V)) (n : Nat) : Prop :=
  total weight (l.take n) + w ≤ capacity

instance (w : Nat) (l : List (K × V)) : DecidablePred (Fits weight capacity w l) :=
  fun n => inferInstanceAs (Decidable (total weight (l.take n) + w ≤ capacity))

/-- How many of the first `n` entries stay if one of weight `w` is to come in. -/
def kept (w : Nat) (l : List (K × V)) (n : Nat) : Nat :=
  Nat.findGreatest (Fits weight capacity w l) n

/-- Bring an entry in: at the front, and in front of what still fits of the others. -/
def store (k : K) (v : V) (l : List (K × V)) : List (K × V) :=
  (k, v) :: (others k l).take (kept weight capacity (weight v) (others k l) (others k l).length)

/-! ## Entries -/

omit [DecidableEq K] in
theorem mem_keys : k ∈ keys l ↔ ∃ v, (k, v) ∈ l := by
  unfold keys
  rw [List.mem_map]
  constructor
  · rintro ⟨⟨_, v⟩, member, rfl⟩
    exact ⟨v, member⟩
  · rintro ⟨v, member⟩
    exact ⟨(k, v), member, rfl⟩

theorem mem_others : (k', v') ∈ others k l ↔ (k', v') ∈ l ∧ k' ≠ k := by
  unfold others
  rw [List.mem_filter, decide_eq_true_iff]

theorem others_sublist (k : K) (l : List (K × V)) : (others k l).Sublist l :=
  List.filter_sublist

theorem keys_others (k : K) (l : List (K × V)) :
    keys (others k l) = (keys l).filter (· ≠ k) := by
  unfold keys others
  rw [List.filter_map]
  rfl

theorem others_of_notMem (absent : k ∉ keys l) : others k l = l := by
  refine List.filter_eq_self.mpr fun e member => decide_eq_true ?_
  rintro rfl
  exact absent (List.mem_map_of_mem member)

omit [DecidableEq K] in
/-- A key has one value. -/
theorem value_unique (distinct : (keys l).Nodup) (first : (k, v) ∈ l) (second : (k, v') ∈ l) :
    v = v' :=
  congrArg Prod.snd (List.inj_on_of_nodup_map distinct first second rfl)

theorem perm_others (distinct : (keys l).Nodup) (member : (k, v) ∈ l) :
    l.Perm ((k, v) :: others k l) := by
  induction l with
  | nil => cases member
  | cons e l inductionHypothesis =>
      obtain ⟨fresh, distinct⟩ := List.nodup_cons.mp distinct
      rcases List.mem_cons.mp member with rfl | inside
      · have dropped : others k ((k, v) :: l) = others k l :=
          List.filter_cons_of_neg (by simp)
        rw [dropped, others_of_notMem fresh]
      · have other : e.1 ≠ k := by
          rintro rfl
          exact fresh (mem_keys.mpr ⟨v, inside⟩)
        have stays : others k (e :: l) = e :: others k l :=
          List.filter_cons_of_pos (decide_eq_true other)
        rw [stays]
        exact ((inductionHypothesis distinct inside).cons e).trans (List.Perm.swap _ _ _)

theorem touch_of_mem (distinct : (keys l).Nodup) (member : (k, v) ∈ l) :
    touch k l = (k, v) :: others k l := by
  unfold touch
  cases found : l.find? (fun e => e.1 = k) with
  | none => exact absurd (decide_eq_true rfl) (List.find?_eq_none.mp found (k, v) member)
  | some e =>
      have same : e.1 = k := by simpa using List.find?_some found
      have equal : e.2 = v :=
        value_unique distinct (same ▸ List.mem_of_find?_eq_some found) member
      show e :: others k l = _
      rw [← same, ← equal]

theorem touch_of_notMem (absent : k ∉ keys l) : touch k l = l := by
  unfold touch
  rw [List.find?_eq_none.mpr fun e member => ?_]
  simp only [decide_eq_true_eq]
  rintro rfl
  exact absent (List.mem_map_of_mem member)

/-- A hit changes the order only. -/
theorem touch_perm (distinct : (keys l).Nodup) (k : K) : (touch k l).Perm l := by
  by_cases present : k ∈ keys l
  · obtain ⟨v, member⟩ := mem_keys.mp present
    rw [touch_of_mem distinct member]
    exact (perm_others distinct member).symm
  · rw [touch_of_notMem present]

/-! ## Recency -/

/-- The keys are distinct and in the order of their last use; `used` lists the uses, the last
one first. -/
structure Recent (l : List (K × V)) (used : List K) : Prop where
  distinct : (keys l).Nodup
  isUsed : ∀ k ∈ keys l, k ∈ used
  order : (keys l).Pairwise (fun a b => used.idxOf a < used.idxOf b)

theorem recent_nil : Recent ([] : List (K × V)) [] :=
  ⟨List.nodup_nil, fun _ member => absurd member List.not_mem_nil, List.Pairwise.nil⟩

/-- A use puts its key in front of entries of other keys, in their order. -/
theorem Recent.front {used : List K} (recent : Recent l used)
    (sublist : l'.Sublist (others k l)) : Recent ((k, v) :: l') (k :: used) := by
  have below : (keys l').Sublist ((keys l).filter (· ≠ k)) :=
    keys_others k l ▸ sublist.map Prod.fst
  have other : ∀ a ∈ keys l', a ∈ keys l ∧ a ≠ k := fun a member =>
    (List.mem_filter.mp (below.subset member)).imp_right of_decide_eq_true
  have shifted : ∀ a, a ≠ k → (k :: used).idxOf a = used.idxOf a + 1 := fun a distinct =>
    List.idxOf_cons_ne used distinct.symm
  refine ⟨?_, fun a member => ?_, ?_⟩
  · exact List.nodup_cons.mpr
      ⟨fun member => (other k member).2 rfl, (recent.distinct.filter _).sublist below⟩
  · rcases List.mem_cons.mp member with rfl | member
    · exact List.mem_cons_self
    · exact List.mem_cons_of_mem k (recent.isUsed a (other a member).1)
  · refine List.pairwise_cons.mpr ⟨fun a member => ?_, ?_⟩
    · rw [List.idxOf_cons_self, shifted a (other a member).2]
      exact Nat.succ_pos _
    · have order := (recent.order.filter _).sublist below
      refine order.imp_of_mem fun {a b} memberA memberB less => ?_
      rw [shifted a (other a memberA).2, shifted b (other b memberB).2]
      exact Nat.succ_lt_succ less

/-! ## Room -/

variable {weight capacity}

omit [DecidableEq K] in
theorem total_perm (perm : l.Perm l') : total weight l = total weight l' :=
  (perm.map _).sum_nat

omit [DecidableEq K] in
theorem total_cons (e : K × V) (l : List (K × V)) :
    total weight (e :: l) = weight e.2 + total weight l :=
  List.sum_cons

omit [DecidableEq K] in
theorem kept_le (w : Nat) (l : List (K × V)) (n : Nat) : kept weight capacity w l n ≤ n :=
  Nat.findGreatest_le n

omit [DecidableEq K] in
/-- What stays is all that fits, or nothing. -/
theorem kept_fits (w : Nat) (l : List (K × V)) (n : Nat) :
    Fits weight capacity w l (kept weight capacity w l n) ∨ kept weight capacity w l n = 0 := by
  by_cases none : kept weight capacity w l n = 0
  · exact Or.inr none
  · exact Or.inl (Nat.findGreatest_of_ne_zero rfl none)

omit [DecidableEq K] in
/-- One more entry would not fit. -/
theorem kept_greatest {w m n : Nat} {l : List (K × V)}
    (more : kept weight capacity w l n < m) (bound : m ≤ n) : ¬Fits weight capacity w l m :=
  Nat.findGreatest_is_greatest more bound

/-- **The capacity** is respected if and only if the new entry alone respects it. -/
theorem total_store_le_iff (k : K) (v : V) (l : List (K × V)) :
    total weight (store weight capacity k v l) ≤ capacity ↔ weight v ≤ capacity := by
  unfold store
  rw [total_cons]
  constructor
  · intro fits
    exact Nat.le_trans (Nat.le_add_right _ _) fits
  · intro alone
    rcases kept_fits (weight v) (others k l) (others k l).length with fits | none
    · rw [Nat.add_comm]
      exact fits
    · rw [none]
      exact alone

end LruList

end Foundations
