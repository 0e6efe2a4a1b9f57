import Mathlib.Data.List.Pairwise
import Mathlib.Data.List.Induction
import Mathlib.Data.Option.Basic
import Mathlib.Order.Basic
import Mathlib.Order.Lattice
import Mathlib.Tactic.Common

/-!
# Ordered maps as ascending association lists

A `SortedMap` is a list of bindings together with the proof that its keys
ascend strictly.  Two maps with the same lookups are equal (`SortedMap.ext`), so
every law below is an equation between lookups.

* `insert`, `erase`-free: the maps only grow, or are cut down by `filter`;
* `insertAll` inserts a list of bindings from left to right, so a later binding
  replaces an earlier one;
* `mergeAll` merges maps from the oldest to the newest.
-/

namespace Foundations

universe u v

variable {K : Type u} {V : Type v} [LinearOrder K]

/-- Keys ascend strictly along the list. -/
def AscendingKeys (l : List (K × V)) : Prop :=
  l.Pairwise (fun a b => a.1 < b.1)

instance decidableAscendingKeys (l : List (K × V)) : Decidable (AscendingKeys l) :=
  inferInstanceAs (Decidable (l.Pairwise _))

/-- The value bound to `k` in a list of bindings. -/
def lookupList (k : K) : List (K × V) → Option V
  | [] => none
  | (k', v) :: rest => if k = k' then some v else lookupList k rest

/-- Bind `k` to `v` at its place in an ascending list. -/
def insertList (k : K) (v : V) : List (K × V) → List (K × V)
  | [] => [(k, v)]
  | (k', v') :: rest =>
      if k < k' then (k, v) :: (k', v') :: rest
      else if k = k' then (k, v) :: rest
      else (k', v') :: insertList k v rest

/-! ## Bindings of an ascending list -/

@[simp] theorem lookupList_nil (k : K) : lookupList k ([] : List (K × V)) = none := rfl

theorem lookupList_cons (k k' : K) (v : V) (rest : List (K × V)) :
    lookupList k ((k', v) :: rest) = if k = k' then some v else lookupList k rest := rfl

theorem lookupList_eq_none {k : K} {l : List (K × V)} :
    lookupList k l = none ↔ ∀ b ∈ l, b.1 ≠ k := by
  induction l with
  | nil => simp
  | cons b rest inductionHypothesis =>
      obtain ⟨k', v⟩ := b
      rw [lookupList_cons]
      by_cases same : k = k'
      · simp [same]
      · simp [same, inductionHypothesis, Ne.symm same]

theorem lookupList_mem {k : K} {v : V} {l : List (K × V)}
    (found : lookupList k l = some v) : (k, v) ∈ l := by
  induction l with
  | nil => simp at found
  | cons b rest inductionHypothesis =>
      obtain ⟨k', v'⟩ := b
      rw [lookupList_cons] at found
      split at found
      · next same =>
          cases found
          subst same
          exact List.mem_cons_self
      · exact List.mem_cons_of_mem _ (inductionHypothesis found)

/-- In an ascending list a binding is found by its key. -/
theorem AscendingKeys.lookupList_of_mem {k : K} {v : V} {l : List (K × V)}
    (ascending : AscendingKeys l) (member : (k, v) ∈ l) : lookupList k l = some v := by
  induction l with
  | nil => cases member
  | cons b rest inductionHypothesis =>
      obtain ⟨k', v'⟩ := b
      obtain ⟨below, ascendingRest⟩ := List.pairwise_cons.mp ascending
      rw [lookupList_cons]
      rcases List.mem_cons.mp member with same | later
      · cases same
        simp
      · have less : k' < k := below _ later
        rw [if_neg less.ne', inductionHypothesis ascendingRest later]

theorem AscendingKeys.lookupList_eq_some {k : K} {v : V} {l : List (K × V)}
    (ascending : AscendingKeys l) : lookupList k l = some v ↔ (k, v) ∈ l :=
  ⟨lookupList_mem, ascending.lookupList_of_mem⟩

theorem lookupList_append (k : K) (l₁ l₂ : List (K × V)) :
    lookupList k (l₁ ++ l₂) = (lookupList k l₁).or (lookupList k l₂) := by
  induction l₁ with
  | nil => simp
  | cons b rest inductionHypothesis =>
      obtain ⟨k', v⟩ := b
      rw [List.cons_append, lookupList_cons, lookupList_cons]
      split <;> simp_all

/-- A binding below every key of an ascending list is not found in it. -/
theorem lookupList_eq_none_of_lt {k : K} {l : List (K × V)} (below : ∀ b ∈ l, k < b.1) :
    lookupList k l = none :=
  lookupList_eq_none.mpr fun b hb => (below b hb).ne'

theorem mem_insertList {k : K} {v : V} {b : K × V} {l : List (K × V)}
    (member : b ∈ insertList k v l) : b = (k, v) ∨ b ∈ l := by
  induction l with
  | nil => simpa [insertList] using member
  | cons c rest inductionHypothesis =>
      obtain ⟨k', v'⟩ := c
      rw [insertList] at member
      split at member
      · simpa using member
      · split at member
        · rcases List.mem_cons.mp member with rfl | later
          · exact Or.inl rfl
          · exact Or.inr (List.mem_cons_of_mem _ later)
        · rcases List.mem_cons.mp member with rfl | later
          · exact Or.inr List.mem_cons_self
          · rcases inductionHypothesis later with rfl | old
            · exact Or.inl rfl
            · exact Or.inr (List.mem_cons_of_mem _ old)

theorem AscendingKeys.insertList {l : List (K × V)} (ascending : AscendingKeys l) (k : K) (v : V) :
    AscendingKeys (insertList k v l) := by
  induction l with
  | nil => exact List.pairwise_singleton _ _
  | cons c rest inductionHypothesis =>
      obtain ⟨k', v'⟩ := c
      obtain ⟨below, ascendingRest⟩ := List.pairwise_cons.mp ascending
      rw [Foundations.insertList]
      split
      · next less =>
          refine List.pairwise_cons.mpr ⟨fun b hb => ?_, ascending⟩
          rcases List.mem_cons.mp hb with rfl | later
          · exact less
          · exact less.trans (below b later)
      · next notLess =>
          split
          · next same =>
              subst same
              exact List.pairwise_cons.mpr ⟨below, ascendingRest⟩
          · next different =>
              have greater : k' < k := lt_of_le_of_ne (not_lt.mp notLess) (Ne.symm different)
              refine List.pairwise_cons.mpr ⟨fun b hb => ?_, inductionHypothesis ascendingRest⟩
              rcases mem_insertList hb with rfl | old
              · exact greater
              · exact below b old

theorem lookupList_insertList (k k' : K) (v : V) (l : List (K × V)) :
    lookupList k' (insertList k v l) = if k' = k then some v else lookupList k' l := by
  induction l with
  | nil => rfl
  | cons c rest inductionHypothesis =>
      obtain ⟨k'', v''⟩ := c
      rw [insertList]
      split
      · rw [lookupList_cons]
      · split
        · next same =>
            subst same
            simp only [lookupList_cons]
            split <;> rfl
        · next different =>
            simp only [lookupList_cons, inductionHypothesis]
            split
            · next here =>
                rw [if_neg]
                rintro rfl
                exact different here
            · rfl

/-- A key above all keys of the first part is bound in the second part. -/
theorem insertList_append_of_lt {k : K} (v : V) {l₁ : List (K × V)} (l₂ : List (K × V))
    (below : ∀ b ∈ l₁, b.1 < k) : insertList k v (l₁ ++ l₂) = l₁ ++ insertList k v l₂ := by
  induction l₁ with
  | nil => rfl
  | cons b rest inductionHypothesis =>
      obtain ⟨k', v'⟩ := b
      have less : k' < k := below _ List.mem_cons_self
      rw [List.cons_append, insertList, if_neg less.not_gt, if_neg less.ne',
        inductionHypothesis fun b hb => below b (List.mem_cons_of_mem _ hb)]
      rfl

/-- A key below all keys is bound in front. -/
theorem insertList_of_lt {k : K} (v : V) {l : List (K × V)} (above : ∀ b ∈ l, k < b.1) :
    insertList k v l = (k, v) :: l := by
  cases l with
  | nil => rfl
  | cons b rest => rw [insertList, if_pos (above b List.mem_cons_self)]

/-- Two ascending lists that bind the same keys to the same values are equal. -/
theorem AscendingKeys.ext {l₁ l₂ : List (K × V)} (h₁ : AscendingKeys l₁) (h₂ : AscendingKeys l₂)
    (same : ∀ k, lookupList k l₁ = lookupList k l₂) : l₁ = l₂ := by
  have irreflexive : ∀ l : List (K × V), AscendingKeys l → l.Nodup := fun l hl =>
    hl.imp fun less equal => by simp [equal] at less
  have perm : l₁.Perm l₂ := by
    rw [List.perm_ext_iff_of_nodup (irreflexive l₁ h₁) (irreflexive l₂ h₂)]
    rintro ⟨k, v⟩
    rw [← h₁.lookupList_eq_some, ← h₂.lookupList_eq_some, same]
  exact perm.eq_of_pairwise (fun a b _ _ hab hba => absurd hab hba.not_gt) h₁ h₂

/-! ## The map -/

/-- A finite map, as its bindings in strictly ascending key order. -/
structure SortedMap (K : Type u) (V : Type v) [LinearOrder K] where
  entries : List (K × V)
  ascending : AscendingKeys entries

namespace SortedMap

instance [DecidableEq V] : DecidableEq (SortedMap K V) := fun m₁ m₂ =>
  decidable_of_iff (m₁.entries = m₂.entries) (by cases m₁; cases m₂; simp)

/-- The map without bindings. -/
def empty : SortedMap K V := ⟨[], List.Pairwise.nil⟩

/-- The value bound to `k`. -/
def lookup (m : SortedMap K V) (k : K) : Option V := lookupList k m.entries

/-- Bind `k` to `v`, replacing its binding if it has one. -/
def insert (m : SortedMap K V) (k : K) (v : V) : SortedMap K V :=
  ⟨insertList k v m.entries, m.ascending.insertList k v⟩

/-- Insert bindings from left to right. -/
def insertAll (m : SortedMap K V) (l : List (K × V)) : SortedMap K V :=
  l.foldl (fun acc b => acc.insert b.1 b.2) m

/-- Keep the bindings that satisfy `p`. -/
def filter (m : SortedMap K V) (p : K × V → Bool) : SortedMap K V :=
  ⟨m.entries.filter p, m.ascending.filter p⟩

/-- Replace the values, dropping the bindings for which there is none. -/
def filterMapValues {W : Type*} (m : SortedMap K V) (f : V → Option W) : SortedMap K W where
  entries := m.entries.filterMap (fun b => (f b.2).map (fun x => (b.1, x)))
  ascending := by
    unfold AscendingKeys
    rw [List.pairwise_filterMap]
    refine m.ascending.imp fun {a b} less x found y found' => ?_
    obtain ⟨x', -, rfl⟩ := Option.map_eq_some_iff.mp found
    obtain ⟨y', -, rfl⟩ := Option.map_eq_some_iff.mp found'
    exact less

/-- Merge maps from the oldest to the newest. -/
def mergeAll (ms : List (SortedMap K V)) : SortedMap K V :=
  ms.foldl (fun acc m => acc.insertAll m.entries) empty

variable {m m₁ m₂ : SortedMap K V} {k k' : K} {v : V}

theorem ext_entries (same : m₁.entries = m₂.entries) : m₁ = m₂ := by
  cases m₁
  cases m₂
  cases same
  rfl

/-- Maps are equal when they answer every lookup alike. -/
theorem ext (same : ∀ k, m₁.lookup k = m₂.lookup k) : m₁ = m₂ :=
  ext_entries (m₁.ascending.ext m₂.ascending same)

theorem mem_entries : (k, v) ∈ m.entries ↔ m.lookup k = some v :=
  m.ascending.lookupList_eq_some.symm

@[simp] theorem entries_empty : (empty : SortedMap K V).entries = [] := rfl

@[simp] theorem lookup_empty : (empty : SortedMap K V).lookup k = none := rfl

theorem lookup_insert : (m.insert k v).lookup k' = if k' = k then some v else m.lookup k' :=
  lookupList_insertList k k' v m.entries

@[simp] theorem lookup_insert_self : (m.insert k v).lookup k = some v := by
  rw [lookup_insert, if_pos rfl]

@[simp] theorem insertAll_nil : m.insertAll [] = m := rfl

@[simp] theorem insertAll_cons (b : K × V) (l : List (K × V)) :
    m.insertAll (b :: l) = (m.insert b.1 b.2).insertAll l := rfl

/-- Everything in the map was there or was inserted. -/
theorem mem_insertAll {l : List (K × V)} {m : SortedMap K V} {b : K × V}
    (member : b ∈ (m.insertAll l).entries) : b ∈ m.entries ∨ b ∈ l := by
  induction l generalizing m with
  | nil => exact Or.inl member
  | cons c l inductionHypothesis =>
      rcases inductionHypothesis member with inserted | later
      · rcases mem_insertList inserted with rfl | old
        · exact Or.inr List.mem_cons_self
        · exact Or.inl old
      · exact Or.inr (List.mem_cons_of_mem _ later)

theorem insertAll_append (l₁ l₂ : List (K × V)) :
    m.insertAll (l₁ ++ l₂) = (m.insertAll l₁).insertAll l₂ := by
  simp [insertAll, List.foldl_append]

/-- The last binding of a key wins. -/
theorem lookup_insertAll (l : List (K × V)) :
    (m.insertAll l).lookup k = (lookupList k l.reverse).or (m.lookup k) := by
  induction l generalizing m with
  | nil => simp
  | cons b rest inductionHypothesis =>
      obtain ⟨k', v⟩ := b
      rw [insertAll_cons, inductionHypothesis, List.reverse_cons, lookupList_append,
        Option.or_assoc, lookup_insert, lookupList_cons, lookupList_nil]
      split <;> simp

/-- Inserting all bindings of a map lays that map over the first one. -/
theorem lookup_insertAll_entries :
    (m₁.insertAll m₂.entries).lookup k = (m₂.lookup k).or (m₁.lookup k) := by
  rw [lookup_insertAll]
  congr 1
  cases found : m₂.lookup k with
  | none =>
      rw [lookupList_eq_none]
      intro b hb
      exact lookupList_eq_none.mp found b (List.mem_reverse.mp hb)
  | some v =>
      have member : (k, v) ∈ m₂.entries := mem_entries.mpr found
      cases other : lookupList k m₂.entries.reverse with
      | none =>
          exact absurd rfl (lookupList_eq_none.mp other _ (List.mem_reverse.mpr member))
      | some w =>
          have memberOther : (k, w) ∈ m₂.entries :=
            List.mem_reverse.mp (lookupList_mem other)
          rw [← found, mem_entries.mp memberOther]

theorem insertAll_entries_self : (empty : SortedMap K V).insertAll m.entries = m := by
  refine ext fun k => ?_
  rw [lookup_insertAll_entries]
  simp

theorem lookup_filter (p : K × V → Bool) :
    (m.filter p).lookup k = (m.lookup k).filter (fun v => p (k, v)) := by
  ext v
  rw [← mem_entries, Option.filter_eq_some_iff, ← mem_entries]
  simp [filter]

theorem lookup_filterMapValues {W : Type*} (f : V → Option W) :
    (m.filterMapValues f).lookup k = (m.lookup k).bind f := by
  ext x
  rw [← mem_entries, Option.bind_eq_some_iff]
  simp only [filterMapValues, List.mem_filterMap, Option.map_eq_some_iff, Prod.mk.injEq]
  constructor
  · rintro ⟨b, member, y, found, rfl, rfl⟩
    exact ⟨b.2, mem_entries.mp member, found⟩
  · rintro ⟨v, found, shows⟩
    exact ⟨(k, v), mem_entries.mpr found, x, shows, rfl, rfl⟩

@[simp] theorem mergeAll_nil : mergeAll ([] : List (SortedMap K V)) = empty := rfl

theorem mergeAll_concat (ms : List (SortedMap K V)) (m : SortedMap K V) :
    mergeAll (ms ++ [m]) = (mergeAll ms).insertAll m.entries := by
  simp [mergeAll]

/-- A merge answers with the newest map that knows the key. -/
theorem lookup_mergeAll (ms : List (SortedMap K V)) :
    (mergeAll ms).lookup k = ms.reverse.findSome? (fun m => m.lookup k) := by
  induction ms using List.reverseRecOn with
  | nil => rfl
  | append_singleton ms m inductionHypothesis =>
      rw [mergeAll_concat, lookup_insertAll_entries, inductionHypothesis, List.reverse_append]
      simp only [List.reverse_cons, List.reverse_nil, List.nil_append, List.cons_append,
        List.findSome?_cons]
      cases m.lookup k <;> rfl

/-! ## First and last key -/

theorem head_le {b c : K × V} {rest : List (K × V)} (ascending : AscendingKeys (b :: rest))
    (member : c ∈ b :: rest) : b.1 ≤ c.1 := by
  rcases List.mem_cons.mp member with rfl | later
  · exact le_refl _
  · exact le_of_lt ((List.pairwise_cons.mp ascending).1 c later)

theorem le_getLast {l : List (K × V)} (ascending : AscendingKeys l) (nonempty : l ≠ [])
    {c : K × V} (member : c ∈ l) : c.1 ≤ (l.getLast nonempty).1 := by
  have split := List.dropLast_concat_getLast nonempty
  unfold AscendingKeys at ascending
  rw [← split, List.pairwise_append] at ascending
  rw [← split] at member
  rcases List.mem_append.mp member with early | last
  · exact le_of_lt (ascending.2.2 c early _ List.mem_cons_self)
  · exact (List.mem_singleton.mp last) ▸ le_refl _

end SortedMap

end Foundations
