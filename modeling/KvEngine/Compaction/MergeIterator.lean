import KvEngine.Error
import Mathlib.Order.Basic

/-!
# Multi-way merge iterator

Merges multiple sorted sources into a single sorted stream.  A source is the list of the
entries it still yields.  `BinaryHeap` belongs to the standard library: what it holds is a
list here, and `pop` is a parameter.
-/

namespace KvEngine

open Foundations

/-- An entry of the heap: the next one of a source. -/
structure HeapEntry where
  key : Bytes
  value : Bytes
  source : Nat
  deriving DecidableEq, Repr

namespace HeapEntry

/-- Compare by key (lexicographic), then by source index. -/
def cmp (a b : HeapEntry) : Ordering :=
  (compareOfLessAndEq a.key b.key).then (compare a.source b.source)

theorem cmp_ne_gt {a b : HeapEntry} :
    a.cmp b ≠ .gt ↔ a.key < b.key ∨ (a.key = b.key ∧ a.source ≤ b.source) := by
  unfold cmp compareOfLessAndEq
  split
  case isTrue less => exact iff_of_true (fun greater => nomatch greater) (Or.inl less)
  case isFalse notLess =>
    split
    case isTrue same =>
      show compare a.source b.source ≠ .gt ↔ _
      rw [ne_eq, Nat.compare_eq_gt, Nat.not_lt]
      exact ⟨fun index => Or.inr ⟨same, index⟩,
        fun h => h.elim (fun less => absurd less notLess) And.right⟩
    case isFalse distinct =>
      refine iff_of_false (fun other => other rfl) ?_
      rintro (less | ⟨same, -⟩)
      · exact notLess less
      · exact distinct same

theorem cmp_ne_gt_of_gt {a b : HeapEntry} (greater : a.cmp b = .gt) : b.cmp a ≠ .gt := by
  have above : ¬(a.key < b.key ∨ (a.key = b.key ∧ a.source ≤ b.source)) :=
    fun below => cmp_ne_gt.mpr below greater
  rw [not_or, not_and, Nat.not_le] at above
  refine cmp_ne_gt.mpr ?_
  rcases (not_lt.mp above.1).lt_or_eq with less | same
  · exact Or.inl less
  · exact Or.inr ⟨same, Nat.le_of_lt (above.2 same.symm)⟩

theorem cmp_ne_gt_trans {a b c : HeapEntry} (first : a.cmp b ≠ .gt) (second : b.cmp c ≠ .gt) :
    a.cmp c ≠ .gt := by
  rw [cmp_ne_gt] at *
  rcases first with less | ⟨same, index⟩
  · rcases second with less' | ⟨same', -⟩
    · exact Or.inl (less.trans less')
    · exact Or.inl (same' ▸ less)
  · rcases second with less' | ⟨same', index'⟩
    · exact Or.inl (same ▸ less')
    · exact Or.inr ⟨same.trans same', index.trans index'⟩

end HeapEntry

/-- `BinaryHeap::pop` on a heap of `Reverse<HeapEntry>`. -/
abbrev HeapPop := List HeapEntry → Option (HeapEntry × List HeapEntry)

/-- `pop` takes out a greatest item, and `None` is returned for an empty heap.  Under
`Reverse` the greatest item is a least entry. -/
structure PopsGreatest (pop : HeapPop) : Prop where
  empty : pop [] = none
  greatest : ∀ heap, heap ≠ [] → ∃ entry rest, pop heap = some (entry, rest) ∧
    heap.Perm (entry :: rest) ∧ ∀ other ∈ heap, entry.cmp other ≠ .gt

/-- A merged iterator that yields entries from multiple sorted sources in key order. -/
structure MergeIterator where
  heap : List HeapEntry
  sources : List (List (Bytes × Bytes))
  deriving DecidableEq, Repr

namespace MergeIterator

/-- Seed the heap with one entry per non-empty source, from source `idx` on. -/
def seed : Nat → List (List (Bytes × Bytes)) → MergeIterator → MergeIterator
  | _, [], it => it
  | idx, source :: rest, it =>
      match source with
      | [] => seed (idx + 1) rest { it with sources := it.sources ++ [[]] }
      | (key, value) :: later =>
          seed (idx + 1) rest
            { heap := it.heap ++ [{ key, value, source := idx }]
              sources := it.sources ++ [later] }

/-- Create a new merge iterator from a list of sorted sources. -/
def new (sources : List (List (Bytes × Bytes))) : MergeIterator := seed 0 sources ⟨[], []⟩

/-- Advance the source that produced an entry, which refills the heap. -/
def refill (it : MergeIterator) (source : Nat) : Result MergeIterator := do
  match ← orPanic it.sources[source]? with
  | [] => .ok it
  | (key, value) :: later =>
      .ok { heap := it.heap ++ [{ key, value, source }], sources := it.sources.set source later }

/-- `Iterator::next` -/
def next (pop : HeapPop) (it : MergeIterator) : Result (Option (Bytes × Bytes) × MergeIterator) :=
  match pop it.heap with
  | none => .ok (none, it)
  | some (entry, heap) => do
      let it ← refill { it with heap } entry.source
      .ok (some (entry.key, entry.value), it)

/-- The entries that are yielded until `next` returns `None`, by at most `fuel` calls. -/
def collect (pop : HeapPop) : Nat → MergeIterator → Result (List (Bytes × Bytes))
  | 0, _ => .error .outOfFuel
  | fuel + 1, it => do
      match ← it.next pop with
      | (none, _) => .ok []
      | (some entry, it) => do
          let rest ← collect pop fuel it
          .ok (entry :: rest)

end MergeIterator

end KvEngine
