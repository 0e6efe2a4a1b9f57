import KvEngine.Compaction.MergeIterator
import KvEngine.Foundations.KWayMerge

/-!
# The merge iterator sorts, and keeps the order of equal keys

The heap holds the first entry of every source that is not exhausted, each under the number
of its source.  What `pop` takes out is then the least key, of the first source that starts
with it, and `next` is one step of a k-way merge.
-/

namespace KvEngine

open Foundations

namespace MergeIterator

/-- The heap entry a source contributes. -/
def headOf (idx : Nat) : List (Bytes × Bytes) → List HeapEntry
  | [] => []
  | (key, value) :: _ => [{ key, value, source := idx }]

/-- The heap entries of sources that are numbered from `idx` on. -/
def heads : Nat → List (List (Bytes × Bytes)) → List HeapEntry
  | _, [] => []
  | idx, source :: rest => headOf idx source ++ heads (idx + 1) rest

theorem heads_append (idx : Nat) (before after : List (List (Bytes × Bytes))) :
    heads idx (before ++ after) = heads idx before ++ heads (idx + before.length) after := by
  induction before generalizing idx with
  | nil => rfl
  | cons source before inductionHypothesis =>
      show headOf idx source ++ heads (idx + 1) (before ++ after) = _
      rw [inductionHypothesis, ← List.append_assoc, List.length_cons, Nat.add_assoc,
        Nat.add_comm 1]
      rfl

/-- An entry of the heap is the first one of its source. -/
theorem mem_heads {idx : Nat} {sources : List (List (Bytes × Bytes))} {entry : HeapEntry} :
    entry ∈ heads idx sources ↔
      ∃ i later, entry.source = idx + i ∧ sources[i]? = some ((entry.key, entry.value) :: later) := by
  induction sources generalizing idx with
  | nil =>
      refine iff_of_false (List.not_mem_nil) ?_
      rintro ⟨i, later, -, found⟩
      exact nomatch found
  | cons source rest inductionHypothesis =>
      show entry ∈ headOf idx source ++ heads (idx + 1) rest ↔ _
      rw [List.mem_append, inductionHypothesis]
      constructor
      · rintro (first | ⟨i, later, number, found⟩)
        · cases source with
          | nil => cases first
          | cons head later =>
              cases List.mem_singleton.mp first
              exact ⟨0, later, rfl, rfl⟩
        · exact ⟨i + 1, later, by omega, found⟩
      · rintro ⟨i, later, number, found⟩
        cases i with
        | zero =>
            cases Option.some.inj found
            cases number
            exact Or.inl (List.mem_singleton_self _)
        | succ i => exact Or.inr ⟨i, later, by omega, found⟩

/-- The heap holds the first entry of every pending list, and the sources hold the others. -/
structure Holds (it : MergeIterator) (pending : List (List (Bytes × Bytes))) : Prop where
  heap : it.heap.Perm (heads 0 pending)
  sources : it.sources = pending.map List.tail

theorem seed_eq (idx : Nat) (sources : List (List (Bytes × Bytes))) (it : MergeIterator) :
    seed idx sources it =
      ⟨it.heap ++ heads idx sources, it.sources ++ sources.map List.tail⟩ := by
  induction sources generalizing idx it with
  | nil => simp [seed, heads]
  | cons source rest inductionHypothesis =>
      cases source with
      | nil =>
          show seed (idx + 1) rest _ = _
          rw [inductionHypothesis]
          simp [heads, headOf]
      | cons head later =>
          show seed (idx + 1) rest _ = _
          rw [inductionHypothesis]
          simp [heads, headOf]

theorem Holds.new (sources : List (List (Bytes × Bytes))) : Holds (new sources) sources := by
  unfold MergeIterator.new
  rw [seed_eq]
  exact ⟨List.Perm.refl _, rfl⟩

variable {pop : HeapPop} {it : MergeIterator} {pending : List (List (Bytes × Bytes))}

/-- With an empty heap nothing is pending. -/
theorem Holds.exhausted (holds : Holds it pending) (empty : it.heap = []) :
    ∀ s ∈ pending, s = [] := by
  intro s member
  obtain ⟨i, found⟩ := List.mem_iff_getElem?.mp member
  cases s with
  | nil => rfl
  | cons head later =>
      have inHeap : (⟨head.1, head.2, i⟩ : HeapEntry) ∈ heads 0 pending :=
        mem_heads.mpr ⟨i, later, (Nat.zero_add i).symm, found⟩
      rw [← holds.heap.mem_iff, empty] at inHeap
      cases inHeap

/-- What `pop` takes out is the entry a k-way merge takes next. -/
theorem Holds.chosen (holds : Holds it pending) {entry : HeapEntry} {rest : List HeapEntry}
    (perm : it.heap.Perm (entry :: rest)) (least : ∀ other ∈ it.heap, entry.cmp other ≠ .gt) :
    ∃ later, Chosen Prod.fst pending entry.source (entry.key, entry.value) later := by
  have inHeads := holds.heap.mem_iff.mp (perm.mem_iff.mpr List.mem_cons_self)
  obtain ⟨i, later, number, found⟩ := mem_heads.mp inHeads
  rw [Nat.zero_add] at number
  refine ⟨later, number ▸ found, fun j head xs other => ?_⟩
  have competitor : (⟨head.1, head.2, j⟩ : HeapEntry) ∈ it.heap :=
    holds.heap.mem_iff.mpr (mem_heads.mpr ⟨j, xs, (Nat.zero_add j).symm, other⟩)
  exact HeapEntry.cmp_ne_gt.mp (least _ competitor)

/-- `refill` takes the first entry of a source over into the heap. -/
theorem refill_eq {source : Nat} {later : List (Bytes × Bytes)}
    (found : it.sources[source]? = some later) :
    it.refill source =
      .ok { heap := it.heap ++ headOf source later, sources := it.sources.set source later.tail } := by
  unfold refill
  simp only [found, orPanic_some, Result.ok_bind]
  cases later with
  | nil =>
      obtain ⟨inside, isNil⟩ := List.getElem?_eq_some_iff.mp found
      have unchanged : it.sources.set source [] = it.sources :=
        isNil ▸ List.set_getElem_self inside
      rw [List.tail_nil, unchanged, headOf, List.append_nil]
  | cons head tail => rfl

/-- Refilling the heap from the source of the entry restores the invariant. -/
theorem Holds.refill (holds : Holds it pending) {entry : HeapEntry} {rest : List HeapEntry}
    (perm : it.heap.Perm (entry :: rest)) {later : List (Bytes × Bytes)}
    (found : pending[entry.source]? = some ((entry.key, entry.value) :: later)) :
    ∃ it', MergeIterator.refill { it with heap := rest } entry.source = .ok it' ∧
      Holds it' (pending.set entry.source later) := by
  obtain ⟨before, after, whole, length, set⟩ := split_at_index found
  have source : it.sources[entry.source]? = some later := by
    rw [holds.sources, List.getElem?_map, found]
    rfl
  refine ⟨_, refill_eq source, ?_, ?_⟩
  · -- the entry that was taken out is the only one of its source
    have others : rest.Perm (heads 0 before ++ heads (entry.source + 1) after) := by
      refine List.Perm.cons_inv (a := entry) (perm.symm.trans (holds.heap.trans ?_))
      rw [whole, heads_append, Nat.zero_add, length]
      exact List.perm_middle
    show (rest ++ headOf entry.source later).Perm _
    rw [set, heads_append, Nat.zero_add, length]
    refine (others.append_right _).trans ?_
    rw [List.append_assoc]
    exact List.Perm.append_left _ List.perm_append_comm
  · show it.sources.set entry.source later.tail = _
    rw [holds.sources, List.map_set]

/-- One call of `next` is one step of a k-way merge of the pending lists. -/
theorem Holds.next (holds : Holds it pending) (pops : PopsGreatest pop) :
    ((∀ s ∈ pending, s = []) ∧ it.next pop = .ok (none, it)) ∨
      ∃ i e rest it', Chosen Prod.fst pending i e rest ∧ it.next pop = .ok (some e, it') ∧
        Holds it' (pending.set i rest) := by
  unfold MergeIterator.next
  by_cases empty : it.heap = []
  · left
    rw [empty, pops.empty]
    exact ⟨holds.exhausted empty, rfl⟩
  · right
    obtain ⟨entry, rest, popped, perm, least⟩ := pops.greatest it.heap empty
    obtain ⟨later, chosen⟩ := holds.chosen perm least
    obtain ⟨it', refilled, holds'⟩ := holds.refill perm chosen.head
    refine ⟨entry.source, (entry.key, entry.value), later, it', chosen, ?_, holds'⟩
    simp only [popped, refilled, Result.ok_bind]

/-- Taking an entry out of a list makes the lists shorter by one. -/
theorem length_set {i : Nat} {e : Bytes × Bytes} {rest : List (Bytes × Bytes)}
    (found : pending[i]? = some (e :: rest)) :
    pending.flatten.length = (pending.set i rest).flatten.length + 1 := by
  obtain ⟨before, after, whole, -, set⟩ := split_at_index found
  rw [set rest, whole]
  simp only [List.flatten_append, List.flatten_cons, List.length_append, List.length_cons]
  omega

/-- All calls of `next` together merge the pending lists. -/
theorem Holds.collect (holds : Holds it pending) (pops : PopsGreatest pop) :
    ∃ out, Merges Prod.fst pending out ∧
      ∀ fuel, pending.flatten.length < fuel → MergeIterator.collect pop fuel it = .ok out := by
  generalize size : pending.flatten.length = n
  induction n generalizing it pending with
  | zero =>
      rcases holds.next pops with ⟨exhausted, ended⟩ | ⟨i, e, rest, it', chosen, -, -⟩
      · refine ⟨[], Merges.done exhausted, fun fuel enough => ?_⟩
        obtain ⟨fuel, rfl⟩ := Nat.exists_eq_add_of_lt enough
        simp only [MergeIterator.collect, ended, Result.ok_bind]
      · have shorter := length_set chosen.head
        omega
  | succ n inductionHypothesis =>
      rcases holds.next pops with ⟨exhausted, -⟩ | ⟨i, e, rest, it', chosen, taken, holds'⟩
      · rw [List.flatten_eq_nil_iff.mpr exhausted] at size
        cases size
      · have shorter := length_set chosen.head
        obtain ⟨out, merges, collected⟩ := inductionHypothesis holds' (by omega)
        refine ⟨e :: out, Merges.step chosen merges, fun fuel enough => ?_⟩
        cases fuel with
        | zero => omega
        | succ fuel =>
            simp only [MergeIterator.collect, taken, collected fuel (by omega), Result.ok_bind]

/-- **The merge iterator** yields the stable sort of its sources: nothing is lost and nothing
duplicated, the keys ascend, and the entries of a key come source by source, in the order of
each source. -/
theorem merge_is_stable (pops : PopsGreatest pop) {sources : List (List (Bytes × Bytes))}
    (sorted : ∀ s ∈ sources, s.Pairwise (fun a b => a.1 ≤ b.1)) :
    ∃ out, (∀ fuel, sources.flatten.length < fuel →
        MergeIterator.collect pop fuel (MergeIterator.new sources) = .ok out) ∧
      out.Perm sources.flatten ∧
      out.Pairwise (fun a b => a.1 ≤ b.1) ∧
      (∀ key, out.filter (fun e => e.1 = key) =
        sources.flatMap (fun s => s.filter (fun e => e.1 = key))) ∧
      ∀ key, out.find? (fun e => e.1 = key) =
        sources.findSome? (fun s => s.find? (fun e => e.1 = key)) := by
  obtain ⟨out, merges, collected⟩ := (Holds.new sources).collect pops
  refine ⟨out, collected, merges.perm, merges.sorted sorted, fun key => ?_,
    merges.find?_eq sorted⟩
  rw [merges.filter_eq sorted key, List.filter_flatten]
  rfl

/-- A `pop` that searches the heap for its least entry. -/
def popLeast : HeapPop
  | [] => none
  | entry :: heap =>
      match popLeast heap with
      | none => some (entry, [])
      | some (least, rest) =>
          if entry.cmp least = .gt then some (least, entry :: rest) else some (entry, heap)

theorem popLeast_greatest : PopsGreatest popLeast := by
  refine ⟨rfl, fun heap filled => ?_⟩
  induction heap with
  | nil => exact absurd rfl filled
  | cons entry heap inductionHypothesis =>
      have refl : entry.cmp entry ≠ .gt := HeapEntry.cmp_ne_gt.mpr (Or.inr ⟨rfl, Nat.le_refl _⟩)
      cases heap with
      | nil =>
          refine ⟨entry, [], rfl, List.Perm.refl _, fun other member => ?_⟩
          cases List.mem_singleton.mp member
          exact refl
      | cons second later =>
          obtain ⟨least, rest, popped, perm, below⟩ :=
            inductionHypothesis (List.cons_ne_nil second later)
          unfold popLeast
          simp only [popped]
          split
          case isTrue greater =>
            refine ⟨least, entry :: rest, rfl, (perm.cons entry).trans (List.Perm.swap _ _ _), ?_⟩
            intro other member
            rcases List.mem_cons.mp member with rfl | inside
            · exact HeapEntry.cmp_ne_gt_of_gt greater
            · exact below other inside
          case isFalse notGreater =>
            refine ⟨entry, second :: later, rfl, List.Perm.refl _, fun other member => ?_⟩
            rcases List.mem_cons.mp member with rfl | inside
            · exact refl
            · exact HeapEntry.cmp_ne_gt_trans notGreater (below other inside)

theorem merge_is_stable_shared_key :
    ∃ out, (∀ fuel, 4 < fuel → MergeIterator.collect popLeast fuel
        (MergeIterator.new [[([1], [10]), ([2], [20])], [([1], [11]), ([3], [30])]]) = .ok out) ∧
      out.find? (fun e => e.1 = ([1] : Bytes)) = some ([1], [10]) := by
  have sorted : ∀ s ∈ [[(([1] : Bytes), ([10] : Bytes)), ([2], [20])], [([1], [11]), ([3], [30])]],
      s.Pairwise (fun a b => a.1 ≤ b.1) := by
    decide
  obtain ⟨out, collected, -, -, -, first⟩ := merge_is_stable popLeast_greatest sorted
  exact ⟨out, collected, (first [1]).trans (by decide)⟩

end MergeIterator

end KvEngine
