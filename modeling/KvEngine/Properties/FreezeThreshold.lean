import KvEngine.Foundations.Weight
import KvEngine.Properties.MemtableMap
import Mathlib.Data.List.Infix

/-!
# What the freeze threshold bounds

The size estimate of a list counts a key with the value it came in with.  An overwrite puts
another value in its place and leaves the estimate as it is, so the bytes a list holds stay
below the threshold only as far as the estimate keeps up with them.
-/

namespace KvEngine

open Foundations

namespace MemTable

/-- A call of `put`, with the trailing zeros that its list draws. -/
structure Put where
  trailing : Nat
  key : Bytes
  value : Bytes
  deriving DecidableEq, Repr

/-- The level of the tower that a new node of the call gets. -/
def Put.level (p : Put) : Nat := min p.trailing (maxLevel - 1)

/-- The binding that the call makes. -/
def Put.binding (p : Put) : Bytes × Bytes := (p.key, p.value)

/-- Make one `put` after the other. -/
def putAll (m : MemTable) : List Put → Result MemTable
  | [] => .ok m
  | p :: rest => do
      let m ← m.put p.trailing p.key p.value
      putAll m rest

/-- The bytes of some entries. -/
def bytesOf (entries : List (Bytes × Bytes)) : Nat :=
  (entries.map (fun e => e.1.length + e.2.length)).sum

/-- The memtables that the calls lead to. -/
inductive Reachable : MemTable → Prop
  | new (maxSize : Nat) : Reachable (withMaxSize maxSize)
  | put {m m' : MemTable} {trailing : Nat} {key value : Bytes} (reachable : Reachable m)
      (run : m.put trailing key value = .ok m') : Reachable m'
  | putNoFreeze {m m' : MemTable} {trailing : Nat} {key value : Bytes} (reachable : Reachable m)
      (run : m.putNoFreeze trailing key value = .ok m') : Reachable m'
  | freeze {m : MemTable} (reachable : Reachable m) : Reachable m.freeze.1
  | takeImmutable {m : MemTable} (reachable : Reachable m) : Reachable m.takeImmutable.2

/-- After each `put`, if no immutable list is waiting, the active list holds at most `max_size`
bytes of keys and values. -/
def Bounded (m : MemTable) (puts : List Put) : Prop :=
  ∀ before, before ≠ [] → before <+: puts →
    ∃ m' entries, m.putAll before = .ok m' ∧ m'.active.iter = .ok entries ∧
      (m'.immutable = none → bytesOf entries ≤ m'.maxSize)

/-- The size estimate of a list that held `held` at an estimate of `size`, after some puts: a
key counts when it comes in, with its value, the lanes of its tower and the overhead. -/
def estimate : SortedMap Bytes Bytes → Nat → List Put → Nat
  | _, size, [] => size
  | held, size, p :: rest =>
      estimate (held.insert p.key p.value)
        (size + SkipList.growth held p.level p.key p.value) rest

/-- The bytes of the list after these puts. -/
def liveBytes (held : SortedMap Bytes Bytes) (puts : List Put) : Nat :=
  bytesOf (held.insertAll (puts.map Put.binding)).entries

/-- The bytes keep below the threshold as long as the estimate does. -/
def EstimateSuffices (m : MemTable) (puts : List Put) : Prop :=
  m.immutable = none → ∀ before, before ≠ [] → before <+: puts →
    estimate m.active.contents m.active.size before ≤ m.maxSize →
    liveBytes m.active.contents before ≤ m.maxSize

theorem Reachable.valid {m : MemTable} (reachable : Reachable m) : Valid m := by
  induction reachable with
  | new maxSize => exact (valid_withMaxSize maxSize).1
  | put _ run valid =>
      obtain ⟨m', run', valid', -⟩ := valid.put_ok _ _ _
      rw [run] at run'
      cases run'
      exact valid'
  | putNoFreeze _ run valid =>
      obtain ⟨m', run', valid', -⟩ := valid.putNoFreeze_ok _ _ _
      rw [run] at run'
      cases run'
      exact valid'
  | freeze _ valid => exact valid.freeze_cases.1
  | takeImmutable _ valid => exact valid.takeImmutable

variable {m : MemTable}

theorem le_estimate (held : SortedMap Bytes Bytes) (size : Nat) (puts : List Put) :
    size ≤ estimate held size puts := by
  induction puts generalizing held size with
  | nil => exact Nat.le_refl _
  | cons p rest inductionHypothesis =>
      exact Nat.le_trans (Nat.le_add_right _ _) (inductionHypothesis _ _)

/-- A `put` leaves the slot free if it was free and the estimate stays below the threshold. -/
theorem Valid.put_free_iff (valid : Valid m) (p : Put) :
    ∃ m', m.put p.trailing p.key p.value = .ok m' ∧ Valid m' ∧ m'.maxSize = m.maxSize ∧
      (m'.immutable = none ↔ m.immutable = none ∧
        m.active.size + SkipList.growth m.active.contents p.level p.key p.value ≤ m.maxSize) ∧
      (m'.immutable = none →
        m'.active.contents = m.active.contents.insert p.key p.value ∧
        m'.active.size =
          m.active.size + SkipList.growth m.active.contents p.level p.key p.value) := by
  have levels : m.active.randomLevel p.trailing < m.active.maxLevel := by
    rw [SkipList.randomLevel, valid.levels]
    unfold maxLevel
    omega
  have level : m.active.randomLevel p.trailing = p.level := by
    rw [SkipList.randomLevel, valid.levels, Put.level]
  obtain ⟨active, run, validActive, contents, maxLevel, size⟩ :=
    valid.active.insert_ok levels p.key p.value
  have valid₁ : Valid { m with active } :=
    ⟨validActive, maxLevel.trans valid.levels, valid.immutable, valid.frozen⟩
  have written : m.put p.trailing p.key p.value =
      .ok (if active.size > m.maxSize then freeze { m with active } |>.1 else { m with active }) := by
    simp only [put, putNoFreeze, run, Result.ok_bind]
  rw [level] at size
  rw [← size]
  refine ⟨_, written, ?_⟩
  split
  case isTrue large =>
    obtain ⟨validFrozen, maxSize, frozen⟩ := valid₁.freeze_cases
    have taken : (freeze { m with active }).1.immutable ≠ none := by
      rcases frozen with ⟨same, waiting | empty⟩ | ⟨-, -, moved, -⟩
      · rw [same]
        exact Option.isSome_iff_ne_none.mp waiting
      · -- the key was just inserted
        have found : active.contents.lookup p.key = some p.value := by
          rw [contents, SortedMap.lookup_insert, if_pos rfl]
        have member := SortedMap.mem_entries.mpr found
        rw [empty] at member
        cases member
      · rw [moved]
        exact Option.some_ne_none _
    exact ⟨validFrozen, maxSize, iff_of_false taken fun h => absurd h.2 (Nat.not_le.mpr large),
      fun isFree => absurd isFree taken⟩
  case isFalse small =>
    exact ⟨valid₁, rfl, (and_iff_left (Nat.not_lt.mp small)).symm, fun _ => ⟨contents, rfl⟩⟩

/-- Several puts leave it free if the last estimate is below the threshold. -/
theorem Valid.putAll_free_iff (valid : Valid m) (puts : List Put) :
    ∃ m', m.putAll puts = .ok m' ∧ Valid m' ∧ m'.maxSize = m.maxSize ∧
      (puts ≠ [] → (m'.immutable = none ↔ m.immutable = none ∧
        estimate m.active.contents m.active.size puts ≤ m.maxSize)) ∧
      (m'.immutable = none → m.immutable = none ∧
        m'.active.contents = m.active.contents.insertAll (puts.map Put.binding)) := by
  induction puts generalizing m with
  | nil => exact ⟨m, rfl, valid, rfl, fun none => absurd rfl none, fun free => ⟨free, rfl⟩⟩
  | cons p rest inductionHypothesis =>
      obtain ⟨m₁, run₁, valid₁, maxSize₁, free₁, effect₁⟩ := valid.put_free_iff p
      obtain ⟨m', run, valid', maxSize, free, contents⟩ := inductionHypothesis valid₁
      refine ⟨m', ?_, valid', maxSize.trans maxSize₁, fun _ => ?_, fun isFree => ?_⟩
      · rw [putAll, run₁, Result.ok_bind, run]
      · show _ ↔ _ ∧ estimate (m.active.contents.insert p.key p.value) _ rest ≤ _
        have grows := le_estimate (m.active.contents.insert p.key p.value)
          (m.active.size + SkipList.growth m.active.contents p.level p.key p.value) rest
        cases rest with
        | nil =>
            cases run
            exact free₁
        | cons q rest =>
            rw [free (List.cons_ne_nil q rest), free₁, maxSize₁]
            constructor
            · rintro ⟨⟨isFree, within⟩, later⟩
              obtain ⟨contents₁, size₁⟩ := effect₁ (free₁.mpr ⟨isFree, within⟩)
              rw [contents₁, size₁] at later
              exact ⟨isFree, later⟩
            · rintro ⟨isFree, later⟩
              have within := Nat.le_trans grows later
              obtain ⟨contents₁, size₁⟩ := effect₁ (free₁.mpr ⟨isFree, within⟩)
              rw [contents₁, size₁]
              exact ⟨⟨isFree, within⟩, later⟩
      · obtain ⟨wasFree, contents'⟩ := contents isFree
        rw [contents', (effect₁ wasFree).1]
        exact ⟨(free₁.mp wasFree).1, rfl⟩

/-- The bytes of the active list are bounded if the estimate suffices. -/
theorem Valid.bounded_iff (valid : Valid m) (puts : List Put) :
    Bounded m puts ↔ EstimateSuffices m puts := by
  constructor
  · intro bounded free before some isPrefix within
    obtain ⟨m', entries, run, iterated, bound⟩ := bounded before some isPrefix
    obtain ⟨m'', run', valid', maxSize, isFree, contents⟩ := valid.putAll_free_iff before
    rw [run] at run'
    cases run'
    have stillFree := (isFree some).mpr ⟨free, within⟩
    rw [valid'.active.iter_eq, (contents stillFree).2] at iterated
    cases iterated
    exact maxSize ▸ bound stillFree
  · intro enough before some isPrefix
    obtain ⟨m', run, valid', maxSize, isFree, contents⟩ := valid.putAll_free_iff before
    refine ⟨m', _, run, valid'.active.iter_eq, fun stillFree => ?_⟩
    obtain ⟨free, within⟩ := (isFree some).mp stillFree
    rw [(contents stillFree).2, maxSize]
    exact enough free before some isPrefix within

/-! ## Values that do not grow -/

/-- No put makes a value longer than the put that brought its key in. -/
def NeverGrows (puts : List Put) : Prop :=
  ∀ p ∈ puts, ∀ first ∈ puts.find? (fun q => q.key = p.key), p.value.length ≤ first.value.length

/-- If a key is counted with the length that its values never exceed, the bytes stay below the
estimate. -/
theorem liveBytes_le_estimate (limit : Bytes → Nat) {held : SortedMap Bytes Bytes} {size : Nat}
    (puts : List Put) (bounded : ∀ b ∈ held.entries, b.2.length ≤ limit b.1)
    (counted : held.weight (fun b => b.1.length + limit b.1) ≤ size)
    (within : ∀ p ∈ puts, p.value.length ≤ limit p.key)
    (first : ∀ p, held.lookup p.key = none → puts.find? (fun q => q.key = p.key) = some p →
      limit p.key = p.value.length) :
    liveBytes held puts ≤ estimate held size puts := by
  induction puts generalizing held size with
  | nil =>
      refine Nat.le_trans (List.sum_le_sum fun b member => ?_) counted
      exact Nat.add_le_add_left (bounded b member) _
  | cons p rest inductionHypothesis =>
      refine inductionHypothesis (fun b member => ?_) ?_
        (fun q member => within q (List.mem_cons_of_mem _ member)) (fun q absent found => ?_)
      · rcases mem_insertList member with rfl | old
        · exact within p List.mem_cons_self
        · exact bounded b old
      · -- a key that is there is not counted again
        show (held.insert p.key p.value).weight _ ≤ _
        unfold SkipList.growth
        split
        · next present =>
            exact (SortedMap.weight_insert_present held (fun _ => rfl) present).trans_le counted
        · next absent =>
            have cost : p.key.length + limit p.key ≤ SkipList.nodeCost p.level p.key p.value := by
              rw [first p (by simpa using absent) (by simp), SkipList.nodeCost]
              omega
            have added := held.weight_insert_le p.key p.value
              (c := fun b => b.1.length + limit b.1)
            simp only at added
            omega
      · rw [SortedMap.lookup_insert] at absent
        split at absent
        · cases absent
        · next other =>
            have differs : p.key ≠ q.key := fun same => other same.symm
            refine first q absent ?_
            rw [List.find?_cons_of_neg (by simpa using differs)]
            exact found

/-- So the estimate of a new list suffices where no value grows. -/
theorem enough_of_neverGrows {puts : List Put} (never : NeverGrows puts) (maxSize : Nat) :
    EstimateSuffices (withMaxSize maxSize) puts := by
  intro free before nonempty isPrefix small
  have empty : (withMaxSize maxSize).active.contents = SortedMap.empty :=
    (valid_withMaxSize maxSize).2
  refine Nat.le_trans ?_ small
  rw [empty]
  let limit : Bytes → Nat := fun key =>
    ((puts.find? (fun q => q.key = key)).map (fun q => q.value.length)).getD 0
  refine liveBytes_le_estimate limit before nofun (Nat.zero_le _) (fun p member => ?_)
    (fun p _ found => ?_)
  · have inPuts := isPrefix.subset member
    obtain ⟨first, found⟩ : ∃ first, puts.find? (fun q => q.key = p.key) = some first :=
      Option.isSome_iff_exists.mp (List.find?_isSome.mpr ⟨p, inPuts, by simp⟩)
    simpa [limit, found] using never p inPuts first found
  · obtain ⟨rest, rfl⟩ := isPrefix
    simp [limit, List.find?_append, found]

/-- **Where no value grows** beyond the length that it came in with, the threshold bounds the
bytes. -/
theorem bounded_of_neverGrows {puts : List Put} (never : NeverGrows puts) (maxSize : Nat) :
    Bounded (withMaxSize maxSize) puts :=
  ((valid_withMaxSize maxSize).1.bounded_iff puts).mpr (enough_of_neverGrows never maxSize)

/-! ## The threshold -/

/-- **The threshold** bounds the bytes of the active list if and only if no puts leave the
estimate within the threshold and the bytes beyond it. -/
theorem active_bounded_iff (reachable : Reachable m) (puts : List Put) :
    Bounded m puts ↔ EstimateSuffices m puts :=
  reachable.valid.bounded_iff puts

/-- A value is overwritten by a shorter one. -/
theorem active_bounded_overwritten :
    Bounded (withMaxSize 320) [⟨0, [1], [7, 7]⟩, ⟨0, [2], [8]⟩, ⟨1, [1], [9]⟩] :=
  (active_bounded_iff (.new 320) _).mpr (enough_of_neverGrows (by unfold NeverGrows; decide) 320)

set_option maxRecDepth 2000 in
/-- A value grows in place. -/
theorem not_alwaysBounded : ¬∀ maxSize puts, Bounded (withMaxSize maxSize) puts := by
  intro all
  obtain ⟨m', entries, run, iterated, bound⟩ := all 160
    [⟨0, [1], []⟩, ⟨0, [1], List.replicate 160 0⟩] _ (List.cons_ne_nil _ _) (List.prefix_refl _)
  cases run
  cases iterated
  exact absurd (bound rfl) (by decide)

end MemTable

end KvEngine
