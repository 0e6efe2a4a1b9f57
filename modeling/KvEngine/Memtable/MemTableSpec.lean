import KvEngine.Foundations.Layers
import KvEngine.Memtable.MemTable
import KvEngine.Memtable.SkipListSpec

/-!
# The memtable as two layers

A memtable stands for one or two maps, the active one first.  Reads answer from
the first layer that knows the key; a write changes the active map and then may
freeze it.
-/

namespace KvEngine

open Foundations

namespace MemTable

/-- Both lists of the memtable are well formed, and only a list with entries was
frozen. -/
structure Valid (m : MemTable) : Prop where
  active : m.active.Valid
  levels : m.active.maxLevel = maxLevel
  immutable : ∀ imm, m.immutable = some imm → imm.Valid
  frozen : ∀ imm, m.immutable = some imm → imm.contents.entries ≠ []

/-- The maps of the memtable, newest first. -/
def layers (m : MemTable) : List (SortedMap Bytes Bytes) :=
  m.active.contents :: (m.immutable.map SkipList.contents).toList

/-- What the layers of the memtable say about a key, newest first. -/
def versionsOf (m : MemTable) (key : Bytes) : List Bytes :=
  versions (fun layer => SortedMap.lookup layer key) m.layers

/-- What the frozen list of the memtable says about a key. -/
def frozenVersionsOf (m : MemTable) (key : Bytes) : List Bytes :=
  versions (fun layer => SortedMap.lookup layer key) (m.immutable.map SkipList.contents).toList

theorem versionsOf_eq (m : MemTable) (key : Bytes) :
    m.versionsOf key = (m.active.contents.lookup key).toList ++ m.frozenVersionsOf key :=
  versions_cons _ _ _

/-- A memtable without entries. -/
theorem valid_withMaxSize (maxSize : Nat) :
    Valid (withMaxSize maxSize) ∧ (withMaxSize maxSize).active.contents = SortedMap.empty := by
  obtain ⟨valid, empty⟩ := SkipList.valid_new maxLevel (by decide)
  exact ⟨⟨valid, rfl, by simp [withMaxSize], by simp [withMaxSize]⟩, empty⟩

variable {m : MemTable}

theorem versionsOf_none (absent : m.immutable = none) (key : Bytes) :
    m.versionsOf key = (m.active.contents.lookup key).toList := by
  simp [versionsOf, layers, absent, versions_cons]

theorem versionsOf_some {imm : SkipList} (present : m.immutable = some imm) (key : Bytes) :
    m.versionsOf key =
      (m.active.contents.lookup key).toList ++ (imm.contents.lookup key).toList := by
  simp [versionsOf, layers, present, versions_cons]

/-- **Read.** The newest layer that knows the key answers. -/
theorem Valid.get_eq (valid : Valid m) (key : Bytes) : m.get key = .ok (m.versionsOf key).head? := by
  simp only [get, valid.active.get_eq, Result.ok_bind]
  cases taken : m.immutable with
  | none =>
      rw [versionsOf_none taken]
      cases m.active.contents.lookup key <;> rfl
  | some imm =>
      rw [versionsOf_some taken]
      cases m.active.contents.lookup key with
      | none =>
          simp only [(valid.immutable imm taken).get_eq]
          cases imm.contents.lookup key <;> rfl
      | some v => rfl

/-- **Range read.** The entries of the range, each key with its newest value. -/
theorem Valid.scan_eq (valid : Valid m) (start stop : Bytes) :
    ∃ map : SortedMap Bytes Bytes, m.scan start stop = .ok map.entries ∧
      ∀ key, map.lookup key =
        if start ≤ key ∧ key < stop then (m.versionsOf key).head? else none := by
  have part : ∀ (map : SortedMap Bytes Bytes) (key : Bytes),
      (map.filter (fun b => start ≤ b.1 ∧ b.1 < stop)).lookup key =
        if start ≤ key ∧ key < stop then map.lookup key else none := by
    intro map key
    rw [SortedMap.lookup_filter]
    cases map.lookup key with
    | none => simp
    | some v =>
        by_cases within : start ≤ key ∧ key < stop
        · simp [within]
        · rw [if_neg within, Option.filter_some, if_neg (by simpa using within)]
  have laid : ∀ (m₁ m₂ : SortedMap Bytes Bytes) (key : Bytes),
      (m₁.insertAll m₂.entries).lookup key = (m₂.lookup key).or (m₁.lookup key) :=
    fun _ _ _ => SortedMap.lookup_insertAll_entries
  simp only [scan]
  cases taken : m.immutable with
  | none =>
      simp only [Result.ok_bind, valid.active.scan_eq]
      refine ⟨_, rfl, fun key => ?_⟩
      rw [SortedMap.insertAll_nil, versionsOf_none taken]
      have entries := laid SortedMap.empty
        (m.active.contents.filter (fun b => start ≤ b.1 ∧ b.1 < stop)) key
      rw [part, SortedMap.lookup_empty, Option.or_none] at entries
      refine entries.trans ?_
      cases m.active.contents.lookup key <;> rfl
  | some imm =>
      simp only [(valid.immutable imm taken).scan_eq, Result.ok_bind, valid.active.scan_eq]
      refine ⟨_, rfl, fun key => ?_⟩
      rw [versionsOf_some taken]
      have older := laid SortedMap.empty
        (imm.contents.filter (fun b => start ≤ b.1 ∧ b.1 < stop)) key
      have newer := laid
        (SortedMap.empty.insertAll
          (imm.contents.filter (fun b => start ≤ b.1 ∧ b.1 < stop)).entries)
        (m.active.contents.filter (fun b => start ≤ b.1 ∧ b.1 < stop)) key
      rw [older, part, part, SortedMap.lookup_empty, Option.or_none] at newer
      refine newer.trans ?_
      split
      · cases m.active.contents.lookup key with
        | none => cases imm.contents.lookup key <;> rfl
        | some v => rfl
      · rfl

/-- Freezing moves the active list into a free immutable slot, unless it is empty. -/
theorem Valid.freeze_cases (valid : Valid m) :
    Valid m.freeze.1 ∧ m.freeze.1.maxSize = m.maxSize ∧
      (m.freeze.1 = m ∧ (m.immutable.isSome ∨ m.active.contents.entries = []) ∨
        (m.immutable = none ∧ m.active.contents.entries ≠ [] ∧
          m.freeze.1.immutable = some m.active ∧
          m.freeze.1.active.contents = SortedMap.empty)) := by
  obtain ⟨newValid, newEmpty⟩ := SkipList.valid_new maxLevel (by decide)
  unfold freeze
  split
  · next taken => exact ⟨valid, rfl, Or.inl ⟨rfl, Or.inl taken⟩⟩
  · next free =>
      split
      · next small =>
          exact ⟨valid, rfl, Or.inl ⟨rfl, Or.inr (valid.active.size_le_iff.mp small)⟩⟩
      · next large =>
          have free : m.immutable = none := by simpa using free
          have nonempty : m.active.contents.entries ≠ [] := fun empty =>
            large (valid.active.size_le_iff.mpr empty)
          refine ⟨⟨newValid, rfl, ?_, ?_⟩, rfl, Or.inr ⟨free, nonempty, rfl, newEmpty⟩⟩
          · rintro imm ⟨⟩
            exact valid.active
          · rintro imm ⟨⟩
            exact nonempty

theorem Valid.putNoFreeze_ok (valid : Valid m) (trailing : Nat) (key value : Bytes) :
    ∃ m', m.putNoFreeze trailing key value = .ok m' ∧ Valid m' ∧
      m'.active.contents = m.active.contents.insert key value ∧
      m'.immutable = m.immutable ∧ m'.maxSize = m.maxSize := by
  have levels : m.active.randomLevel trailing < m.active.maxLevel := by
    rw [SkipList.randomLevel, valid.levels]
    unfold maxLevel
    omega
  obtain ⟨active, run, validActive, contents, maxLevel, -⟩ :=
    valid.active.insert_ok levels key value
  refine ⟨{ m with active }, ?_, ⟨validActive, maxLevel.trans valid.levels, valid.immutable,
    valid.frozen⟩, contents, rfl, rfl⟩
  simp only [putNoFreeze, run, Result.ok_bind]

/-- **Write.** The key is bound in the active map, which may then be frozen. -/
theorem Valid.put_ok (valid : Valid m) (trailing : Nat) (key value : Bytes) :
    ∃ m', m.put trailing key value = .ok m' ∧ Valid m' ∧ m'.maxSize = m.maxSize ∧
      ((m'.active.contents = m.active.contents.insert key value ∧ m'.immutable = m.immutable) ∨
        (m.immutable = none ∧ m'.active.contents = SortedMap.empty ∧
          ∃ imm, m'.immutable = some imm ∧
            imm.contents = m.active.contents.insert key value)) := by
  obtain ⟨m₁, run, valid₁, contents, immutable, maxSize⟩ := valid.putNoFreeze_ok trailing key value
  obtain ⟨validFrozen, maxSizeFrozen, frozen⟩ := valid₁.freeze_cases
  simp only [put, run, Result.ok_bind]
  split
  · refine ⟨_, rfl, validFrozen, maxSizeFrozen.trans maxSize, ?_⟩
    rcases frozen with ⟨same, -⟩ | ⟨free, -, moved, empty⟩
    · rw [same]
      exact Or.inl ⟨contents, immutable⟩
    · exact Or.inr ⟨immutable ▸ free, empty, _, moved, contents⟩
  · exact ⟨_, rfl, valid₁, maxSize, Or.inl ⟨contents, immutable⟩⟩

/-- A write puts its value in front of what the frozen list says about the key. -/
theorem Valid.versionsOf_put (valid : Valid m) {m' : MemTable} {trailing : Nat} {key value : Bytes}
    (run : m.put trailing key value = .ok m') (k : Bytes) :
    m'.versionsOf k = if k = key then value :: m.frozenVersionsOf key else m.versionsOf k := by
  obtain ⟨m₁, run₁, -, -, effect⟩ := valid.put_ok trailing key value
  rw [run] at run₁
  cases run₁
  rw [versionsOf_eq, versionsOf_eq m]
  rcases effect with ⟨active, immutable⟩ | ⟨free, active, imm, moved, contents⟩
  · rw [active, SortedMap.lookup_insert, frozenVersionsOf, immutable, ← frozenVersionsOf]
    split
    · next same => rw [same]; rfl
    · rfl
  · have before : ∀ k, m.frozenVersionsOf k = [] := fun k => by simp [frozenVersionsOf, free]
    rw [active, frozenVersionsOf, moved, before, before]
    simp only [SortedMap.lookup_empty, Option.toList_none, List.nil_append, Option.map_some,
      Option.toList_some, versions_cons, versions_nil, List.append_nil, contents,
      SortedMap.lookup_insert]
    split <;> rfl

/-- Taking the frozen list out leaves what the active list says. -/
theorem Valid.takeImmutable (valid : Valid m) : Valid m.takeImmutable.2 :=
  ⟨valid.active, valid.levels, by simp [MemTable.takeImmutable], by simp [MemTable.takeImmutable]⟩

/-! ## Several writes -/

/-- Writing the bindings one after the other leads from the first memtable to the second. -/
inductive Puts : MemTable → List (Bytes × Bytes) → MemTable → Prop
  | nil (m : MemTable) : Puts m [] m
  | cons {m m₁ m' : MemTable} {trailing : Nat} {key value : Bytes} {rest : List (Bytes × Bytes)}
      (first : m.put trailing key value = .ok m₁) (later : Puts m₁ rest m') :
      Puts m ((key, value) :: rest) m'

namespace Puts

variable {m' : MemTable} {bindings : List (Bytes × Bytes)}

theorem valid (puts : Puts m bindings m') (valid : Valid m) :
    Valid m' ∧ m'.maxSize = m.maxSize := by
  induction puts with
  | nil => exact ⟨valid, rfl⟩
  | cons first _ inductionHypothesis =>
      obtain ⟨m₁, run, valid₁, maxSize, -⟩ := valid.put_ok _ _ _
      rw [first] at run
      cases run
      obtain ⟨validLater, maxSizeLater⟩ := inductionHypothesis valid₁
      exact ⟨validLater, maxSizeLater.trans maxSize⟩

/-- A key that is not written keeps its versions. -/
theorem versionsOf_of_notMem (puts : Puts m bindings m') (valid : Valid m) {key : Bytes}
    (other : ∀ b ∈ bindings, b.1 ≠ key) : m'.versionsOf key = m.versionsOf key := by
  induction puts with
  | nil => rfl
  | cons first _ inductionHypothesis =>
      obtain ⟨m₁, run, valid₁, -⟩ := valid.put_ok _ _ _
      rw [first] at run
      cases run
      rw [inductionHypothesis valid₁ fun b hb => other b (List.mem_cons_of_mem _ hb),
        valid.versionsOf_put first, if_neg (Ne.symm (other _ List.mem_cons_self))]

/-- Writing does not empty the frozen slot. -/
theorem free_of_free (puts : Puts m bindings m') (valid : Valid m) (free : m'.immutable = none) :
    m.immutable = none := by
  induction puts with
  | nil => exact free
  | cons first _ inductionHypothesis =>
      obtain ⟨m₁, run, valid₁, -, effect⟩ := valid.put_ok _ _ _
      rw [first] at run
      cases run
      have later := inductionHypothesis valid₁ free
      rcases effect with ⟨-, immutable⟩ | ⟨wasFree, -⟩
      · rwa [immutable] at later
      · exact wasFree

/-- As long as nothing is frozen, the active list takes up every binding. -/
theorem contents_of_free (puts : Puts m bindings m') (valid : Valid m)
    (free : m'.immutable = none) :
    m'.active.contents = m.active.contents.insertAll bindings := by
  induction puts with
  | nil => rfl
  | @cons m m₁ m' trailing key value rest first later inductionHypothesis =>
      obtain ⟨m₂, run, valid₁, -, effect⟩ := valid.put_ok trailing key value
      rw [first] at run
      cases run
      rw [inductionHypothesis valid₁ free, SortedMap.insertAll_cons]
      rcases effect with ⟨active, -⟩ | ⟨-, -, imm, moved, -⟩
      · rw [active]
      · have stillFree := later.free_of_free valid₁ free
        rw [moved] at stillFree
        cases stillFree

/-- The layers only hold what was there or was written. -/
theorem mem_layers (puts : Puts m bindings m') (valid : Valid m) {P : Bytes × Bytes → Prop}
    (old : ∀ map ∈ m.layers, ∀ b ∈ map.entries, P b) (new : ∀ b ∈ bindings, P b) :
    ∀ map ∈ m'.layers, ∀ b ∈ map.entries, P b := by
  induction puts with
  | nil => exact old
  | @cons m m₁ m' trailing key value rest first _ inductionHypothesis =>
      obtain ⟨m₂, run, valid₁, -, effect⟩ := valid.put_ok trailing key value
      rw [first] at run
      cases run
      refine inductionHypothesis valid₁ (fun map hm b hb => ?_)
        (fun b hb => new b (List.mem_cons_of_mem _ hb))
      have inserted : ∀ b ∈ (m.active.contents.insert key value).entries, P b := fun b hb => by
        rcases mem_insertList hb with rfl | before
        · exact new _ List.mem_cons_self
        · exact old _ List.mem_cons_self b before
      unfold layers at old hm
      rcases effect with ⟨active, immutable⟩ | ⟨free, active, imm, moved, contents⟩
      · rw [active, immutable] at hm
        rcases List.mem_cons.mp hm with rfl | frozen
        · exact inserted b hb
        · exact old map (List.mem_cons_of_mem _ frozen) b hb
      · rw [active, moved] at hm
        rcases List.mem_cons.mp hm with rfl | frozen
        · cases hb
        · obtain rfl : map = imm.contents := by simpa using frozen
          exact inserted b (contents ▸ hb)

end Puts

end MemTable

end KvEngine
