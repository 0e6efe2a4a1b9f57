import KvEngine.Memtable.MemTableSpec

/-!
# The memtable is a map

A skip list behaves as a sorted map whatever tower heights are drawn, and a
memtable behaves as one map whatever is frozen in between.
-/

namespace KvEngine

open Foundations

/-- The value of the last binding of a key. -/
def lastValue (bindings : List (Bytes × Bytes)) (key : Bytes) : Option Bytes :=
  lookupList key bindings.reverse

/-- The bindings as a sorted map. -/
def mapOf (bindings : List (Bytes × Bytes)) : SortedMap Bytes Bytes :=
  SortedMap.empty.insertAll bindings

theorem lookup_mapOf (bindings : List (Bytes × Bytes)) (key : Bytes) :
    (mapOf bindings).lookup key = lastValue bindings key := by
  rw [mapOf, SortedMap.lookup_insertAll, SortedMap.lookup_empty, Option.or_none, lastValue]

theorem mem_mapOf {bindings : List (Bytes × Bytes)} {key value : Bytes} :
    (key, value) ∈ (mapOf bindings).entries ↔ lastValue bindings key = some value := by
  rw [SortedMap.mem_entries, lookup_mapOf]

namespace SkipList

/-- A call of `insert`, together with the level that `random_level` returns in it. -/
structure Insertion where
  level : Nat
  key : Bytes
  value : Bytes
  deriving Repr

/-- The binding that a call of `insert` makes. -/
def Insertion.binding (i : Insertion) : Bytes × Bytes := (i.key, i.value)

/-- Call `insert` for one insertion after the other. -/
def insertAll (s : SkipList) : List Insertion → Result SkipList
  | [] => .ok s
  | i :: rest => do
      let s ← s.insert i.level i.key i.value
      insertAll s rest

/-- The insertions keep the list well formed and are made in its map. -/
theorem Valid.insertAll_ok {s : SkipList} (valid : Valid s) (inserts : List Insertion)
    (levels : ∀ i ∈ inserts, i.level < s.maxLevel) :
    ∃ s', s.insertAll inserts = .ok s' ∧ Valid s' ∧ s'.maxLevel = s.maxLevel ∧
      s'.contents = s.contents.insertAll (inserts.map Insertion.binding) := by
  induction inserts generalizing s with
  | nil => exact ⟨s, rfl, valid, rfl, rfl⟩
  | cons i rest inductionHypothesis =>
      obtain ⟨s₁, run, valid₁, contents₁, maxLevel₁, -⟩ :=
        valid.insert_ok (levels i List.mem_cons_self) i.key i.value
      obtain ⟨s', runRest, valid', maxLevel', contents'⟩ :=
        inductionHypothesis valid₁ fun j hj => maxLevel₁ ▸ levels j (List.mem_cons_of_mem i hj)
      refine ⟨s', ?_, valid', maxLevel'.trans maxLevel₁, ?_⟩
      · rw [insertAll, run, Result.ok_bind, runRest]
      · rw [contents', contents₁, List.map_cons, SortedMap.insertAll_cons, Insertion.binding]

/-- The lanes of the list, from the bottom one upwards: each is linked from the
head, strictly ascending, and a sublist of the lane below it. -/
structure Lanes (s : SkipList) (lane : Nat → List Nat) : Prop where
  linked : ∀ level, level < s.maxLevel → Lane (s.pointer level) head (lane level)
  ascending : ∀ level, (lane level).Pairwise (fun p q => s.keyOf p < s.keyOf q)
  nested : ∀ level, (lane (level + 1)).Sublist (lane level)

theorem Valid.lanes {s : SkipList} (valid : Valid s) : ∃ lane, Lanes s lane := by
  obtain ⟨order, shape⟩ := valid
  refine ⟨fun level => order.filter (fun p => level < s.height p), shape.linked, ?_, ?_⟩
  · exact fun level => shape.ascending.sublist List.filter_sublist
  · intro level
    -- A tower that reaches lane `level + 1` reaches lane `level` as well.
    have higher : order.filter (fun p => level + 1 < s.height p) =
        (order.filter (fun p => level < s.height p)).filter (fun p => level + 1 < s.height p) := by
      rw [List.filter_filter]
      refine List.filter_congr fun p _ => ?_
      simp only [← Bool.decide_and, decide_eq_decide]
      omega
    simp only [higher]
    exact List.filter_sublist

/-- **The skip list is a sorted map for every choice of tower heights.**  No call
panics.  What the calls return depends on the keys and values inserted, and not
on the levels. -/
theorem skipList_sorted_map {maxLevel : Nat} (positive : 0 < maxLevel) (inserts : List Insertion)
    (levels : ∀ i ∈ inserts, i.level < maxLevel) :
    ∃ s, (new maxLevel).insertAll inserts = .ok s ∧
      (∃ lane, Lanes s lane) ∧
      (∀ key, s.get key = .ok (lastValue (inserts.map Insertion.binding) key)) ∧
      s.iter = .ok (mapOf (inserts.map Insertion.binding)).entries ∧
      AscendingKeys (mapOf (inserts.map Insertion.binding)).entries ∧
      (∀ key value, (key, value) ∈ (mapOf (inserts.map Insertion.binding)).entries ↔
        lastValue (inserts.map Insertion.binding) key = some value) ∧
      ∀ start stop, s.scan start stop =
        .ok ((mapOf (inserts.map Insertion.binding)).entries.filter
          (fun b => start ≤ b.1 ∧ b.1 < stop)) := by
  obtain ⟨validNew, empty⟩ := valid_new maxLevel positive
  obtain ⟨s, run, valid, -, contents⟩ := validNew.insertAll_ok inserts levels
  rw [empty, ← mapOf] at contents
  refine ⟨s, run, valid.lanes, fun key => ?_, ?_, ?_, fun key value => mem_mapOf, ?_⟩
  · rw [valid.get_eq, contents, lookup_mapOf]
  · rw [valid.iter_eq, contents]
  · exact (mapOf (inserts.map Insertion.binding)).ascending
  · intro start stop
    rw [valid.scan_eq, contents]

/-- Two keys in descending order, the first one inserted twice. -/
theorem skipList_sorted_map_three :
    ∃ s, (new 2).insertAll [⟨1, [2], [7]⟩, ⟨0, [1], [8]⟩, ⟨0, [2], [9]⟩] = .ok s ∧
      s.get [2] = .ok (some [9]) := by
  have positive : 0 < 2 := by decide
  obtain ⟨s, run, -, get, -⟩ := skipList_sorted_map positive
    [⟨1, [2], [7]⟩, ⟨0, [1], [8]⟩, ⟨0, [2], [9]⟩] (by decide)
  exact ⟨s, run, get [2]⟩

end SkipList

namespace MemTable

/-! ## Writes and freezes -/

/-- A call on a memtable that writes or freezes, with the trailing zeros that its
list draws. -/
inductive Call
  | put (trailing : Nat) (key value : Bytes)
  | putNoFreeze (trailing : Nat) (key value : Bytes)
  | freeze
  deriving Repr

/-- Make one call. -/
def Call.run (m : MemTable) : Call → Result MemTable
  | .put trailing key value => m.put trailing key value
  | .putNoFreeze trailing key value => m.putNoFreeze trailing key value
  | .freeze => .ok m.freeze.1

/-- The bindings that a call makes. -/
def Call.bindings : Call → List (Bytes × Bytes)
  | .put _ key value => [(key, value)]
  | .putNoFreeze _ key value => [(key, value)]
  | .freeze => []

/-- Make one call after the other. -/
def runAll (m : MemTable) : List Call → Result MemTable
  | [] => .ok m
  | c :: rest => do
      let m ← c.run m
      runAll m rest

/-- The map the two lists stand for, the active one over the frozen one. -/
def contents (m : MemTable) : SortedMap Bytes Bytes :=
  (m.immutable.elim SortedMap.empty SkipList.contents).insertAll m.active.contents.entries

theorem lookup_contents (m : MemTable) (key : Bytes) :
    m.contents.lookup key = (m.versionsOf key).head? := by
  have newer : ∀ older : Option Bytes, (m.active.contents.lookup key).or older =
      ((m.active.contents.lookup key).toList ++ older.toList).head? := by
    intro older
    cases m.active.contents.lookup key <;> cases older <;> rfl
  rw [contents, SortedMap.lookup_insertAll_entries, newer]
  cases taken : m.immutable with
  | none => rw [versionsOf_none taken]; simp
  | some imm => rw [versionsOf_some taken]; rfl

variable {m : MemTable}

/-- A freeze moves the entries without changing the map. -/
theorem Valid.contents_freeze (valid : Valid m) : m.freeze.1.contents = m.contents := by
  obtain ⟨-, -, ⟨same, -⟩ | ⟨free, -, moved, empty⟩⟩ := valid.freeze_cases
  · rw [same]
  · refine SortedMap.ext fun key => ?_
    simp [contents, moved, empty, free, SortedMap.insertAll_entries_self]

/-- A write binds the key in the map. -/
theorem Valid.contents_putNoFreeze (valid : Valid m) {m' : MemTable} {trailing : Nat}
    {key value : Bytes} (run : m.putNoFreeze trailing key value = .ok m') :
    Valid m' ∧ m'.contents = m.contents.insert key value := by
  obtain ⟨m₁, run₁, valid₁, active, immutable, -⟩ := valid.putNoFreeze_ok trailing key value
  rw [run] at run₁
  cases run₁
  refine ⟨valid₁, SortedMap.ext fun k => ?_⟩
  rw [contents, active, immutable, SortedMap.lookup_insertAll_entries, SortedMap.lookup_insert,
    SortedMap.lookup_insert, contents, SortedMap.lookup_insertAll_entries]
  split <;> rfl

/-- Every call returns and makes its bindings in the map. -/
theorem Valid.run_ok (valid : Valid m) (c : Call) :
    ∃ m', c.run m = .ok m' ∧ Valid m' ∧ m'.contents = m.contents.insertAll c.bindings := by
  cases c with
  | put trailing key value =>
      obtain ⟨m₁, run, -⟩ := valid.putNoFreeze_ok trailing key value
      obtain ⟨valid₁, contents₁⟩ := valid.contents_putNoFreeze run
      refine ⟨_, by rw [Call.run, put, run, Result.ok_bind], ?_⟩
      split
      · exact ⟨valid₁.freeze_cases.1, valid₁.contents_freeze.trans contents₁⟩
      · exact ⟨valid₁, contents₁⟩
  | putNoFreeze trailing key value =>
      obtain ⟨m₁, run, -⟩ := valid.putNoFreeze_ok trailing key value
      exact ⟨m₁, run, valid.contents_putNoFreeze run⟩
  | freeze => exact ⟨_, rfl, valid.freeze_cases.1, valid.contents_freeze⟩

/-- So does every sequence of calls. -/
theorem Valid.runAll_ok (valid : Valid m) (calls : List Call) :
    ∃ m', m.runAll calls = .ok m' ∧ Valid m' ∧
      m'.contents = m.contents.insertAll (calls.flatMap Call.bindings) := by
  induction calls generalizing m with
  | nil => exact ⟨m, rfl, valid, rfl⟩
  | cons c rest inductionHypothesis =>
      obtain ⟨m₁, run, valid₁, contents₁⟩ := valid.run_ok c
      obtain ⟨m', runRest, valid', contents'⟩ := inductionHypothesis valid₁
      refine ⟨m', by rw [runAll, run, Result.ok_bind, runRest], valid', ?_⟩
      rw [contents', contents₁, List.flatMap_cons, SortedMap.insertAll_append]

/-- **The memtable is one map through all freezes.**  Reads see the last value of
each key, and once the frozen list is taken out it still represents the same map
together with the active list, which takes precedence. -/
theorem memTable_refines_map (maxSize : Nat) (calls : List Call) :
    ∃ m, (withMaxSize maxSize).runAll calls = .ok m ∧
      (∀ key, m.get key = .ok (lastValue (calls.flatMap Call.bindings) key)) ∧
      (∀ start stop, ∃ entries, m.scan start stop = .ok entries ∧ AscendingKeys entries ∧
        ∀ key value, (key, value) ∈ entries ↔ start ≤ key ∧ key < stop ∧
          lastValue (calls.flatMap Call.bindings) key = some value) ∧
      ∃ older newer, (m.takeImmutable.1.elim (.ok []) SkipList.iter) = .ok older ∧
        m.takeImmutable.2.active.iter = .ok newer ∧ m.takeImmutable.2.immutable = none ∧
        ∀ key, (lookupList key newer).or (lookupList key older) =
          lastValue (calls.flatMap Call.bindings) key := by
  obtain ⟨validNew, empty⟩ := valid_withMaxSize maxSize
  obtain ⟨m, run, valid, contents⟩ := validNew.runAll_ok calls
  have start : (withMaxSize maxSize).contents = SortedMap.empty := by
    rw [MemTable.contents, empty]
    rfl
  rw [start, ← mapOf] at contents
  have last : ∀ key, (m.versionsOf key).head? = lastValue (calls.flatMap Call.bindings) key := by
    intro key
    rw [← lookup_contents, contents, lookup_mapOf]
  refine ⟨m, run, fun key => by rw [valid.get_eq, last], fun start stop => ?_, ?_⟩
  · obtain ⟨map, scanned, lookup⟩ := valid.scan_eq start stop
    refine ⟨map.entries, scanned, map.ascending, fun key value => ?_⟩
    rw [SortedMap.mem_entries, lookup, last]
    split
    · next within => simp [within]
    · next outside =>
        constructor
        · intro impossible
          cases impossible
        · exact fun h => (outside ⟨h.1, h.2.1⟩).elim
  · refine ⟨(m.immutable.elim SortedMap.empty SkipList.contents).entries,
      m.active.contents.entries, ?_, valid.active.iter_eq, rfl, fun key => ?_⟩
    · cases taken : m.immutable with
      | none => simp [takeImmutable, taken]
      | some imm => simp [takeImmutable, taken, (valid.immutable imm taken).iter_eq]
    · rw [← lookup_mapOf, ← contents, MemTable.contents, SortedMap.lookup_insertAll_entries]
      rfl

end MemTable

end KvEngine
