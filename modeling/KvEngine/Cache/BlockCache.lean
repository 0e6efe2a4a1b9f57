import Mathlib.Data.List.AList
import KvEngine.Sstable.Block

/-!
# LRU block cache

Caches decoded SSTable data blocks by `(sst_id, block_idx)`, evicting the least
recently used block when a new one does not fit the byte capacity.
-/

namespace KvEngine

open Foundations

/-- Cache key: (sst_id, block_index). -/
structure CacheKey where
  sstId : Nat
  blockIdx : Nat
  deriving DecidableEq, Repr

/-- A simple LRU block cache with a byte-size capacity. -/
structure BlockCache where
  /-- key → (block, block_size) -/
  map : AList (fun _ : CacheKey => Block × Nat)
  /-- LRU order: front = most recent. -/
  order : List CacheKey
  capacity : Nat
  currentSize : Nat

namespace BlockCache

/-- Create a new cache with the given byte capacity. -/
def new (capacity : Nat) : BlockCache where
  map := ∅
  order := []
  capacity
  currentSize := 0

/-- Look up a block; a hit moves it to the front of the LRU list. -/
def get (c : BlockCache) (key : CacheKey) : Option Block × BlockCache :=
  match c.map.lookup key with
  | some (block, _) => (some block, { c with order := key :: c.order.filter (· ≠ key) })
  | none => (none, c)

/-- `self.current_size -= size` -/
def subSize (c : BlockCache) (size : Nat) : Result BlockCache :=
  if size ≤ c.currentSize then .ok { c with currentSize := c.currentSize - size }
  else .error .panic

/-- Remove the old entry of `key`, if there is one. -/
def removeOld (c : BlockCache) (key : CacheKey) : Result BlockCache :=
  match c.map.lookup key with
  | some (_, oldSize) => do
      let c ← subSize { c with map := c.map.erase key } oldSize
      .ok { c with order := c.order.filter (· ≠ key) }
  | none => .ok c

/-- Evict from the back of the LRU list until `blockSize` fits or the list is
empty.  The fuel only has to be the length of the list. -/
def evict (blockSize : Nat) : Nat → BlockCache → Result BlockCache
  | 0, c => .ok c
  | fuel + 1, c =>
      if c.currentSize + blockSize > c.capacity ∧ c.order ≠ [] then
        match c.order.getLast? with
        | none => .ok c
        | some key => do
            let c' := { c with order := c.order.dropLast }
            let c' ←
              match c.map.lookup key with
              | some (_, size) => subSize { c' with map := c'.map.erase key } size
              | none => .ok c'
            evict blockSize fuel c'
      else .ok c

/-- Insert a block into the cache, evicting LRU entries if over capacity. -/
def put (c : BlockCache) (key : CacheKey) (block : Block) : Result BlockCache := do
  let blockSize := block.estimatedSize
  let c ← c.removeOld key
  let c ← evict blockSize c.order.length c
  .ok { c with
    currentSize := c.currentSize + blockSize
    map := c.map.insert key (block, blockSize)
    order := key :: c.order }

/-- Current memory usage in bytes. -/
def size (c : BlockCache) : Nat := c.currentSize

/-! ## Accounting

The size counter is the sum of the recorded sizes, so taking a block out never
underflows, and what the cache holds only comes from `put`. -/

/-- The sum of the recorded block sizes. -/
def totalOf (map : AList (fun _ : CacheKey => Block × Nat)) : Nat :=
  (map.entries.map (fun e => e.2.2)).sum

/-- The size counter is exact. -/
def Sound (c : BlockCache) : Prop := c.currentSize = totalOf c.map

theorem sound_new (capacity : Nat) : Sound (new capacity) := rfl

/-- Every block of `c'` is already in `c`. -/
def Within (c' c : BlockCache) : Prop :=
  ∀ key held, c'.map.lookup key = some held → c.map.lookup key = some held

theorem totalOf_erase {map : AList (fun _ : CacheKey => Block × Nat)} {key : CacheKey}
    {held : Block × Nat} (present : map.lookup key = some held) :
    totalOf map = held.2 + totalOf (map.erase key) := by
  have member : key ∈ map.entries.keys :=
    AList.mem_keys.mp (AList.lookup_isSome.mp (by rw [present]; rfl))
  obtain ⟨held', before, after, absent, split, erased⟩ := List.exists_of_kerase member
  have same : held' = held := by
    have found : (⟨key, held'⟩ : Sigma fun _ : CacheKey => Block × Nat) ∈ map.entries := by
      rw [split]
      simp
    have lookup := AList.mem_lookup_iff.mpr found
    rw [present] at lookup
    exact (Option.some.inj lookup).symm
  subst same
  have kept : (map.erase key).entries = before ++ after := erased
  unfold totalOf
  rw [kept, split]
  simp only [List.map_append, List.map_cons, List.sum_append, List.sum_cons]
  omega

theorem totalOf_insert {map : AList (fun _ : CacheKey => Block × Nat)} {key : CacheKey}
    (held : Block × Nat) (absent : map.lookup key = none) :
    totalOf (map.insert key held) = held.2 + totalOf map := by
  unfold totalOf
  rw [AList.entries_insert_of_notMem (AList.lookup_eq_none.mp absent)]
  simp

theorem within_erase {c c' : BlockCache} {key : CacheKey} (erased : c'.map = c.map.erase key) :
    Within c' c := by
  intro key' held found
  rw [erased] at found
  by_cases same : key' = key
  · subst same
    rw [AList.lookup_erase] at found
    cases found
  · rwa [AList.lookup_erase_ne same] at found

/-- Taking a block out adjusts the counter. -/
theorem subSize_ok {c : BlockCache} (sound : Sound c) {key : CacheKey} {held : Block × Nat}
    (present : c.map.lookup key = some held) (order : List CacheKey) :
    ∃ c', subSize { c with map := c.map.erase key, order } held.2 = .ok c' ∧ Sound c' ∧
      c'.map = c.map.erase key ∧ c'.order = order := by
  have total := totalOf_erase present
  have sound : c.currentSize = totalOf c.map := sound
  refine ⟨{ c with map := c.map.erase key, order, currentSize := c.currentSize - held.2 }, ?_, ?_,
    rfl, rfl⟩
  · exact if_pos (by change held.2 ≤ c.currentSize; omega)
  · change c.currentSize - held.2 = totalOf (c.map.erase key)
    omega

theorem removeOld_ok {c : BlockCache} (sound : Sound c) (key : CacheKey) :
    ∃ c', c.removeOld key = .ok c' ∧ Sound c' ∧ Within c' c ∧ c'.map.lookup key = none := by
  unfold removeOld
  cases present : c.map.lookup key with
  | none => exact ⟨c, rfl, sound, fun _ _ found => found, present⟩
  | some held =>
      obtain ⟨c', run, sound', map, -⟩ := subSize_ok sound present c.order
      refine ⟨{ c' with order := c'.order.filter (· ≠ key) }, ?_, sound', ?_, ?_⟩
      · exact congrArg (· >>= _) run
      · exact within_erase map
      · change c'.map.lookup key = none
        rw [map, AList.lookup_erase]

theorem evict_ok (blockSize fuel : Nat) {c : BlockCache} (sound : Sound c) :
    ∃ c', evict blockSize fuel c = .ok c' ∧ Sound c' ∧ Within c' c := by
  induction fuel generalizing c with
  | zero => exact ⟨c, rfl, sound, fun _ _ found => found⟩
  | succ fuel inductionHypothesis =>
      unfold evict
      split
      · cases last : c.order.getLast? with
        | none => exact ⟨c, rfl, sound, fun _ _ found => found⟩
        | some key =>
            cases present : c.map.lookup key with
            | none =>
                obtain ⟨c', run, sound', within⟩ :=
                  inductionHypothesis (c := { c with order := c.order.dropLast }) sound
                refine ⟨c', ?_, sound', within⟩
                simp only [present, Result.ok_bind]
                exact run
            | some held =>
                obtain ⟨c₁, run₁, sound₁, map₁, -⟩ := subSize_ok sound present c.order.dropLast
                obtain ⟨c', run, sound', within⟩ := inductionHypothesis sound₁
                refine ⟨c', ?_, sound', fun key' held' found => ?_⟩
                · simp only [present]
                  exact (congrArg (· >>= evict blockSize fuel) run₁).trans run
                · exact within_erase map₁ key' held' (within key' held' found)
      · exact ⟨c, rfl, sound, fun _ _ found => found⟩

/-- **Insertion** never fails; afterwards the cache holds the new block and
otherwise only blocks it held before. -/
theorem put_ok {c : BlockCache} (sound : Sound c) (key : CacheKey) (block : Block) :
    ∃ c', c.put key block = .ok c' ∧ Sound c' ∧
      ∀ key' held, c'.map.lookup key' = some held →
        (key' = key ∧ held.1 = block) ∨ c.map.lookup key' = some held := by
  obtain ⟨c₁, run₁, sound₁, within₁, absent₁⟩ := removeOld_ok sound key
  obtain ⟨c₂, run₂, sound₂, within₂⟩ :=
    evict_ok block.estimatedSize c₁.order.length sound₁
  have absent₂ : c₂.map.lookup key = none := by
    cases found : c₂.map.lookup key with
    | none => rfl
    | some held =>
        rw [within₂ key held found] at absent₁
        cases absent₁
  refine ⟨_, by simp only [put, run₁, Result.ok_bind, run₂]; rfl, ?_, fun key' held found => ?_⟩
  · change c₂.currentSize + block.estimatedSize = totalOf (c₂.map.insert key _)
    have sound₂ : c₂.currentSize = totalOf c₂.map := sound₂
    rw [totalOf_insert _ absent₂]
    omega
  · change (c₂.map.insert key _).lookup key' = some held at found
    by_cases same : key' = key
    · subst same
      rw [AList.lookup_insert] at found
      cases found
      exact Or.inl ⟨rfl, rfl⟩
    · rw [AList.lookup_insert_ne same] at found
      exact Or.inr (within₁ key' held (within₂ key' held found))

end BlockCache

end KvEngine
