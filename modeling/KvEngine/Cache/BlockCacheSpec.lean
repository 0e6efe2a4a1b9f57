import KvEngine.Cache.BlockCache
import KvEngine.Foundations.LruList

/-!
# The block cache is an LRU list

The map, the queue and the byte counter of a block cache are three views of one list of
blocks, and `get` and `put` act on that list as an LRU cache does.
-/

namespace KvEngine

open Foundations

namespace BlockCache

/-- The map, the queue and the counter describe the list `l`, most recent block first. -/
structure Models (c : BlockCache) (l : List (CacheKey × Block)) : Prop where
  order : c.order = LruList.keys l
  distinct : (LruList.keys l).Nodup
  map : ∀ key held, c.map.lookup key = some held ↔
    (key, held.1) ∈ l ∧ held.2 = held.1.estimatedSize
  size : c.currentSize = LruList.total Block.estimatedSize l

variable {c : BlockCache} {l l' : List (CacheKey × Block)} {key : CacheKey} {block : Block}

theorem models_new (capacity : Nat) : Models (new capacity) [] where
  order := rfl
  distinct := List.nodup_nil
  map := fun key held => by simp [new]
  size := rfl

theorem Models.lookup_of_mem (models : Models c l) (member : (key, block) ∈ l) :
    c.map.lookup key = some (block, block.estimatedSize) :=
  (models.map key (block, block.estimatedSize)).mpr ⟨member, rfl⟩

theorem Models.lookup_of_notMem (models : Models c l) (absent : key ∉ LruList.keys l) :
    c.map.lookup key = none := by
  cases found : c.map.lookup key with
  | none => rfl
  | some held => exact absurd (LruList.mem_keys.mpr ⟨_, ((models.map key held).mp found).1⟩) absent

/-- The queue and the map hold the same keys. -/
theorem Models.mem_order (models : Models c l) : key ∈ c.order ↔ key ∈ c.map := by
  rw [models.order, ← AList.lookup_isSome]
  constructor
  · intro member
    obtain ⟨block, inside⟩ := LruList.mem_keys.mp member
    rw [models.lookup_of_mem inside]
    rfl
  · intro present
    by_contra absent
    rw [models.lookup_of_notMem absent] at present
    cases present

/-- The map holds the listed blocks. -/
theorem Models.mem_entries (models : Models c l) (e : CacheKey × Block) :
    e ∈ c.map.entries.map (fun e => (e.1, e.2.1)) ↔ e ∈ l := by
  rw [List.mem_map]
  constructor
  · rintro ⟨⟨key, held⟩, member, rfl⟩
    exact ((models.map key held).mp (AList.mem_lookup_iff.mpr member)).1
  · intro member
    exact ⟨⟨e.1, (e.2, e.2.estimatedSize)⟩,
      AList.mem_lookup_iff.mp (models.lookup_of_mem member), rfl⟩

/-- The counter is the sum over the map. -/
theorem Models.size_eq_sum (models : Models c l) :
    c.currentSize = (c.map.entries.map (fun e => e.2.1.estimatedSize)).sum := by
  have perm : (c.map.entries.map (fun e => (e.1, e.2.1))).Perm l := by
    refine (List.perm_ext_iff_of_nodup (List.Nodup.of_map Prod.fst ?_)
      models.distinct.of_map).mpr models.mem_entries
    rw [List.map_map]
    exact c.map.nodupKeys
  rw [models.size, ← LruList.total_perm perm]
  unfold LruList.total
  rw [List.map_map]
  rfl

/-- Taking a block out keeps the three views together; the counter does not underflow. -/
theorem Models.takeOut (models : Models c l) (perm : l.Perm ((key, block) :: l'))
    (order : List CacheKey) :
    ∃ size, subSize { c with map := c.map.erase key, order } block.estimatedSize =
        .ok { c with map := c.map.erase key, order, currentSize := size } ∧
      Models { c with map := c.map.erase key, order := LruList.keys l', currentSize := size } l' := by
  have total : c.currentSize = block.estimatedSize + LruList.total Block.estimatedSize l' := by
    rw [models.size, LruList.total_perm perm, LruList.total_cons]
  obtain ⟨fresh, distinct⟩ :=
    List.nodup_cons.mp ((perm.map Prod.fst).nodup_iff.mp models.distinct)
  refine ⟨_, if_pos (by show _ ≤ c.currentSize; omega), rfl, distinct, fun other held => ?_, ?_⟩
  · show (c.map.erase key).lookup other = some held ↔ _
    by_cases same : other = key
    · subst same
      rw [AList.lookup_erase]
      exact iff_of_false (fun h => nomatch h) fun h => fresh (LruList.mem_keys.mpr ⟨_, h.1⟩)
    · have distinct : (other, held.1) ≠ (key, block) := fun h => same (congrArg Prod.fst h)
      rw [AList.lookup_erase_ne same, models.map, perm.mem_iff, List.mem_cons,
        or_iff_right distinct]
  · show c.currentSize - block.estimatedSize = _
    omega

/-- `get` looks up and touches. -/
theorem Models.get (models : Models c l) (key : CacheKey) :
    (∀ block, (c.get key).1 = some block ↔ (key, block) ∈ l) ∧
      Models (c.get key).2 (LruList.touch key l) ∧ (c.get key).2.capacity = c.capacity := by
  unfold BlockCache.get
  by_cases present : key ∈ LruList.keys l
  · obtain ⟨block, member⟩ := LruList.mem_keys.mp present
    simp only [models.lookup_of_mem member]
    have perm := LruList.touch_perm models.distinct key
    refine ⟨fun other => ⟨?_, ?_⟩, ⟨?_, ?_, fun other held => ?_, ?_⟩, trivial⟩
    · rintro ⟨⟩
      exact member
    · intro inside
      rw [LruList.value_unique models.distinct member inside]
    · rw [LruList.touch_of_mem models.distinct member, models.order]
      show _ = key :: LruList.keys (LruList.others key l)
      rw [LruList.keys_others]
    · exact (perm.map Prod.fst).nodup_iff.mpr models.distinct
    · rw [models.map, perm.mem_iff]
    · rw [LruList.total_perm perm]
      exact models.size
  · simp only [models.lookup_of_notMem present, LruList.touch_of_notMem present]
    refine ⟨fun other => iff_of_false (fun h => nomatch h) fun inside => ?_, models, trivial⟩
    exact present (LruList.mem_keys.mpr ⟨other, inside⟩)

/-- The old block of a key leaves the list. -/
theorem Models.removeOld (models : Models c l) (key : CacheKey) :
    ∃ c', c.removeOld key = .ok c' ∧ Models c' (LruList.others key l) ∧
      c'.capacity = c.capacity := by
  unfold BlockCache.removeOld
  by_cases present : key ∈ LruList.keys l
  · obtain ⟨block, member⟩ := LruList.mem_keys.mp present
    obtain ⟨size, run, models'⟩ :=
      models.takeOut (LruList.perm_others models.distinct member) c.order
    rw [LruList.keys_others, ← models.order] at models'
    simp only [models.lookup_of_mem member]
    exact ⟨_, congrArg (· >>= _) run, models', rfl⟩
  · rw [models.lookup_of_notMem present, LruList.others_of_notMem present]
    exact ⟨c, rfl, models, rfl⟩

/-- Eviction keeps the most recent blocks, as many as fit. -/
theorem Models.evict (blockSize n : Nat) (bound : n ≤ l.length)
    (models : Models c (l.take n)) :
    ∃ c', BlockCache.evict blockSize n c = .ok c' ∧ c'.capacity = c.capacity ∧
      Models c' (l.take (LruList.kept Block.estimatedSize c.capacity blockSize l n)) := by
  induction n generalizing c with
  | zero => exact ⟨c, rfl, rfl, models⟩
  | succ n inductionHypothesis =>
      have fits_iff : LruList.Fits Block.estimatedSize c.capacity blockSize l (n + 1) ↔
          ¬c.currentSize + blockSize > c.capacity := by
        rw [models.size, Nat.not_lt]
        rfl
      have last : l.take (n + 1) = l.take n ++ [l[n]] := List.take_succ_eq_append_getElem bound
      have nonempty : c.order = LruList.keys (l.take n) ++ [l[n].1] := by
        rw [models.order, last]
        exact List.map_append
      unfold BlockCache.evict
      unfold LruList.kept
      rw [Nat.findGreatest_succ]
      by_cases fits : LruList.Fits Block.estimatedSize c.capacity blockSize l (n + 1)
      · rw [if_pos fits, if_neg (fun h => fits_iff.mp fits h.1)]
        exact ⟨c, rfl, rfl, models⟩
      · have member : (l[n].1, l[n].2) ∈ l.take (n + 1) := by
          rw [last]
          exact List.mem_append_right _ (List.mem_singleton_self _)
        have perm : (l.take (n + 1)).Perm ((l[n].1, l[n].2) :: l.take n) := by
          rw [last]
          exact List.perm_append_comm
        obtain ⟨size, run, models'⟩ := models.takeOut perm c.order.dropLast
        have shorter : c.order.dropLast = LruList.keys (l.take n) := by
          rw [nonempty, List.dropLast_concat]
        have front : c.order.getLast? = some l[n].1 := by
          rw [nonempty, List.getLast?_concat]
        rw [if_neg fits, if_pos ⟨not_not.mp (fits_iff.not.mp fits), by simp [nonempty]⟩]
        simp only [front, models.lookup_of_mem member]
        rw [← shorter] at models'
        obtain ⟨c', run', capacity, final⟩ := inductionHypothesis (Nat.le_of_lt bound) models'
        exact ⟨c', (congrArg (· >>= BlockCache.evict blockSize n) run).trans run', capacity, final⟩

/-- A block of a new key comes to the front. -/
theorem Models.bringIn (models : Models c l) (fresh : key ∉ LruList.keys l) (block : Block) :
    Models { c with
      currentSize := c.currentSize + block.estimatedSize
      map := c.map.insert key (block, block.estimatedSize)
      order := key :: c.order } ((key, block) :: l) := by
  refine ⟨congrArg (key :: ·) models.order, List.nodup_cons.mpr ⟨fresh, models.distinct⟩,
    fun other held => ?_, ?_⟩
  · show (c.map.insert key (block, block.estimatedSize)).lookup other = some held ↔ _
    rw [List.mem_cons, Prod.mk.injEq]
    by_cases same : other = key
    · subst same
      have absent : (other, held.1) ∉ l := fun member => fresh (LruList.mem_keys.mpr ⟨_, member⟩)
      rw [AList.lookup_insert, or_iff_left absent, Option.some.injEq, eq_comm]
      constructor
      · rintro rfl
        exact ⟨⟨rfl, rfl⟩, rfl⟩
      · rintro ⟨⟨-, sameBlock⟩, size⟩
        exact Prod.ext sameBlock (size.trans (congrArg _ sameBlock))
    · rw [AList.lookup_insert_ne same, or_iff_right (fun h => same h.1), models.map]
  · show c.currentSize + block.estimatedSize = _
    rw [LruList.total_cons, models.size, Nat.add_comm]

/-- `put` stores. -/
theorem Models.put (models : Models c l) (key : CacheKey) (block : Block) :
    ∃ c', c.put key block = .ok c' ∧ c'.capacity = c.capacity ∧
      Models c' (LruList.store Block.estimatedSize c.capacity key block l) := by
  obtain ⟨c₁, run₁, models₁, capacity₁⟩ := models.removeOld key
  have length : c₁.order.length = (LruList.others key l).length := by
    rw [models₁.order]
    exact List.length_map _
  have whole := models₁
  rw [← List.take_length (l := LruList.others key l)] at whole
  obtain ⟨c₂, run₂, capacity₂, models₂⟩ := whole.evict block.estimatedSize _ (Nat.le_refl _)
  rw [capacity₁] at models₂
  have fresh : key ∉ LruList.keys ((LruList.others key l).take (LruList.kept
      Block.estimatedSize c.capacity block.estimatedSize (LruList.others key l)
      (LruList.others key l).length)) := by
    intro inside
    obtain ⟨_, member⟩ := LruList.mem_keys.mp (((List.take_sublist _ _).map Prod.fst).subset inside)
    exact (LruList.mem_others.mp member).2 rfl
  have models₃ := models₂.bringIn fresh block
  refine ⟨_, ?_, ?_, models₃⟩
  · simp only [BlockCache.put, run₁, Result.ok_bind, length, run₂]
  · exact capacity₂.trans capacity₁

end BlockCache

end KvEngine
