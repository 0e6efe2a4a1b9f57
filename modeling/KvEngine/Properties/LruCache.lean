import KvEngine.Cache.BlockCacheSpec
import Mathlib.Data.List.Induction

/-!
# The block cache is an exact LRU cache

Over any history of `get` and `put` the queue lists the cached keys in the order of their last
use and the counter is the sum of the cached sizes; a block stays until a `put` evicts it, and
a `put` evicts as few blocks as possible, the least recently used ones.  One block that is
larger than the capacity is nevertheless inserted.
-/

namespace KvEngine

open Foundations

/-- A call of the cache. -/
inductive CacheCall
  | get (key : CacheKey)
  | put (key : CacheKey) (block : Block)
  deriving Repr

/-- What the call does to the list of cached blocks. -/
def CacheCall.act (capacity : Nat) (l : List (CacheKey × Block)) :
    CacheCall → List (CacheKey × Block)
  | .get key => LruList.touch key l
  | .put key block => LruList.store Block.estimatedSize capacity key block l

namespace BlockCache

/-- Serve a call.  The list holds the keys that were put or hit, the last one first. -/
def serve : BlockCache × List CacheKey → CacheCall → Result (BlockCache × List CacheKey)
  | (c, used), .get key =>
      .ok ((c.get key).2, if (c.get key).1.isSome then key :: used else used)
  | (c, used), .put key block => do
      let c ← c.put key block
      .ok (c, key :: used)

/-- A history of calls on a new cache. -/
def run (capacity : Nat) (calls : List CacheCall) : Result (BlockCache × List CacheKey) :=
  calls.foldlM serve (new capacity, [])

/-- The call evicts the key, behind the calls before it. -/
def Evicts (capacity : Nat) (calls : List CacheCall) (call : CacheCall) (key : CacheKey) : Prop :=
  ∃ c used c' used', run capacity calls = .ok (c, used) ∧
    serve (c, used) call = .ok (c', used') ∧ key ∈ c.order ∧ key ∉ c'.order

/-- One of the calls `after` evicts the key. -/
def Evicted (capacity : Nat) (before after : List CacheCall) (key : CacheKey) : Prop :=
  ∃ during call rest, after = during ++ call :: rest ∧
    Evicts capacity (before ++ during) call key

/-- The bytes that the blocks of some keys take. -/
def bytesOf (c : BlockCache) (keys : List CacheKey) : Nat :=
  ((keys.filterMap (fun key => (c.get key).1)).map Block.estimatedSize).sum

/-- A `put` keeps the `n` most recent other blocks, unchanged; they leave room for the new one
or there are none, and one more would not leave room. -/
structure PutKeeps (c : BlockCache) (key : CacheKey) (block : Block) (c' : BlockCache)
    (others : List CacheKey) (n : Nat) : Prop where
  bound : n ≤ others.length
  order : c'.order = key :: others.take n
  stored : (c'.get key).1 = some block
  kept : ∀ other ∈ others.take n, (c'.get other).1 = (c.get other).1
  fits : c.bytesOf (others.take n) + block.estimatedSize ≤ c.capacity ∨ n = 0
  fewest : ∀ m, n < m → m ≤ others.length →
    c.capacity < c.bytesOf (others.take m) + block.estimatedSize

variable {c : BlockCache} {used : List CacheKey} {l l' : List (CacheKey × Block)}
variable {capacity : Nat} {key : CacheKey} {block : Block}

/-! ## One call -/

/-- A call acts on the list of cached blocks, which stays in the order of use. -/
theorem Models.serve (models : Models c l) (recent : LruList.Recent l used) (call : CacheCall) :
    ∃ c' used', BlockCache.serve (c, used) call = .ok (c', used') ∧ c'.capacity = c.capacity ∧
      Models c' (call.act c.capacity l) ∧ LruList.Recent (call.act c.capacity l) used' := by
  cases call with
  | get key =>
      obtain ⟨found, models', capacity⟩ := models.get key
      refine ⟨_, _, rfl, capacity, models', ?_⟩
      show LruList.Recent (LruList.touch key l) _
      by_cases present : key ∈ LruList.keys l
      · obtain ⟨block, member⟩ := LruList.mem_keys.mp present
        rw [(found block).mpr member, LruList.touch_of_mem models.distinct member]
        exact recent.front (List.Sublist.refl _)
      · have missed : (c.get key).1 = none := Option.eq_none_iff_forall_ne_some.mpr
          fun block hit => present (LruList.mem_keys.mpr ⟨block, (found block).mp hit⟩)
        rw [missed, LruList.touch_of_notMem present]
        exact recent
  | put key block =>
      obtain ⟨c', run, capacity, models'⟩ := models.put key block
      refine ⟨c', key :: used, ?_, capacity, models', recent.front (List.take_sublist _ _)⟩
      simp only [BlockCache.serve, run, Result.ok_bind]

/-- Only its own `put` brings a block in. -/
theorem CacheCall.mem_of_mem_act (call : CacheCall) (other : ∀ b, call ≠ .put key b)
    (distinct : (LruList.keys l).Nodup) (member : (key, block) ∈ call.act capacity l) :
    (key, block) ∈ l := by
  cases call with
  | get k => exact (LruList.touch_perm distinct k).mem_iff.mp member
  | put k b =>
      rcases List.mem_cons.mp member with same | inside
      · cases same
        exact absurd rfl (other block)
      · exact (LruList.mem_others.mp ((List.take_sublist _ _).subset inside)).1

/-- The bytes of listed blocks are their total weight. -/
theorem Models.bytesOf (models : Models c l) (subset : l' ⊆ l) :
    c.bytesOf (LruList.keys l') = LruList.total Block.estimatedSize l' := by
  induction l' with
  | nil => rfl
  | cons e l' inductionHypothesis =>
      have hit : (c.get e.1).1 = some e.2 :=
        ((models.get e.1).1 e.2).mpr (subset List.mem_cons_self)
      have later := inductionHypothesis fun _ member => subset (List.mem_cons_of_mem e member)
      rw [LruList.total_cons, ← later]
      show (((e.1 :: LruList.keys l').filterMap _).map _).sum = _
      rw [List.filterMap_cons_some (f := fun key => (c.get key).1) hit]
      rfl

/-- What a `put` keeps. -/
theorem Models.put_keeps (models : Models c l) (key : CacheKey) (block : Block) :
    ∃ c' n, c.put key block = .ok c' ∧
      PutKeeps c key block c' (c.order.filter (· ≠ key)) n := by
  obtain ⟨c', run, -, models'⟩ := models.put key block
  have others : c.order.filter (· ≠ key) = LruList.keys (LruList.others key l) := by
    rw [models.order, LruList.keys_others]
  have length : (LruList.keys (LruList.others key l)).length = (LruList.others key l).length :=
    List.length_map _
  have take : ∀ m, (LruList.keys (LruList.others key l)).take m =
      LruList.keys ((LruList.others key l).take m) := fun m => (List.map_take).symm
  have bytes : ∀ m, c.bytesOf (LruList.keys ((LruList.others key l).take m)) =
      LruList.total Block.estimatedSize ((LruList.others key l).take m) := fun m =>
    models.bytesOf (((List.take_sublist _ _).trans (LruList.others_sublist key l)).subset)
  rw [others]
  refine ⟨c', LruList.kept Block.estimatedSize c.capacity block.estimatedSize
    (LruList.others key l) (LruList.others key l).length, run, ?_, ?_, ?_, ?_, ?_, ?_⟩
  · rw [length]
    exact LruList.kept_le _ _ _
  · rw [take, models'.order]
    rfl
  · exact ((models'.get key).1 block).mpr List.mem_cons_self
  · intro other member
    rw [take] at member
    obtain ⟨held, inside⟩ := LruList.mem_keys.mp member
    have old := (LruList.mem_others.mp ((List.take_sublist _ _).subset inside)).1
    rw [((models'.get other).1 held).mpr (List.mem_cons_of_mem _ inside),
      ((models.get other).1 held).mpr old]
  · rw [take, bytes]
    exact LruList.kept_fits _ _ _
  · intro m more bound
    rw [take, bytes]
    rw [length] at bound
    exact Nat.not_le.mp (LruList.kept_greatest more bound)

/-! ## Histories -/

theorem run_concat {calls : List CacheCall} {state : BlockCache × List CacheKey}
    (ran : run capacity calls = .ok state) (call : CacheCall) :
    run capacity (calls ++ [call]) = serve state call := by
  unfold run at *
  rw [List.foldlM_append, ran]
  show serve state call >>= _ = _
  cases serve state call with
  | error e => rfl
  | ok next => rfl

/-- Behind every history the queue, the map and the counter describe one list, in the order of
the uses. -/
theorem run_models (capacity : Nat) (calls : List CacheCall) :
    ∃ c used l, run capacity calls = .ok (c, used) ∧ c.capacity = capacity ∧ Models c l ∧
      LruList.Recent l used := by
  induction calls using List.reverseRecOn with
  | nil => exact ⟨new capacity, [], [], rfl, rfl, models_new capacity, LruList.recent_nil⟩
  | append_singleton calls call inductionHypothesis =>
      obtain ⟨c, used, l, ran, rfl, models, recent⟩ := inductionHypothesis
      obtain ⟨c', used', served, capacity, models', recent'⟩ := models.serve recent call
      exact ⟨c', used', _, (run_concat ran call).trans served, capacity, models', recent'⟩

/-- The last state of a history, and the one a further call leads to. -/
theorem run_step (capacity : Nat) (calls : List CacheCall) (call : CacheCall) :
    ∃ c used l c' used', run capacity calls = .ok (c, used) ∧ c.capacity = capacity ∧
      Models c l ∧ serve (c, used) call = .ok (c', used') ∧
      run capacity (calls ++ [call]) = .ok (c', used') ∧ Models c' (call.act capacity l) := by
  obtain ⟨c, used, l, ran, rfl, models, recent⟩ := run_models capacity calls
  obtain ⟨c', used', served, -, models', -⟩ := models.serve recent call
  exact ⟨c, used, l, c', used', ran, rfl, models, served, (run_concat ran call).trans served,
    models'⟩

/-- A key that was never put is not found. -/
theorem get_of_never_put {calls : List CacheCall} (never : ∀ block, .put key block ∉ calls)
    {state : BlockCache × List CacheKey} (ran : run capacity calls = .ok state) :
    (state.1.get key).1 = none := by
  induction calls using List.reverseRecOn generalizing state with
  | nil =>
      cases ran
      rfl
  | append_singleton calls call inductionHypothesis =>
      obtain ⟨c, used, l, c', used', ran₀, -, models, -, ran₁, models'⟩ :=
        run_step capacity calls call
      rw [ran₁] at ran
      cases ran
      have before := inductionHypothesis
        (fun block member => never block (List.mem_append_left _ member)) ran₀
      refine Option.eq_none_iff_forall_ne_some.mpr fun block hit => ?_
      have member := ((models'.get key).1 block).mp hit
      have old := CacheCall.mem_of_mem_act call
        (fun b same => never b (by rw [same]; exact List.mem_append_right _ List.mem_cons_self))
        models.distinct member
      rw [((models.get key).1 block).mpr old] at before
      cases before

theorem evicted_concat {before after : List CacheCall} {call : CacheCall} :
    Evicted capacity before (after ++ [call]) key ↔
      Evicted capacity before after key ∨ Evicts capacity (before ++ after) call key := by
  constructor
  · rintro ⟨during, other, rest, split, evicts⟩
    rcases List.eq_nil_or_concat rest with rfl | ⟨rest, last, rfl⟩
    · obtain ⟨rfl, same⟩ := List.append_inj' split rfl
      cases same
      exact Or.inr evicts
    · rw [List.concat_eq_append, ← List.cons_append, ← List.append_assoc] at split
      exact Or.inl ⟨during, other, rest, (List.append_inj' split rfl).1, evicts⟩
  · rintro (⟨during, other, rest, rfl, evicts⟩ | evicts)
    · exact ⟨during, other, rest ++ [call], by simp, evicts⟩
    · exact ⟨after, call, [], rfl, evicts⟩

/-- Behind its last `put` a block is found until a call evicts it. -/
theorem get_of_last_put {before after : List CacheCall}
    (last : ∀ other, .put key other ∉ after) {state : BlockCache × List CacheKey}
    (ran : run capacity (before ++ [.put key block] ++ after) = .ok state) :
    (¬Evicted capacity (before ++ [.put key block]) after key ∧
        (state.1.get key).1 = some block) ∨
      (Evicted capacity (before ++ [.put key block]) after key ∧
        (state.1.get key).1 = none) := by
  induction after using List.reverseRecOn generalizing state with
  | nil =>
      obtain ⟨c, used, l, c', used', -, -, -, -, ran₁, models'⟩ :=
        run_step capacity before (.put key block)
      rw [List.append_nil, ran₁] at ran
      cases ran
      refine Or.inl ⟨?_, ((models'.get key).1 block).mpr List.mem_cons_self⟩
      rintro ⟨during, call, rest, split, -⟩
      exact absurd split.symm (by simp)
  | append_singleton after call inductionHypothesis =>
      obtain ⟨c, used, l, c', used', ran₀, -, models, served, ran₁, models'⟩ :=
        run_step capacity (before ++ [.put key block] ++ after) call
      rw [← List.append_assoc, ran₁] at ran
      cases ran
      rw [evicted_concat]
      have other : ∀ b, call ≠ .put key b := fun b same =>
        last b (by rw [same]; exact List.mem_append_right _ List.mem_cons_self)
      have brought : ∀ b, (key, b) ∈ call.act capacity l → (key, b) ∈ l := fun b =>
        CacheCall.mem_of_mem_act call other models.distinct
      rcases inductionHypothesis
        (fun b member => last b (List.mem_append_left _ member)) ran₀ with ⟨kept, hit⟩ | ⟨gone, missed⟩
      · have member := ((models.get key).1 block).mp hit
        have queued : key ∈ c.order := by
          rw [models.order]
          exact LruList.mem_keys.mpr ⟨block, member⟩
        by_cases still : key ∈ c'.order
        · left
          refine ⟨?_, ?_⟩
          · rintro (gone | ⟨c₁, used₁, c₂, used₂, sameRun, sameServe, -, dropped⟩)
            · exact kept gone
            · rw [ran₀] at sameRun
              cases sameRun
              rw [served] at sameServe
              cases sameServe
              exact dropped still
          · rw [models'.order] at still
            obtain ⟨held, inside⟩ := LruList.mem_keys.mp still
            rw [LruList.value_unique models.distinct member (brought held inside)]
            exact ((models'.get key).1 held).mpr inside
        · right
          refine ⟨Or.inr ⟨c, used, c', used', ran₀, served, queued, still⟩, ?_⟩
          refine Option.eq_none_iff_forall_ne_some.mpr fun held hit => still ?_
          rw [models'.order]
          exact LruList.mem_keys.mpr ⟨held, ((models'.get key).1 held).mp hit⟩
      · right
        refine ⟨Or.inl gone, Option.eq_none_iff_forall_ne_some.mpr fun held hit => ?_⟩
        have old := brought held (((models'.get key).1 held).mp hit)
        rw [((models.get key).1 held).mpr old] at missed
        cases missed

/-- **The block cache is an exact LRU cache**, for every capacity and every history of calls:
no call underflows; the queue lists the keys of the map, each once, the most recently used one
first; the counter is the sum of the cached sizes; a block is found if its key was put and
not evicted since; and a `put` evicts the fewest blocks possible, from the back. -/
theorem cache_is_exact_lru (capacity : Nat) (calls : List CacheCall) :
    ∃ c used, run capacity calls = .ok (c, used) ∧
      c.order.Nodup ∧ (∀ key, key ∈ c.order ↔ key ∈ c.map) ∧
      (∀ key ∈ c.order, key ∈ used) ∧
      c.order.Pairwise (fun a b => used.idxOf a < used.idxOf b) ∧
      c.currentSize = (c.map.entries.map (fun e => e.2.1.estimatedSize)).sum ∧
      (∀ key, (∀ block, .put key block ∉ calls) → (c.get key).1 = none) ∧
      (∀ before key block after, calls = before ++ [.put key block] ++ after →
        (∀ other, .put key other ∉ after) →
        (¬Evicted capacity (before ++ [.put key block]) after key ∧
            (c.get key).1 = some block) ∨
          (Evicted capacity (before ++ [.put key block]) after key ∧ (c.get key).1 = none)) ∧
      c.capacity = capacity ∧ ∀ key block, ∃ c' n, c.put key block = .ok c' ∧
        PutKeeps c key block c' (c.order.filter (· ≠ key)) n := by
  obtain ⟨c, used, l, ran, bound, models, recent⟩ := run_models capacity calls
  have order := models.order
  refine ⟨c, used, ran, order ▸ recent.distinct, fun key => models.mem_order,
    order ▸ recent.isUsed, order ▸ recent.order, models.size_eq_sum,
    fun key never => get_of_never_put never ran, ?_, bound, models.put_keeps⟩
  rintro before key block after rfl last
  exact get_of_last_put last ran

/-! ## The capacity -/

/-- After a call the size is within the capacity if it was before, and only then if a block
that is put is itself. -/
theorem act_within_iff (call : CacheCall) (distinct : (LruList.keys l).Nodup)
    (within : LruList.total Block.estimatedSize l ≤ capacity) :
    LruList.total Block.estimatedSize (call.act capacity l) ≤ capacity ↔
      ∀ key block, call = .put key block → block.estimatedSize ≤ capacity := by
  cases call with
  | get k =>
      have same : LruList.total Block.estimatedSize (LruList.touch k l) = _ :=
        LruList.total_perm (LruList.touch_perm distinct k)
      refine iff_of_true ?_ fun key block other => nomatch other
      show LruList.total Block.estimatedSize (LruList.touch k l) ≤ capacity
      rw [same]
      exact within
  | put k b =>
      refine (LruList.total_store_le_iff k b l).trans ⟨?_, fun all => all k b rfl⟩
      rintro alone key block ⟨⟩
      exact alone

/-- **The capacity** is respected after every call if and only if no single block that is put
is larger. -/
theorem size_within_capacity_iff (capacity : Nat) (calls : List CacheCall) :
    (∀ before, before <+: calls → ∃ c used, run capacity before = .ok (c, used) ∧
        c.size ≤ capacity) ↔
      ∀ key block, .put key block ∈ calls → block.estimatedSize ≤ capacity := by
  induction calls using List.reverseRecOn with
  | nil =>
      refine iff_of_true (fun before isPrefix => ?_) fun key block member => nomatch member
      rw [List.prefix_nil.mp isPrefix]
      exact ⟨new capacity, [], rfl, Nat.zero_le _⟩
  | append_singleton calls call inductionHypothesis =>
      obtain ⟨c, used, l, c', used', ran, -, models, -, ran', models'⟩ :=
        run_step capacity calls call
      have size' : c'.size = LruList.total Block.estimatedSize (call.act capacity l) :=
        models'.size
      -- what the last call does, once the calls before it respected the capacity
      have last (within : LruList.total Block.estimatedSize l ≤ capacity) :=
        act_within_iff call models.distinct within
      constructor
      · intro all key block member
        have earlier := inductionHypothesis.mp fun before isPrefix =>
          all before (isPrefix.trans (List.prefix_append _ _))
        rcases List.mem_append.mp member with old | new
        · exact earlier key block old
        · obtain ⟨c₁, used₁, sameRun, within⟩ := all calls (List.prefix_append _ _)
          rw [ran] at sameRun
          cases sameRun
          obtain ⟨c₂, used₂, sameRun', within'⟩ := all _ (List.prefix_refl _)
          rw [ran'] at sameRun'
          cases sameRun'
          refine (last (models.size ▸ within)).mp (size' ▸ within') key block ?_
          exact (List.mem_singleton.mp new).symm
      · intro fits before isPrefix
        have earlier := inductionHypothesis.mpr fun key block member =>
          fits key block (List.mem_append_left _ member)
        rcases List.prefix_concat_iff.mp isPrefix with rfl | isPrefix
        · obtain ⟨c₁, used₁, sameRun, within⟩ := earlier calls (List.prefix_refl _)
          rw [ran] at sameRun
          cases sameRun
          refine ⟨c', used', ran', size' ▸ (last (models.size ▸ within)).mpr ?_⟩
          rintro key block rfl
          exact fits key block (List.mem_append_right _ List.mem_cons_self)
        · exact earlier before isPrefix

/-- A cache of 16 bytes takes in a block of 17. -/
theorem oversized_block_is_inserted :
    ¬∀ capacity calls before, before <+: calls → ∃ c used,
      run capacity before = .ok (c, used) ∧ c.size ≤ capacity := by
  intro all
  obtain ⟨c, used, ran, within⟩ := all 16
    [.put ⟨1, 0⟩ (Block.new.add [107] [1, 2, 3, 4, 5, 6, 7, 8])] _ (List.prefix_refl _)
  cases ran
  exact absurd within (by decide)

end BlockCache

end KvEngine
