import KvEngine.Engine.State
import KvEngine.Foundations.Layers
import KvEngine.Sstable.ReaderSpec

/-!
# The open tables of an engine

A table is an opened SSTable with its metadata.  `Tables` is the invariant that
reads rest on: every table holds a map, ids are distinct and below the next id,
and the shared cache only holds blocks that some table decodes.
-/

namespace KvEngine

open Foundations

/-- An opened SSTable with its metadata. -/
abbrev Table := SSTMeta × SSTableReader

namespace Table

/-- The map of a table. -/
def map (p : Table) : SortedMap Bytes Bytes := p.2.contents

/-- The metadata describes the file: its id and its first and last key. -/
structure Described (p : Table) : Prop where
  holds : p.2.Holds p.map
  named : p.2.sstId = p.1.id
  first : p.map.entries.head?.map Prod.fst = some p.1.minKey
  last : p.map.entries.getLast?.map Prod.fst = some p.1.maxKey
  keys : ∀ b ∈ p.map.entries, b.1.length < 2 ^ 16

variable {p : Table}

theorem Described.nonempty (described : Described p) : p.map.entries ≠ [] := by
  intro empty
  have first := described.first
  rw [empty] at first
  cases first

/-- A key of the table lies between its bounds. -/
theorem Described.bounds (described : Described p) {key value : Bytes}
    (found : p.map.lookup key = some value) : p.1.minKey ≤ key ∧ key ≤ p.1.maxKey := by
  have member := SortedMap.mem_entries.mpr found
  have nonempty := described.nonempty
  have first := described.first
  have last := described.last
  rw [List.getLast?_eq_getLast_of_ne_nil nonempty] at last
  have upper := SortedMap.le_getLast p.map.ascending nonempty member
  refine ⟨?_, (Option.some.inj last) ▸ upper⟩
  have ascending := p.map.ascending
  cases entries : p.map.entries with
  | nil => exact absurd entries nonempty
  | cons b rest =>
      rw [entries] at first member ascending
      exact (Option.some.inj first) ▸ SortedMap.head_le ascending member

/-- The bounds are keys of the table. -/
theorem Described.lookup_minKey (described : Described p) :
    ∃ value, p.map.lookup p.1.minKey = some value := by
  obtain ⟨b, found, same⟩ := Option.map_eq_some_iff.mp described.first
  have member : (b.1, b.2) ∈ p.map.entries := List.mem_of_head? found
  exact ⟨b.2, same ▸ SortedMap.mem_entries.mp member⟩

theorem Described.lookup_maxKey (described : Described p) :
    ∃ value, p.map.lookup p.1.maxKey = some value := by
  obtain ⟨b, found, same⟩ := Option.map_eq_some_iff.mp described.last
  have member : (b.1, b.2) ∈ p.map.entries := List.mem_of_getLast? found
  exact ⟨b.2, same ▸ SortedMap.mem_entries.mp member⟩

theorem Described.min_le_max (described : Described p) : p.1.minKey ≤ p.1.maxKey := by
  obtain ⟨value, found⟩ := described.lookup_minKey
  exact (described.bounds found).2

end Table

/-- What tables say about a key, in the order of the list. -/
def versionsIn (key : Bytes) (tables : List Table) : List Bytes :=
  versions (fun p => p.map.lookup key) tables

/-- A cached block is what every table with that id decodes. -/
def blockTruth (tables : List Table) (nextSstId : Nat) (key : CacheKey) (block : Block) : Prop :=
  key.sstId < nextSstId ∧
    ∀ p ∈ tables, p.2.sstId = key.sstId → p.2.decodeBlock key.blockIdx = .ok block

/-- Lookups in the tables go through the cache as if it were not there. -/
structure Served (truth : CacheKey → Block → Prop) (tables : List Table)
    (cache : Option BlockCache) : Prop where
  holds : ∀ p ∈ tables, p.2.Holds p.map
  serves : ∀ p ∈ tables, p.2.Serves truth
  coherent : SSTableReader.Coherent truth cache

/-- Tables with ids of their own serve what the cache may hold. -/
theorem serves_blockTruth {tables : List Table} {nextSstId : Nat}
    (named : ∀ p ∈ tables, p.2.sstId = p.1.id) (fresh : ∀ p ∈ tables, p.1.id < nextSstId)
    (distinct : (tables.map (fun p => p.1.id)).Nodup) {p : Table} (hp : p ∈ tables) :
    p.2.Serves (blockTruth tables nextSstId) := by
  intro i block
  constructor
  · exact fun isTrue => isTrue.2 p hp rfl
  · refine fun decodes => ⟨named p hp ▸ fresh p hp, fun q hq same => ?_⟩
    rw [named q hq, named p hp] at same
    rw [List.inj_on_of_nodup_map distinct hq hp same]
    exact decodes

/-- The tables and the block cache of an engine fit together. -/
structure Tables (tables : List Table) (nextSstId : Nat) (cache : Option BlockCache) : Prop where
  described : ∀ p ∈ tables, p.Described
  fresh : ∀ p ∈ tables, p.1.id < nextSstId
  distinct : (tables.map (fun p => p.1.id)).Nodup
  coherent : SSTableReader.Coherent (blockTruth tables nextSstId) cache

/-- A new cache is coherent with anything. -/
theorem coherent_new {truth : CacheKey → Block → Prop} (opts : Options) :
    SSTableReader.Coherent truth
      (if opts.blockCacheSize > 0 then some (BlockCache.new opts.blockCacheSize) else none) := by
  split
  · constructor
    · rintro c ⟨⟩
      exact BlockCache.sound_new _
    · rintro c ⟨⟩ key held found
      cases found
  · exact ⟨by simp, by simp⟩

namespace Tables

variable {tables : List Table} {nextSstId : Nat} {cache : Option BlockCache} {p : Table}

/-- Tables with the same id are the same. -/
theorem eq_of_id (h : Tables tables nextSstId cache) {q : Table} (hp : p ∈ tables) (hq : q ∈ tables)
    (same : p.1.id = q.1.id) : p = q :=
  List.inj_on_of_nodup_map h.distinct hp hq same

theorem serves (h : Tables tables nextSstId cache) (hp : p ∈ tables) :
    p.2.Serves (blockTruth tables nextSstId) :=
  serves_blockTruth (fun q hq => (h.described q hq).named) h.fresh h.distinct hp

theorem served (h : Tables tables nextSstId cache) :
    Served (blockTruth tables nextSstId) tables cache :=
  ⟨fun q hq => (h.described q hq).holds, fun _ hq => h.serves hq, h.coherent⟩

/-- A table answers a lookup as its map does. -/
theorem get_ok (h : Tables tables nextSstId cache) (hp : p ∈ tables) (key : Bytes) :
    ∃ cache', p.2.get key cache = .ok (p.map.lookup key) cache' ∧
      Tables tables nextSstId cache' := by
  obtain ⟨cache', run, coherent⟩ :=
    SSTableReader.get_ok (h.described p hp).holds h.coherent (h.serves hp) key
  exact ⟨cache', run, { h with coherent }⟩

/-- A table yields the entries of its map. -/
theorem iter_ok (h : Tables tables nextSstId cache) (hp : p ∈ tables) :
    ∃ cache', p.2.iter cache = .ok p.map.entries cache' ∧ Tables tables nextSstId cache' := by
  obtain ⟨cache', run, coherent⟩ :=
    SSTableReader.iter_ok (h.described p hp).holds h.coherent (h.serves hp)
  exact ⟨cache', run, { h with coherent }⟩

/-- Tables may be dropped. -/
theorem sublist (h : Tables tables nextSstId cache) {kept : List Table} (sub : kept.Sublist tables) :
    Tables kept nextSstId cache where
  described q hq := h.described q (sub.subset hq)
  fresh q hq := h.fresh q (sub.subset hq)
  distinct := h.distinct.sublist (sub.map _)
  coherent :=
    { sound := h.coherent.sound
      held := fun c hc key held found =>
        have isTrue := h.coherent.held c hc key held found
        ⟨isTrue.1, fun q hq => isTrue.2 q (sub.subset hq)⟩ }

/-- Taking an id leaves room for one more table. -/
theorem push (h : Tables tables nextSstId cache) (described : p.Described)
    (id : p.1.id = nextSstId) : Tables (tables ++ [p]) (nextSstId + 1) cache where
  described q hq := by
    rcases List.mem_append.mp hq with old | new
    · exact h.described q old
    · exact List.mem_singleton.mp new ▸ described
  fresh q hq := by
    rcases List.mem_append.mp hq with old | new
    · exact Nat.lt_succ_of_lt (h.fresh q old)
    · rw [List.mem_singleton.mp new, id]
      exact Nat.lt_succ_self _
  distinct := by
    rw [List.map_append, List.nodup_append]
    refine ⟨h.distinct, List.nodup_singleton _, fun a ha b hb => ?_⟩
    obtain ⟨q, hq, rfl⟩ := List.mem_map.mp ha
    rw [List.map_singleton, List.mem_singleton] at hb
    rw [hb, id]
    exact (h.fresh q hq).ne
  coherent :=
    { sound := h.coherent.sound
      held := fun c hc key held found => by
        obtain ⟨small, isTrue⟩ := h.coherent.held c hc key held found
        refine ⟨Nat.lt_succ_of_lt small, fun q hq same => ?_⟩
        rcases List.mem_append.mp hq with old | new
        · exact isTrue q old same
        · rw [List.mem_singleton.mp new, described.named, id] at same
          omega }

/-- An id may also stay unused. -/
theorem skip (h : Tables tables nextSstId cache) : Tables tables (nextSstId + 1) cache where
  described := h.described
  fresh q hq := Nat.lt_succ_of_lt (h.fresh q hq)
  distinct := h.distinct
  coherent :=
    { sound := h.coherent.sound
      held := fun c hc key held found =>
        have isTrue := h.coherent.held c hc key held found
        ⟨Nat.lt_succ_of_lt isTrue.1, isTrue.2⟩ }

end Tables

end KvEngine
