import KvEngine.Sstable.BuilderSpec

/-!
# What a reader answers

`Holds r map` says that an opened file holds the entries of `map`, split into
blocks.  Together with a block cache whose blocks are the decoded ones, a read of
the file answers as the map does, and leaves such a cache behind.
-/

namespace KvEngine

open Foundations Sstable

namespace SSTableReader

/-- A file is opened under the id it is asked for. -/
theorem sstId_parse {data : Bytes} {sstId : Nat} {r : SSTableReader}
    (parsed : parse data sstId = .ok r) : r.sstId = sstId := by
  unfold parse at parsed
  split at parsed
  · cases parsed
  · simp only [Result.bind_eq_ok, Except.ok.injEq] at parsed
    obtain ⟨_, _, _, _, _, _, _, _, _, _, rfl⟩ := parsed
    rfl

/-- The id only names the reader. -/
theorem parse_withId {data : Bytes} {sstId : Nat} {r : SSTableReader}
    (parsed : parse data sstId = .ok r) (id : Nat) :
    parse data id = .ok { r with sstId := id } := by
  unfold parse at parsed ⊢
  split at parsed
  · cases parsed
  · next long =>
      rw [if_neg long]
      simp only [Result.bind_eq_ok, Except.ok.injEq] at parsed ⊢
      obtain ⟨i, hi, o, ho, index, hindex, bytes, hbytes, bloom, hbloom, rfl⟩ := parsed
      exact ⟨i, hi, o, ho, index, hindex, bytes, hbytes, bloom, hbloom, rfl⟩

/-! ## Through the cache -/

/-- The counter of the cache is exact, and every cached block is a true one. -/
structure Coherent (truth : CacheKey → Block → Prop) (c : Option BlockCache) : Prop where
  sound : ∀ cache, c = some cache → cache.Sound
  held : ∀ cache, c = some cache → ∀ key held, cache.map.lookup key = some held → truth key held.1

/-- The true blocks of a reader are the ones it decodes. -/
def Serves (truth : CacheKey → Block → Prop) (r : SSTableReader) : Prop :=
  ∀ i block, truth ⟨r.sstId, i⟩ block ↔ r.decodeBlock i = .ok block

section Cache

variable {truth : CacheKey → Block → Prop} {r : SSTableReader} {c : Option BlockCache}

theorem cacheGet_ok (coherent : Coherent truth c) (key : CacheKey) :
    ∃ hit c', cacheGet key c = .ok hit c' ∧ Coherent truth c' ∧
      ∀ block, hit = some block → truth key block := by
  cases c with
  | none => exact ⟨none, none, rfl, coherent, by simp⟩
  | some cache =>
      unfold cacheGet
      simp only [BlockCache.get]
      cases present : cache.map.lookup key with
      | none => exact ⟨none, _, rfl, coherent, by simp⟩
      | some held =>
          refine ⟨some held.1, some { cache with order := key :: cache.order.filter (· ≠ key) }, rfl,
            ⟨?_, ?_⟩, ?_⟩
          · rintro _ ⟨⟩
            exact coherent.sound cache rfl
          · rintro _ ⟨⟩ key' held' found
            exact coherent.held cache rfl key' held' found
          · rintro block ⟨⟩
            exact coherent.held cache rfl key held present

theorem cachePut_ok (coherent : Coherent truth c) {key : CacheKey} {block : Block}
    (isTrue : truth key block) :
    ∃ c', cachePut key block c = .ok () c' ∧ Coherent truth c' := by
  cases c with
  | none => exact ⟨none, rfl, coherent⟩
  | some cache =>
      obtain ⟨cache', run, sound, held⟩ := BlockCache.put_ok (coherent.sound cache rfl) key block
      refine ⟨some cache', ?_, ⟨?_, ?_⟩⟩
      · simp only [cachePut, run]
      · rintro _ ⟨⟩
        exact sound
      · rintro _ ⟨⟩ key' held' found
        rcases held key' held' found with ⟨rfl, same⟩ | old
        · exact same ▸ isTrue
        · exact coherent.held cache rfl key' held' old

/-- A block that decodes is loaded, whatever the cache holds. -/
theorem loadBlock_ok (coherent : Coherent truth c) (serves : Serves truth r) {i : Nat} {block : Block}
    (decodes : r.decodeBlock i = .ok block) :
    ∃ c', r.loadBlock i c = .ok block c' ∧ Coherent truth c' := by
  obtain ⟨hit, c₁, run₁, coherent₁, isTrue⟩ := cacheGet_ok coherent ⟨r.sstId, i⟩
  simp only [loadBlock]
  rw [bind_apply_ok run₁]
  cases hit with
  | some cached =>
      have same := (serves i cached).mp (isTrue cached rfl)
      rw [decodes] at same
      cases same
      exact ⟨c₁, rfl, coherent₁⟩
  | none =>
      obtain ⟨c₂, run₂, coherent₂⟩ := cachePut_ok coherent₁ ((serves i block).mpr decodes)
      simp only [decodes]
      exact ⟨c₂, by
        rw [bind_apply_ok (rfl : liftResult (Except.ok block) c₁ = _), bind_apply_ok run₂]
        rfl, coherent₂⟩

end Cache

/-! ## A file that holds a map -/

/-- The file holds the entries of `map`, split into non-empty blocks, and a filter
that lets their keys pass. -/
structure Holds (r : SSTableReader) (map : SortedMap Bytes Bytes) : Prop where
  blocks : ∃ blocks : List Entries, blocks.flatten = map.entries ∧ (∀ block ∈ blocks, block ≠ []) ∧
    r.index.map Prod.snd = blocks.map lastKeyOf ∧
    ∀ i block, blocks[i]? = some block → ∃ size, r.decodeBlock i = .ok ⟨block, size⟩
  filter : r.bloom.WellFormed
  passes : ∀ b ∈ map.entries, r.bloom.mayContain b.1 = .ok true

/-- **Opening what was built.** The image of a map's entries opens as a file that
holds the map. -/
theorem parse_built {map : SortedMap Bytes Bytes} {blocks : List Entries} {bloom : BloomFilter}
    (sstId : Nat) (small : (image blocks bloom).length < 2 ^ 32)
    (keys : ∀ b ∈ map.entries, b.1.length < 2 ^ 16) (entries : blocks.flatten = map.entries)
    (nonempty : ∀ block ∈ blocks, block ≠ [])
    (built : BloomFilter.build (map.entries.map Prod.fst) defaultBitsPerKey = .ok bloom) :
    ∃ r, parse (image blocks bloom) sstId = .ok r ∧ r.sstId = sstId ∧ Holds r map := by
  have total := length_image blocks bloom
  have perEntry := nine_mul_le_dataBytes blocks (entries ▸ map.ascending)
  obtain ⟨bloom', built', wellFormed, hashes, bits, words, passes⟩ :=
    BloomFilter.build_ok (map.entries.map Prod.fst) defaultBitsPerKey
  rw [built] at built'
  cases built'
  rw [List.length_map] at bits
  have bloomLength : bloom.encode.length = 12 + bloom.bits.length * 8 := by
    simp only [BloomFilter.encode, List.length_append, length_leBytes,
      BloomFilter.length_flatMap_leBytes]
  rw [entries] at perEntry
  have perKey : defaultBitsPerKey = 10 := rfl
  have decodes := BloomFilter.decode_encode wellFormed (by rw [hashes]; decide)
    (by rw [perKey] at bits; omega) (by omega)
  have blockKeys : ∀ block ∈ blocks, ∀ e ∈ block, e.1.length < 2 ^ 16 := fun block hb e he =>
    keys e (entries ▸ List.mem_flatten_of_mem hb he)
  refine ⟨_, parse_image sstId small blockKeys decodes, rfl, ⟨blocks, entries, nonempty,
    map_snd_indexFrom 0 blocks, fun i block found => ?_⟩, wellFormed, fun b hb =>
    passes b.1 (List.mem_map_of_mem hb)⟩
  obtain ⟨inside, rfl⟩ := List.getElem?_eq_some_iff.mp found
  have split : blocks = blocks.take i ++ blocks[i] :: blocks.drop (i + 1) := by simp
  have position : (blocks.take i).length = i := by
    rw [List.length_take]
    omega
  rw [split] at small
  have block := decodeBlock_readerOf sstId small (blockKeys _ (List.getElem_mem inside))
  rw [← split, position] at block
  exact ⟨_, block⟩

section Holds

variable {truth : CacheKey → Block → Prop} {r : SSTableReader} {map : SortedMap Bytes Bytes}
  {c : Option BlockCache}

theorem getLast_eq_lastKeyOf {block : Entries} (nonempty : block ≠ []) :
    (block.getLast nonempty).1 = lastKeyOf block := by
  rw [lastKeyOf, List.getLast?_eq_getLast_of_ne_nil nonempty]
  rfl

/-- Last keys ascend when the entries do. -/
theorem ascending_lastKeys {blocks : List Entries} (nonempty : ∀ block ∈ blocks, block ≠ [])
    (ascending : AscendingKeys blocks.flatten) :
    (blocks.map lastKeyOf).Pairwise (· < ·) := by
  rw [List.pairwise_map]
  refine (List.pairwise_flatten.mp ascending).2.imp_of_mem fun {a b} ha hb less => ?_
  rw [← getLast_eq_lastKeyOf (nonempty a ha), ← getLast_eq_lastKeyOf (nonempty b hb)]
  exact less _ (List.getLast_mem _) _ (List.getLast_mem _)

/-- The block that may hold a key is the first one whose last key is not below it. -/
theorem blockFor_cases (ascending : (r.index.map Prod.snd).Pairwise (· < ·)) (key : Bytes) :
    match r.blockFor key with
    | some i => ∃ lastKey, (r.index.map Prod.snd)[i]? = some lastKey ∧ key ≤ lastKey ∧
        ∀ j other, j < i → (r.index.map Prod.snd)[j]? = some other → other < key
    | none => ∀ lastKey ∈ r.index.map Prod.snd, lastKey < key := by
  have ascending : AscendingBy Prod.snd r.index := List.pairwise_map.mp ascending
  unfold blockFor
  cases outcome : binarySearchBy (against Prod.snd key) r.index with
  | ok i =>
      obtain ⟨e, found, same⟩ := binarySearchBy_ok outcome
      refine ⟨e.2, by rw [List.getElem?_map, found]; rfl, same.ge, fun j other before present => ?_⟩
      rw [List.getElem?_map] at present
      obtain ⟨e', found', rfl⟩ := Option.map_eq_some_iff.mp present
      exact same ▸ ascending.getElem?_lt before found' found
  | error i =>
      obtain ⟨inside, smaller, larger⟩ := binarySearchBy_error ascending outcome
      simp only
      split
      · next i' hit =>
          split at hit
          · next within =>
              cases hit
              have found : r.index[i]? = some r.index[i] := List.getElem?_eq_getElem within
              refine ⟨r.index[i].2, by rw [List.getElem?_map, found]; rfl,
                (larger i _ le_rfl found).le, fun j other before present => ?_⟩
              rw [List.getElem?_map] at present
              obtain ⟨e', found', rfl⟩ := Option.map_eq_some_iff.mp present
              exact smaller j e' before found'
          · cases hit
      · next miss =>
          split at miss
          · cases miss
          · next beyond =>
              intro lastKey member
              obtain ⟨e, he, rfl⟩ := List.mem_map.mp member
              obtain ⟨j, inside', rfl⟩ := List.mem_iff_getElem.mp he
              exact smaller j _ (by omega) (List.getElem?_eq_getElem inside')

/-- Searching a block looks the key up among its entries. -/
theorem searchBlock_eq (block : Block) (ascending : AscendingKeys block.entries) (key : Bytes) :
    searchBlock block key = .ok (lookupList key block.entries) := by
  unfold searchBlock
  cases outcome : binarySearchBy (against Prod.fst key) block.entries with
  | ok i =>
      obtain ⟨e, found, rfl⟩ := binarySearchBy_ok outcome
      have member : (e.1, e.2) ∈ block.entries := List.mem_of_getElem? found
      simp only [found, orPanic_some, Result.ok_bind, ascending.lookupList_of_mem member]
  | error i =>
      obtain ⟨-, smaller, larger⟩ := binarySearchBy_error ascending outcome
      refine congrArg Except.ok (lookupList_eq_none.mpr fun e he => ?_).symm
      obtain ⟨j, inside, rfl⟩ := List.mem_iff_getElem.mp he
      rcases Nat.lt_or_ge j i with before | notBefore
      · exact (smaller j _ before (List.getElem?_eq_getElem inside)).ne
      · exact (larger j _ notBefore (List.getElem?_eq_getElem inside)).ne'

/-- Only the block found through the index can hold the key. -/
theorem lookup_in_block {before after : List Entries} {block : Entries} {key : Bytes}
    (nonempty : ∀ b ∈ before ++ block :: after, b ≠ [])
    (ascending : AscendingKeys (before ++ block :: after).flatten)
    (smaller : ∀ b ∈ before, lastKeyOf b < key) (notSmaller : key ≤ lastKeyOf block) :
    lookupList key (before ++ block :: after).flatten = lookupList key block := by
  obtain ⟨each, across⟩ := List.pairwise_flatten.mp ascending
  obtain ⟨-, acrossLater, -⟩ := List.pairwise_append.mp across
  have absentBefore : lookupList key before.flatten = none := by
    rw [lookupList_eq_none]
    intro e he
    obtain ⟨b, hb, member⟩ := List.mem_flatten.mp he
    have memberAll : b ∈ before ++ block :: after := List.mem_append_left _ hb
    have bound := SortedMap.le_getLast (each b memberAll) (nonempty b memberAll) member
    rw [getLast_eq_lastKeyOf] at bound
    exact (bound.trans_lt (smaller b hb)).ne
  have absentAfter : lookupList key after.flatten = none := by
    rw [lookupList_eq_none]
    intro e he
    obtain ⟨b, hb, member⟩ := List.mem_flatten.mp he
    have memberAll : block ∈ before ++ block :: after :=
      List.mem_append_right _ List.mem_cons_self
    have later := (List.pairwise_cons.mp acrossLater).1 b hb
      (block.getLast (nonempty block memberAll)) (List.getLast_mem _) e member
    rw [getLast_eq_lastKeyOf] at later
    exact (notSmaller.trans_lt later).ne'
  rw [List.flatten_append, List.flatten_cons, lookupList_append, lookupList_append, absentBefore,
    absentAfter, Option.none_or, Option.or_none]

/-- **Lookup.** The reader answers as the map does. -/
theorem get_ok (holds : Holds r map) (coherent : Coherent truth c) (serves : Serves truth r)
    (key : Bytes) :
    ∃ c', r.get key c = .ok (map.lookup key) c' ∧ Coherent truth c' := by
  obtain ⟨blocks, entries, nonempty, index, decodes⟩ := holds.blocks
  have ascending : AscendingKeys blocks.flatten := entries ▸ map.ascending
  have searched := blockFor_cases (r := r) (index ▸ ascending_lastKeys nonempty ascending) key
  obtain ⟨answer, tested⟩ := BloomFilter.mayContain_ok holds.filter key
  simp only [get, tested]
  rw [bind_apply_ok (rfl : liftResult (Except.ok answer) c = _)]
  cases answer with
  | false =>
      refine ⟨c, ?_, coherent⟩
      have absent : map.lookup key = none := by
        cases found : map.lookup key with
        | none => rfl
        | some v =>
            have passes := holds.passes _ (SortedMap.mem_entries.mpr found)
            rw [tested] at passes
            cases passes
      rw [absent]
      rfl
  | true =>
      simp only [Bool.not_true, Bool.false_eq_true, if_false]
      cases located : r.blockFor key with
      | none =>
          refine ⟨c, ?_, coherent⟩
          rw [located] at searched
          have absent : map.lookup key = none := by
            rw [SortedMap.lookup, ← entries, lookupList_eq_none]
            intro e he
            obtain ⟨b, hb, member⟩ := List.mem_flatten.mp he
            have bound := SortedMap.le_getLast ((List.pairwise_flatten.mp ascending).1 b hb)
              (nonempty b hb) member
            rw [getLast_eq_lastKeyOf] at bound
            refine (bound.trans_lt (searched _ ?_)).ne
            rw [index]
            exact List.mem_map_of_mem hb
          rw [absent]
          rfl
      | some i =>
          rw [located] at searched
          obtain ⟨lastKey, found, notSmaller, smaller⟩ := searched
          rw [index, List.getElem?_map] at found
          obtain ⟨block, atIndex, rfl⟩ := Option.map_eq_some_iff.mp found
          obtain ⟨size, decoded⟩ := decodes i block atIndex
          obtain ⟨c', loaded, coherent'⟩ := loadBlock_ok coherent serves decoded
          refine ⟨c', ?_, coherent'⟩
          obtain ⟨inside, rfl⟩ := List.getElem?_eq_some_iff.mp atIndex
          have split : blocks = blocks.take i ++ blocks[i] :: blocks.drop (i + 1) := by simp
          have inBlock : map.lookup key = lookupList key blocks[i] := by
            rw [SortedMap.lookup, ← entries]
            conv_lhs => rw [split]
            refine lookup_in_block (split ▸ nonempty) (split ▸ ascending) (fun b hb => ?_) notSmaller
            obtain ⟨j, inTake, rfl⟩ := List.mem_iff_getElem.mp hb
            rw [List.length_take] at inTake
            refine smaller j _ (by omega) ?_
            rw [index, List.getElem?_map, List.getElem_take, List.getElem?_eq_getElem (by omega)]
            rfl
          have ascendingBlock : AscendingKeys blocks[i] :=
            (List.pairwise_flatten.mp ascending).1 _ (List.getElem_mem inside)
          simp only
          rw [bind_apply_ok loaded, inBlock, searchBlock_eq ⟨blocks[i], size⟩ ascendingBlock key]
          rfl

theorem iterFrom_ok {blocks : List Entries} (coherent : Coherent truth c) (serves : Serves truth r)
    (decodes : ∀ i block, blocks[i]? = some block → ∃ size, r.decodeBlock i = .ok ⟨block, size⟩)
    (n i : Nat) (enough : i + n = blocks.length) :
    ∃ c', r.iterFrom n i c = .ok (blocks.drop i).flatten c' ∧ Coherent truth c' := by
  induction n generalizing i c with
  | zero =>
      refine ⟨c, ?_, coherent⟩
      rw [List.drop_eq_nil_of_le (by omega)]
      rfl
  | succ n inductionHypothesis =>
      have inside : i < blocks.length := by omega
      obtain ⟨size, decoded⟩ := decodes i blocks[i] (List.getElem?_eq_getElem inside)
      obtain ⟨c₁, loaded, coherent₁⟩ := loadBlock_ok coherent serves decoded
      obtain ⟨c', rest, coherent'⟩ := inductionHypothesis coherent₁ (i + 1) (by omega)
      refine ⟨c', ?_, coherent'⟩
      simp only [iterFrom, loaded]
      rw [bind_apply_ok rest, List.drop_eq_getElem_cons inside, List.flatten_cons]
      rfl

/-- **Iteration.** The iterator yields the entries of the map. -/
theorem iter_ok (holds : Holds r map) (coherent : Coherent truth c) (serves : Serves truth r) :
    ∃ c', r.iter c = .ok map.entries c' ∧ Coherent truth c' := by
  obtain ⟨blocks, entries, -, index, decodes⟩ := holds.blocks
  have length : r.index.length = blocks.length := by
    simpa using congrArg List.length index
  have run := iterFrom_ok coherent serves decodes r.index.length 0 (by omega)
  rwa [List.drop_zero, entries] at run

/-- The map a file stands for: what iterating it without a cache yields. -/
def contents (r : SSTableReader) : SortedMap Bytes Bytes :=
  match r.iter none with
  | .ok entries _ => SortedMap.empty.insertAll entries
  | .error _ _ => SortedMap.empty

theorem Holds.contents_eq (holds : Holds r map) : r.contents = map := by
  have coherent : Coherent (fun key block => r.decodeBlock key.blockIdx = .ok block) none :=
    ⟨by simp, by simp⟩
  obtain ⟨c', run, -⟩ := iter_ok holds coherent (fun _ _ => Iff.rfl)
  unfold contents
  rw [run]
  exact SortedMap.insertAll_entries_self

end Holds

end SSTableReader

end KvEngine
