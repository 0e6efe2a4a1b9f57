import KvEngine.Foundations.SortedMap
import KvEngine.Sstable.Builder
import KvEngine.Sstable.Reader

/-!
# The bytes of an SSTable

`image blocks bloom` is the file that holds the given blocks and filter.  The
builder writes such a file and the reader gets the blocks and the filter back
out of it, as long as every offset fits its `u32` field.
-/

namespace KvEngine

open Foundations

namespace Sstable

/-- The entries of one data block. -/
abbrev Entries := List (Bytes × Bytes)

/-- The bytes of one data block. -/
def encodeBlock (entries : Entries) : Bytes :=
  leBytes 4 entries.length ++ Block.encodeEntries [] entries

/-- The bytes of the data blocks. -/
def dataBytes (blocks : List Entries) : Bytes := blocks.flatMap encodeBlock

/-- The last key of a block. -/
def lastKeyOf (entries : Entries) : Bytes := (entries.getLast?.map Prod.fst).getD []

/-- The offset and last key of each block, the first one at `offset`. -/
def indexFrom : Nat → List Entries → List (Nat × Bytes)
  | _, [] => []
  | offset, block :: blocks =>
      (offset, lastKeyOf block) :: indexFrom (offset + (encodeBlock block).length) blocks

/-- One entry of the index block. -/
def encodeIndexEntry (e : Nat × Bytes) : Bytes := leBytes 4 e.1 ++ (leBytes 4 e.2.length ++ e.2)

/-- The bytes of the index block. -/
def indexBytes (index : List (Nat × Bytes)) : Bytes :=
  leBytes 4 index.length ++ index.flatMap encodeIndexEntry

/-- The bytes of the footer. -/
def footer (indexOffset bloomOffset : Nat) : Bytes := leBytes 4 indexOffset ++ leBytes 4 bloomOffset

/-- The file with the given blocks and filter. -/
def image (blocks : List Entries) (bloom : BloomFilter) : Bytes :=
  let data := dataBytes blocks
  let index := indexBytes (indexFrom 0 blocks)
  data ++ (index ++ (bloom.encode ++ footer data.length (data.length + index.length)))

/-! ## The index -/

@[simp] theorem dataBytes_append (l₁ l₂ : List Entries) :
    dataBytes (l₁ ++ l₂) = dataBytes l₁ ++ dataBytes l₂ := by
  simp [dataBytes]

@[simp] theorem dataBytes_cons (b : Entries) (l : List Entries) :
    dataBytes (b :: l) = encodeBlock b ++ dataBytes l := by
  simp [dataBytes]

theorem indexFrom_append (offset : Nat) (l₁ l₂ : List Entries) :
    indexFrom offset (l₁ ++ l₂) =
      indexFrom offset l₁ ++ indexFrom (offset + (dataBytes l₁).length) l₂ := by
  induction l₁ generalizing offset with
  | nil => simp [indexFrom, dataBytes]
  | cons b l₁ inductionHypothesis =>
      simp [indexFrom, inductionHypothesis, Nat.add_assoc]

@[simp] theorem length_indexFrom (offset : Nat) (blocks : List Entries) :
    (indexFrom offset blocks).length = blocks.length := by
  induction blocks generalizing offset with
  | nil => rfl
  | cons b blocks inductionHypothesis => simp [indexFrom, inductionHypothesis]

theorem map_snd_indexFrom (offset : Nat) (blocks : List Entries) :
    (indexFrom offset blocks).map Prod.snd = blocks.map lastKeyOf := by
  induction blocks generalizing offset with
  | nil => rfl
  | cons b blocks inductionHypothesis => simp [indexFrom, inductionHypothesis]

/-- The offsets lie within the data blocks, the keys are those of the blocks. -/
theorem mem_indexFrom {offset : Nat} {blocks : List Entries} {e : Nat × Bytes}
    (member : e ∈ indexFrom offset blocks) :
    e.1 ≤ offset + (dataBytes blocks).length ∧ ∃ b ∈ blocks, e.2 = lastKeyOf b := by
  induction blocks generalizing offset with
  | nil => cases member
  | cons b blocks inductionHypothesis =>
      rw [dataBytes_cons, List.length_append]
      rcases List.mem_cons.mp member with rfl | later
      · exact ⟨by omega, b, List.mem_cons_self, rfl⟩
      · obtain ⟨bound, b', member', same⟩ := inductionHypothesis later
        exact ⟨by omega, b', List.mem_cons_of_mem _ member', same⟩

/-- The index at the position of a block. -/
theorem getElem?_indexFrom (before after : List Entries) (block : Entries) :
    (indexFrom 0 (before ++ block :: after))[before.length]? =
      some ((dataBytes before).length, lastKeyOf block) := by
  rw [indexFrom_append, List.getElem?_append_right (by simp)]
  simp [indexFrom]

/-- Where the index says that a block ends. -/
theorem getElem?_indexFrom_succ (before after : List Entries) (block : Entries) :
    ((indexFrom 0 (before ++ block :: after))[before.length + 1]?.map Prod.fst).getD
        (dataBytes (before ++ block :: after)).length =
      (dataBytes before).length + (encodeBlock block).length := by
  rw [indexFrom_append, List.getElem?_append_right (by simp)]
  cases after with
  | nil => simp [indexFrom, dataBytes]
  | cons b after => simp [indexFrom]

/-! ## Lengths -/

theorem lt_of_prefix {a b : Bytes} (less : a < b) : Block.prefixSharedLen a b < b.length := by
  by_contra notLess
  have all : Block.prefixSharedLen a b = b.length :=
    le_antisymm (Block.prefixSharedLen_le a b) (not_lt.mp notLess)
  have front := Block.take_prefixSharedLen a b
  rw [all, List.take_length] at front
  have isPrefix : b <+: a := front ▸ List.take_prefix b.length a
  exact List.IsPrefix.le isPrefix less

/-- An entry above the one before it takes at least nine bytes. -/
theorem nine_mul_le_encodeEntries (prevKey : Bytes) {entries : Entries}
    (above : ∀ e ∈ entries, prevKey < e.1) (ascending : AscendingKeys entries) :
    9 * entries.length ≤ (Block.encodeEntries prevKey entries).length := by
  induction entries generalizing prevKey with
  | nil => simp
  | cons e entries inductionHypothesis =>
      obtain ⟨key, value⟩ := e
      obtain ⟨lower, ascendingRest⟩ := List.pairwise_cons.mp ascending
      have rest := inductionHypothesis key lower ascendingRest
      have shorter := lt_of_prefix (above _ List.mem_cons_self)
      simp only [Block.encodeEntries, List.length_append, Block.length_encodeEntry,
        List.length_cons] at *
      omega

/-- So the data blocks take at least nine bytes for each entry. -/
theorem nine_mul_le_dataBytes (blocks : List Entries) (ascending : AscendingKeys blocks.flatten) :
    9 * blocks.flatten.length ≤ (dataBytes blocks).length := by
  induction blocks with
  | nil => simp
  | cons block blocks inductionHypothesis =>
      rw [List.flatten_cons] at ascending
      obtain ⟨ascendingBlock, ascendingRest, -⟩ := List.pairwise_append.mp ascending
      have rest := inductionHypothesis ascendingRest
      have first : 9 * block.length ≤ (encodeBlock block).length := by
        rw [encodeBlock, List.length_append, length_leBytes]
        cases block with
        | nil => simp
        | cons e block =>
            obtain ⟨key, value⟩ := e
            obtain ⟨lower, ascendingTail⟩ := List.pairwise_cons.mp ascendingBlock
            have tail := nine_mul_le_encodeEntries key lower ascendingTail
            simp only [Block.encodeEntries, List.length_append, Block.length_encodeEntry,
              List.length_cons]
            omega
      simp only [List.flatten_cons, dataBytes_cons, List.length_append]
      omega

theorem length_value_le (prevKey : Bytes) {entries : Entries} {e : Bytes × Bytes}
    (member : e ∈ entries) :
    e.2.length ≤ (Block.encodeEntries prevKey entries).length := by
  induction entries generalizing prevKey with
  | nil => cases member
  | cons e' entries inductionHypothesis =>
      obtain ⟨key, value⟩ := e'
      rw [Block.encodeEntries, List.length_append, Block.length_encodeEntry]
      rcases List.mem_cons.mp member with rfl | later
      · change value.length ≤ _
        omega
      · have rest := inductionHypothesis key later
        omega

theorem length_le_encodeEntries (prevKey : Bytes) (entries : Entries) :
    entries.length ≤ (Block.encodeEntries prevKey entries).length := by
  induction entries generalizing prevKey with
  | nil => simp
  | cons e entries inductionHypothesis =>
      obtain ⟨key, value⟩ := e
      have rest := inductionHypothesis key
      rw [Block.encodeEntries, List.length_append, Block.length_encodeEntry, List.length_cons]
      omega

theorem length_image (blocks : List Entries) (bloom : BloomFilter) :
    (image blocks bloom).length =
      (dataBytes blocks).length + (indexBytes (indexFrom 0 blocks)).length +
        bloom.encode.length + 8 := by
  simp only [image, footer, List.length_append, length_leBytes]
  omega

theorem length_lt_indexBytes (index : List (Nat × Bytes)) :
    index.length < (indexBytes index).length := by
  have entries : index.length ≤ (index.flatMap encodeIndexEntry).length := by
    induction index with
    | nil => simp
    | cons e index inductionHypothesis =>
        simp only [List.flatMap_cons, List.length_append, encodeIndexEntry, length_leBytes,
          List.length_cons]
        omega
  rw [indexBytes, List.length_append, length_leBytes]
  omega

/-! ## Reading the file back -/

theorem parseIndexEntries_ok (data : Bytes) (index : List (Nat × Bytes)) (before after : Bytes)
    (layout : data = before ++ (index.flatMap encodeIndexEntry ++ after))
    (small : ∀ e ∈ index, e.1 < 2 ^ 32 ∧ e.2.length < 2 ^ 32) :
    SSTableReader.parseIndexEntries data index.length before.length = .ok index := by
  induction index generalizing before with
  | nil => rfl
  | cons e index inductionHypothesis =>
      obtain ⟨offset, lastKey⟩ := e
      obtain ⟨offsetFits, keyFits⟩ := small _ List.mem_cons_self
      rw [List.flatMap_cons, List.append_assoc, encodeIndexEntry] at layout
      have total : data.length = before.length + (4 + (4 + lastKey.length) +
          ((index.flatMap encodeIndexEntry).length + after.length)) := by
        rw [layout]
        simp only [List.length_append, length_leBytes]
      have readOffset : u32At data before.length = .ok offset :=
        leAt_append before
          (leBytes 4 lastKey.length ++ (lastKey ++ (index.flatMap encodeIndexEntry ++ after)))
          (by rw [layout]; simp only [List.append_assoc]) rfl offsetFits
      have readLength : u32At data (before.length + 4) = .ok lastKey.length :=
        leAt_append (before ++ leBytes 4 offset)
          (lastKey ++ (index.flatMap encodeIndexEntry ++ after))
          (by rw [layout]; simp only [List.append_assoc]) (by simp) keyFits
      have readKey : slice data (before.length + 8) (before.length + 8 + lastKey.length) =
          .ok lastKey :=
        slice_append (before ++ leBytes 4 offset ++ leBytes 4 lastKey.length)
          (index.flatMap encodeIndexEntry ++ after)
          (by rw [layout]; simp only [List.append_assoc]) (by simp) rfl
      have rest := inductionHypothesis
        (before ++ (leBytes 4 offset ++ (leBytes 4 lastKey.length ++ lastKey)))
        (by rw [layout]; simp only [List.append_assoc])
        (fun e he => small e (List.mem_cons_of_mem _ he))
      simp only [List.length_append, length_leBytes] at rest
      rw [show before.length + (4 + (4 + lastKey.length)) = before.length + 8 + lastKey.length by
        omega] at rest
      rw [List.length_cons, SSTableReader.parseIndexEntries, if_neg (by omega)]
      simp only [readOffset, Result.ok_bind, readLength]
      rw [if_neg (by omega)]
      simp only [readKey, Result.ok_bind, rest]

/-- What opening a file with the given blocks and filter yields. -/
def readerOf (blocks : List Entries) (bloom : BloomFilter) (sstId : Nat) : SSTableReader where
  data := image blocks bloom
  index := indexFrom 0 blocks
  indexOffset := (dataBytes blocks).length
  bloom
  sstId

theorem lastKeyOf_length {block : Entries} (keys : ∀ e ∈ block, e.1.length < 2 ^ 16) :
    (lastKeyOf block).length < 2 ^ 16 := by
  unfold lastKeyOf
  cases last : block.getLast? with
  | none => simp
  | some e => simpa using keys e (List.mem_of_getLast? last)

/-- **The file is read back.** -/
theorem parse_image {blocks : List Entries} {bloom : BloomFilter} (sstId : Nat)
    (small : (image blocks bloom).length < 2 ^ 32)
    (keys : ∀ block ∈ blocks, ∀ e ∈ block, e.1.length < 2 ^ 16)
    (filter : BloomFilter.decode bloom.encode = .ok bloom) :
    SSTableReader.parse (image blocks bloom) sstId = .ok (readerOf blocks bloom sstId) := by
  have total := length_image blocks bloom
  have count := length_lt_indexBytes (indexFrom 0 blocks)
  rw [length_indexFrom] at count
  have layout : image blocks bloom = dataBytes blocks ++ (indexBytes (indexFrom 0 blocks) ++
      (bloom.encode ++ footer (dataBytes blocks).length
        ((dataBytes blocks).length + (indexBytes (indexFrom 0 blocks)).length))) := rfl
  unfold readerOf
  generalize image blocks bloom = data at *
  have readIndexOffset : u32At data (data.length - 8) = .ok (dataBytes blocks).length :=
    leAt_append (dataBytes blocks ++ (indexBytes (indexFrom 0 blocks) ++ bloom.encode))
      (leBytes 4 ((dataBytes blocks).length + (indexBytes (indexFrom 0 blocks)).length))
      (by rw [layout, footer]; simp only [List.append_assoc])
      (by simp only [List.length_append]; omega) (by omega)
  have readBloomOffset : u32At data (data.length - 4) =
      .ok ((dataBytes blocks).length + (indexBytes (indexFrom 0 blocks)).length) :=
    leAt_append (dataBytes blocks ++ (indexBytes (indexFrom 0 blocks) ++ (bloom.encode ++
        leBytes 4 (dataBytes blocks).length))) []
      (by rw [layout, footer]; simp only [List.append_assoc, List.append_nil])
      (by simp only [List.length_append, length_leBytes]; omega) (by omega)
  have readBloom : slice data
      ((dataBytes blocks).length + (indexBytes (indexFrom 0 blocks)).length) (data.length - 8) =
      .ok bloom.encode :=
    slice_append (dataBytes blocks ++ indexBytes (indexFrom 0 blocks))
      (footer (dataBytes blocks).length
        ((dataBytes blocks).length + (indexBytes (indexFrom 0 blocks)).length))
      (by rw [layout]; simp only [List.append_assoc]) (by simp) (by omega)
  have readCount : u32At data (dataBytes blocks).length = .ok blocks.length :=
    leAt_append (dataBytes blocks)
      ((indexFrom 0 blocks).flatMap encodeIndexEntry ++ (bloom.encode ++
        footer (dataBytes blocks).length
          ((dataBytes blocks).length + (indexBytes (indexFrom 0 blocks)).length)))
      (by
        rw [layout]
        simp only [indexBytes, length_indexFrom, List.append_assoc])
      rfl (by omega)
  have readEntries := parseIndexEntries_ok data (indexFrom 0 blocks)
    (dataBytes blocks ++ leBytes 4 blocks.length)
    (bloom.encode ++ footer (dataBytes blocks).length
      ((dataBytes blocks).length + (indexBytes (indexFrom 0 blocks)).length))
    (by
      rw [layout]
      simp only [indexBytes, length_indexFrom, List.append_assoc])
    (fun e he => by
      obtain ⟨bound, b, member, same⟩ := mem_indexFrom he
      have short := lastKeyOf_length (keys b member)
      rw [same]
      omega)
  simp only [List.length_append, length_leBytes, length_indexFrom] at readEntries
  have readIndex : SSTableReader.parseIndex data (dataBytes blocks).length =
      .ok (indexFrom 0 blocks) := by
    rw [SSTableReader.parseIndex, if_neg (by omega)]
    simp only [readCount, Result.ok_bind, readEntries]
  rw [SSTableReader.parse, if_neg (by omega)]
  simp only [readIndexOffset, Result.ok_bind, readBloomOffset, readIndex, readBloom, filter]

/-- A block is cut out between its offset and the next one. -/
theorem decodeBlock_eq {r : SSTableReader} {i : Nat} (start stop : Nat)
    (atIndex : r.index[i]?.map Prod.fst = some start)
    (atNext : (r.index[i + 1]?.map Prod.fst).getD r.indexOffset = stop)
    (ordered : start ≤ stop) (inside : stop ≤ r.data.length) :
    r.decodeBlock i = slice r.data start stop >>= Block.decode := by
  obtain ⟨e, found, rfl⟩ := Option.map_eq_some_iff.mp atIndex
  subst atNext
  unfold SSTableReader.decodeBlock
  rw [found]
  cases next : r.index[i + 1]? with
  | none =>
      simp only [next, Option.map_none, Option.getD_none] at ordered inside
      simp only [orPanic_some, Result.ok_bind, Option.map_none, Option.getD_none]
      rw [if_neg (by omega)]
  | some e' =>
      simp only [next, Option.map_some, Option.getD_some] at ordered inside
      simp only [orPanic_some, Result.ok_bind, Option.map_some, Option.getD_some]
      rw [if_neg (by omega)]

/-- **A block is read back** at its position in the index. -/
theorem decodeBlock_readerOf {before after : List Entries} {block : Entries} {bloom : BloomFilter}
    (sstId : Nat) (small : (image (before ++ block :: after) bloom).length < 2 ^ 32)
    (keys : ∀ e ∈ block, e.1.length < 2 ^ 16) :
    (readerOf (before ++ block :: after) bloom sstId).decodeBlock before.length =
      .ok { entries := block, encodedSize := (Block.encodeEntries [] block).length } := by
  have total := length_image (before ++ block :: after) bloom
  have blockLength : (encodeBlock block).length = 4 + (Block.encodeEntries [] block).length := by
    rw [encodeBlock, List.length_append, length_leBytes]
  have count := length_le_encodeEntries [] block
  rw [dataBytes_append, dataBytes_cons, List.length_append, List.length_append] at total
  have decoded : Block.decode (encodeBlock block) =
      .ok { entries := block, encodedSize := (Block.encodeEntries [] block).length } :=
    Block.decode_encode (b := ⟨block, 0⟩) (by change block.length < 2 ^ 32; omega) fun e he =>
      ⟨keys e he, by
        have value : e.2.length ≤ (Block.encodeEntries [] block).length := length_value_le [] he
        omega⟩
  have cut : slice (image (before ++ block :: after) bloom) (dataBytes before).length
      ((dataBytes before).length + (encodeBlock block).length) = .ok (encodeBlock block) :=
    slice_append (dataBytes before)
      (dataBytes after ++ (indexBytes (indexFrom 0 (before ++ block :: after)) ++
        (bloom.encode ++ footer (dataBytes (before ++ block :: after)).length
          ((dataBytes (before ++ block :: after)).length +
            (indexBytes (indexFrom 0 (before ++ block :: after))).length))))
      (by
        unfold image
        simp only [dataBytes_append, dataBytes_cons, List.append_assoc])
      rfl rfl
  have start := getElem?_indexFrom before after block
  have stop := getElem?_indexFrom_succ before after block
  rw [decodeBlock_eq (dataBytes before).length
    ((dataBytes before).length + (encodeBlock block).length)]
  · exact (congrArg (· >>= Block.decode) cut).trans decoded
  · exact congrArg (Option.map Prod.fst) start
  · exact stop
  · omega
  · change _ ≤ (image (before ++ block :: after) bloom).length
    omega

end Sstable

end KvEngine
