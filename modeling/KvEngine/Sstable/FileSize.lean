import KvEngine.Foundations.Weight
import KvEngine.Sstable.BuilderRun

/-!
# How large an SSTable gets

Whatever the size of its blocks, a table takes up at most `footprint` bytes for each of its
entries, and forty more.
-/

namespace KvEngine

open Foundations Sstable

/-- The bytes that an entry takes up at most: in its block, which may be one of its own, in the
index and in the filter. -/
def footprint (b : Bytes × Bytes) : Nat := 2 * b.1.length + b.2.length + 22

namespace SSTableBuilder

theorem length_encodeEntries_le (prevKey : Bytes) (entries : Entries) :
    (Block.encodeEntries prevKey entries).length ≤
      weigh (fun b => b.1.length + b.2.length + 8) entries := by
  induction entries generalizing prevKey with
  | nil => exact le_rfl
  | cons b entries inductionHypothesis =>
      obtain ⟨key, value⟩ := b
      have rest := inductionHypothesis key
      simp only [Block.encodeEntries, Block.encodeEntry, List.length_append, length_leBytes,
        List.length_drop, weigh_cons]
      omega

/-- The header of a block is charged to its entries. -/
theorem length_dataBytes_le (blocks : List Entries) (nonempty : ∀ b ∈ blocks, b ≠ []) :
    (dataBytes blocks).length ≤ weigh (fun b => b.1.length + b.2.length + 12) blocks.flatten := by
  induction blocks with
  | nil => exact le_rfl
  | cons block blocks inductionHypothesis =>
      have rest := inductionHypothesis fun b member => nonempty b (List.mem_cons_of_mem _ member)
      have entries := length_encodeEntries_le [] block
      have some := List.length_pos_iff.mpr (nonempty block List.mem_cons_self)
      have charged : weigh (fun b => b.1.length + b.2.length + 12) block =
          weigh (fun b => b.1.length + b.2.length + 8) block + 4 * block.length :=
        weigh_add_const 4 block
      simp only [dataBytes_cons, encodeBlock, List.length_append, length_leBytes, List.flatten_cons,
        weigh_append]
      omega

theorem length_lastKeyOf_le (block : Entries) :
    (lastKeyOf block).length ≤ weigh (fun b => b.1.length) block := by
  unfold lastKeyOf
  cases last : block.getLast? with
  | none => exact Nat.zero_le _
  | some b => exact le_weigh_of_mem (c := fun b => b.1.length) (List.mem_of_getLast? last)

theorem length_indexBytes_le (blocks : List Entries) (nonempty : ∀ b ∈ blocks, b ≠ [])
    (offset : Nat) : (indexBytes (indexFrom offset blocks)).length ≤
      weigh (fun b => b.1.length + 8) blocks.flatten + 4 := by
  rw [indexBytes, List.length_append, length_leBytes]
  induction blocks generalizing offset with
  | nil => exact le_rfl
  | cons block blocks inductionHypothesis =>
      have rest := inductionHypothesis (fun b member => nonempty b (List.mem_cons_of_mem _ member))
        (offset + (encodeBlock block).length)
      have key := length_lastKeyOf_le block
      have some := List.length_pos_iff.mpr (nonempty block List.mem_cons_self)
      have charged := weigh_add_const (c := fun b : Bytes × Bytes => b.1.length) 8 block
      simp only [indexFrom, List.flatMap_cons, encodeIndexEntry, List.length_append, length_leBytes,
        List.flatten_cons, weigh_append]
      omega

theorem length_filterOf_le (entries : Entries) :
    (filterOf entries).encode.length ≤ 2 * entries.length + 28 := by
  obtain ⟨bloom, built, -, -, bits, words, -⟩ :=
    BloomFilter.build_ok (entries.map Prod.fst) defaultBitsPerKey
  have isFilter : filterOf entries = bloom := by rw [filterOf, built]
  rw [isFilter, BloomFilter.encode, List.length_append, List.length_append, List.length_append,
    BloomFilter.length_flatMap_leBytes, words, bits, List.length_map]
  simp only [length_leBytes, defaultBitsPerKey]
  omega

/-- **A bound for the size of a table.** -/
theorem countedLength_le (blockSize : Nat) (entries : Entries) :
    countedLength blockSize entries ≤ weigh footprint entries + 32 := by
  obtain ⟨(flatten : _ = entries), nonempty⟩ := pack_flatten blockSize counted_new entries
  have data := length_dataBytes_le _ nonempty
  have index := length_indexBytes_le _ nonempty 0
  have filter := length_filterOf_le entries
  rw [flatten] at data index
  have shares : weigh footprint entries =
      weigh (fun b => b.1.length + b.2.length + 12) entries +
        weigh (fun b => b.1.length + 8) entries + 2 * entries.length := by
    rw [← weigh_add, ← weigh_add_const]
    congr 1
    funext b
    simp only [footprint]
    omega
  unfold countedLength bodyLength
  omega

theorem length_fileBytes_le (blockSize : Nat) (entries : Entries) :
    (fileBytes blockSize entries).length ≤ weigh footprint entries + 40 := by
  have counted := countedLength_le blockSize entries
  rw [length_fileBytes]
  omega

end SSTableBuilder

end KvEngine
