import KvEngine.Engine.Failures
import KvEngine.Sstable.BuilderFaults
import KvEngine.Sstable.BuilderRun

/-!
# When the offsets of a table file are exact

The builder counts what it writes in a `u32`.  As long as the blocks, the index and the filter
stay below `2 ^ 32` bytes together, the count is exact in every environment; beyond that it
overflows, or a length is cut down on the way.
-/

namespace KvEngine

open Foundations Sstable

namespace SSTableBuilder

/-- Building returns an `Err`; or it writes the file in which the index, the offset of the index
and the offset of the filter tell the positions of these parts, and each fits its `u32`. -/
def ExactOrErr (s : Sys) (path : FileName) (blockSize : Nat) (entries : Entries) : Prop :=
  (∃ k s', build path blockSize entries s = .error (.err k) s') ∨
    ∃ s', build path blockSize entries s = .ok () s' ∧
      s'.dir.lookup path = some (fileBytes blockSize entries) ∧
      bodyLength blockSize entries < 2 ^ 32

/-- The data blocks hold a header and the value of every entry. -/
theorem values_le_dataBytes (blocks : List Entries) :
    8 * blocks.flatten.length + (blocks.flatten.map (fun e => e.2.length)).sum ≤
      (dataBytes blocks).length := by
  have entries : ∀ (prevKey : Bytes) (block : Entries),
      8 * block.length + (block.map (fun e => e.2.length)).sum ≤
        (Block.encodeEntries prevKey block).length := by
    intro prevKey block
    induction block generalizing prevKey with
    | nil => exact Nat.zero_le _
    | cons e block inductionHypothesis =>
        have rest := inductionHypothesis e.1
        simp only [List.map_cons, List.sum_cons, List.length_cons, Block.encodeEntries,
          List.length_append, Block.length_encodeEntry]
        omega
  induction blocks with
  | nil => exact Nat.zero_le _
  | cons block blocks inductionHypothesis =>
      have first := entries [] block
      rw [List.flatten_cons, List.map_append, List.sum_append, List.length_append, dataBytes_cons,
        encodeBlock, List.length_append, List.length_append]
      omega

/-- The filter is smaller than the data blocks, or of a small size. -/
theorem length_filterOf (entries : Entries) :
    (filterOf entries).encode.length ≤ 20 + 2 * entries.length := by
  obtain ⟨bloom, built, -, -, bits, words, -⟩ :=
    BloomFilter.build_ok (entries.map Prod.fst) defaultBitsPerKey
  have same : filterOf entries = bloom := by rw [filterOf, built]
  rw [List.length_map] at bits
  rw [same, BloomFilter.encode]
  simp only [List.length_append, length_leBytes, BloomFilter.length_flatMap_leBytes]
  unfold defaultBitsPerKey at bits
  omega

theorem values_le_bodyLength (blockSize : Nat) (entries : Entries) :
    8 * entries.length + (entries.map (fun e => e.2.length)).sum ≤ bodyLength blockSize entries := by
  have data := values_le_dataBytes (pack blockSize Block.new entries)
  rw [(pack_flatten blockSize counted_new entries).1] at data
  exact Nat.le_trans data (Nat.le_add_right _ _)

/-- A world in which no file operation fails. -/
def calmSys : Sys :=
  ⟨∅, [], ⟨fun _ => 0, fun _ => 0, fun _ => 0, fun _ => none⟩, 0, 0, 0⟩

/-- If the offsets are exact where nothing fails, the builder did not count too many bytes. -/
theorem counted_lt_of_exact {s : Sys} (faultless : s.env.Faultless) {path : FileName}
    {blockSize : Nat} {entries : Entries} (exactOrErr : ExactOrErr s path blockSize entries) :
    countedLength blockSize entries < 2 ^ 32 := by
  rcases exactOrErr with ⟨k, s', failed⟩ | ⟨s', run, -, body⟩
  · exact absurd failed ((reliable_build path blockSize entries).notErr faultless)
  · by_contra large
    have count := values_le_bodyLength blockSize entries
    have filter := length_filterOf entries
    obtain ⟨s'', panicked⟩ := build_panics faultless path blockSize entries body (by omega)
      (Nat.not_lt.mp large)
    rw [run] at panicked
    cases panicked

/-- **The offsets** are exact, or the builder returns an error, in every environment if and only
if the blocks, the index and the filter take less than `2 ^ 32` bytes. -/
theorem offsets_exact_iff (blockSize : Nat) (entries : Entries) :
    (∀ s path, ExactOrErr s path blockSize entries) ↔
      countedLength blockSize entries < 2 ^ 32 := by
  refine ⟨fun all => counted_lt_of_exact (s := calmSys) (fun _ => rfl) (all calmSys (.sst 1)),
    fun small s path => ?_⟩
  have body : bodyLength blockSize entries < 2 ^ 32 :=
    Nat.lt_of_le_of_lt (Nat.le_add_right _ _) small
  obtain ⟨t, run, created⟩ := build_run (faultless_calm s) path blockSize entries small
  rcases shadows_build path blockSize entries s () t run with ⟨_, s', failed, k, rfl⟩ | ⟨s', ended, rfl⟩
  · exact Or.inl ⟨k, s', failed⟩
  · exact Or.inr ⟨s', ended, created.present, body⟩

/-- Entries whose values have a given size. -/
def evenEntries (count size : Nat) : Entries :=
  (List.range count).map (fun i => (List.replicate i 0, List.replicate size 0))

theorem ascending_evenEntries (count size : Nat) : AscendingKeys (evenEntries count size) := by
  refine List.pairwise_map.mpr (List.pairwise_lt_range.imp fun {i j} less => ?_)
  show List.replicate i (0 : UInt8) < List.replicate j 0
  have isPrefix : List.replicate i (0 : UInt8) <+: List.replicate j 0 := by
    refine List.prefix_iff_eq_take.mpr ?_
    rw [List.length_replicate, List.take_replicate, Nat.min_eq_left (Nat.le_of_lt less)]
  rcases lt_trichotomy (List.replicate i (0 : UInt8)) (List.replicate j 0) with
    below | same | above
  · exact below
  · have lengths := congrArg List.length same
    rw [List.length_replicate, List.length_replicate] at lengths
    omega
  · exact absurd above (List.IsPrefix.le isPrefix)

theorem sum_evenEntries (count size : Nat) :
    ((evenEntries count size).map (fun e => e.2.length)).sum = count * size := by
  unfold evenEntries
  rw [List.map_map]
  simp [Function.comp_def]

theorem large_evenEntries {count size : Nat} (large : 2 ^ 32 ≤ count * size) (blockSize : Nat) :
    ¬∀ s path, ExactOrErr s path blockSize (evenEntries count size) := by
  intro all
  have counted := counted_lt_of_exact (s := calmSys) (fun _ => rfl) (all calmSys (.sst 1))
  have values := values_le_bodyLength blockSize (evenEntries count size)
  rw [sum_evenEntries] at values
  unfold countedLength at counted
  omega

/-- The offsets are not exact for 65536 entries with values of 64 KiB. -/
theorem not_alwaysExact : ¬∀ blockSize entries, AscendingKeys entries →
    ∀ s path, ExactOrErr s path blockSize entries := by
  intro all
  refine @large_evenEntries 65536 65536 (by decide) 4096 fun s path => ?_
  exact all 4096 (evenEntries 65536 65536) (ascending_evenEntries 65536 65536) s path

end SSTableBuilder

end KvEngine
