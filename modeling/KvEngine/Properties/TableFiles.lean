import KvEngine.Sstable.BuilderRun
import KvEngine.Sstable.ReaderSpec

/-!
# Table files

What the builder writes, the reader opens, iterates over and answers lookups from.
-/

namespace KvEngine

open Foundations Sstable SSTableBuilder

/-- **Round trip of a table file.** For entries in ascending order, every block size and
every file that stays below the range of its offsets, building succeeds, the file opens,
iteration yields the entries, and a lookup finds exactly them. -/
theorem sstable_round_trip {entries : Entries} {s : Sys} (ascending : AscendingKeys entries)
    (keys : ∀ b ∈ entries, b.1.length ≤ 65535) (blockSize sstId : Nat) (path : FileName)
    (faultless : s.env.Faultless) (small : (fileBytes blockSize entries).length < 2 ^ 32) :
    ∃ s' r s'', Ends (build path blockSize entries) s () s' ∧
      s'.dir.lookup path = some (fileBytes blockSize entries) ∧
      Ends (SSTableReader.openWithCache path sstId) s' r s'' ∧
      answer r.iter none = .ok entries ∧
      ∀ q, ∃ found, answer (r.get q) none = .ok found ∧ ∀ v, found = some v ↔ (q, v) ∈ entries := by
  obtain ⟨s', run, did, present⟩ := build_run faultless path blockSize entries
    (by rw [length_fileBytes] at small; omega)
  obtain ⟨ops, did, -⟩ := did
  obtain ⟨flatten, nonempty⟩ := pack_flatten blockSize counted_new entries
  obtain ⟨r, parsed, -, holds⟩ := @SSTableReader.parse_built ⟨entries, ascending⟩ _ _ sstId small
    (fun b hb => Nat.lt_succ_of_le (keys b hb)) flatten nonempty (build_filterOf entries)
  obtain ⟨s'', read⟩ := readFile_run (s := s') (by rw [did.env]; exact faultless) present
  have coherent : SSTableReader.Coherent (fun key block => r.decodeBlock key.blockIdx = .ok block)
      none := ⟨by simp, by simp⟩
  refine ⟨s', r, s'', run, present, ?_, ?_, fun q => ?_⟩
  · exact ends_bind.mpr ⟨_, s'', read, ends_liftResult.mpr ⟨parsed, rfl⟩⟩
  · obtain ⟨c, iterates, -⟩ := SSTableReader.iter_ok holds coherent (fun _ _ => Iff.rfl)
    exact answer_of_ok iterates
  · obtain ⟨c, looks, -⟩ := SSTableReader.get_ok holds coherent (fun _ _ => Iff.rfl) q
    exact ⟨_, answer_of_ok looks, fun v => SortedMap.mem_entries.symm⟩

/-- Two entries in blocks of their own, with an empty key in front. -/
theorem sstable_round_trip_two : ∃ s' r s'',
    Ends (build (.sst 1) 0 [([], [7]), ([1], [])])
      ⟨∅, [], ⟨fun _ => 0, fun _ => 0, fun _ => 0, fun _ => none⟩, 0, 0, 0⟩ () s' ∧
    Ends (SSTableReader.openWithCache (.sst 1) 1) s' r s'' ∧
    answer r.iter none = .ok [([], [7]), ([1], [])] := by
  obtain ⟨s', r, s'', built, -, opened, iterates, -⟩ :=
    @sstable_round_trip [([], [7]), ([1], [])]
      ⟨∅, [], ⟨fun _ => 0, fun _ => 0, fun _ => 0, fun _ => none⟩, 0, 0, 0⟩
      (by unfold AscendingKeys; decide) (by decide) 0 1 (.sst 1) (fun _ => rfl)
      (by decide +kernel)
  exact ⟨s', r, s'', built, opened, iterates⟩

end KvEngine
