import KvEngine.Sstable.Layout

/-!
# The builder writes an image

The builder is followed method by method.  `Emitted` says which bytes it has
handed to its file so far, `Progress` which blocks and entries those bytes stand
for; its offsets are `u32`, so they are exact as long as the bytes stay below
`2 ^ 32`.
-/

namespace KvEngine

open Foundations Sstable

namespace SSTableBuilder

/-! ## Bytes handed to the file -/

/-- Since `start` the builder created the file at `path` and handed `data` to it. -/
structure Emitted (start : Sys) (path : FileName) (data : Bytes) (p : SSTableBuilder × Sys) :
    Prop where
  target : p.1.file.path = path
  did : ∃ ops, start.Did (.truncate path :: ops) p.2 ∧ ∀ op ∈ ops, ∃ d, op = .append path d
  content : ∃ onDisk, p.2.dir.lookup path = some onDisk ∧ onDisk ++ p.1.file.buf = data

section Emitted

variable {start : Sys} {path : FileName} {data : Bytes} {p p' : SSTableBuilder × Sys} {u : Unit}

/-- Only the file of the builder changed. -/
theorem Emitted.of_wrote {more : Bytes} {q : BufWriter × Sys}
    (emitted : Emitted start path data p) (wrote : BufWriter.Wrote (p.1.file, p.2) more q) :
    Emitted start path (data ++ more) ({ p.1 with file := q.1 }, q.2) := by
  obtain ⟨ops, did, appends⟩ := emitted.did
  obtain ⟨ops', did', appends'⟩ := wrote.did
  obtain ⟨onDisk, present, content⟩ := emitted.content
  refine ⟨wrote.path.trans emitted.target, ⟨ops ++ ops', did.trans did', ?_⟩, ?_⟩
  · intro op hop
    rcases List.mem_append.mp hop with old | new
    · exact appends op old
    · exact emitted.target ▸ appends' op new
  · obtain ⟨onDisk', present', content'⟩ := wrote.content onDisk (emitted.target ▸ present)
    exact ⟨onDisk', emitted.target ▸ present', by rw [content', content]⟩

theorem ends_write {more : Bytes} (emitted : Emitted start path data p)
    (run : Ends (write more) p u p') :
    Emitted start path (data ++ more) p' ∧ ∃ file, p'.1 = { p.1 with file } := by
  simp only [write, ends_zoom] at run
  obtain ⟨q, wrote, rfl⟩ := run
  exact ⟨emitted.of_wrote (BufWriter.wrote_writeAll wrote), _, rfl⟩

/-- The state of a builder apart from its file does not change what it emitted. -/
theorem Emitted.congr (emitted : Emitted start path data p) (p' : SSTableBuilder × Sys)
    (file : p'.1.file = p.1.file)
    (sys : p'.2 = p.2) : Emitted start path data p' := by
  refine ⟨?_, ?_, ?_⟩
  · rw [file]
    exact emitted.target
  · rw [sys]
    exact emitted.did
  · rw [file, sys]
    exact emitted.content

theorem ends_advance {n : Nat} (emitted : Emitted start path data p)
    (run : Ends (advance n) p u p') :
    Emitted start path data p' ∧
      p'.1 = { p.1 with bytesWritten := p.1.bytesWritten + n } := by
  simp only [advance, ends_bind, ends_get, ends_liftResult, checkedAdd_eq_ok, ends_modify] at run
  obtain ⟨a, s₁, ⟨rfl, rfl⟩, n', s₂, ⟨⟨-, rfl⟩, rfl⟩, rfl⟩ := run
  exact ⟨emitted.congr _ rfl rfl, rfl⟩

end Emitted

/-! ## Blocks -/

/-- The builder has written the blocks `done` and still holds the entries `rest`. -/
structure Progress (start : Sys) (path : FileName) (done : List Entries) (rest : Entries)
    (p : SSTableBuilder × Sys) : Prop where
  emitted : Emitted start path (dataBytes done) p
  nonempty : ∀ block ∈ done, block ≠ []
  current : p.1.currentBlock.entries = rest
  keys : p.1.allKeys = (done.flatten ++ rest).map Prod.fst
  exact : (dataBytes done).length < 2 ^ 32 →
    p.1.bytesWritten = (dataBytes done).length ∧ p.1.indexEntries = indexFrom 0 done

section Progress

variable {start : Sys} {path : FileName} {done : List Entries} {rest : Entries}
  {p p' : SSTableBuilder × Sys} {u : Unit}

/-- Writing out the current block moves its entries to the written blocks. -/
theorem ends_flushBlock (progress : Progress start path done rest p)
    (run : Ends flushBlock p u p') : Progress start path (done ++ [rest]) [] p' := by
  simp only [flushBlock, ends_bind, ends_get, ends_liftResult, ends_modify] at run
  obtain ⟨a, p₀, ⟨rfl, rfl⟩, lastKey, p₁, ⟨last, rfl⟩, u₂, p₂, wrote, u₃, p₃, indexed, u₄, p₄,
    advanced, rfl⟩ := run
  obtain ⟨emitted, file, others⟩ := ends_write progress.emitted wrote
  obtain ⟨counted, written⟩ := ends_advance
    (emitted.congr p₃ (by rw [indexed]) (by rw [indexed])) advanced
  have encoded : p₁.1.currentBlock.encode = encodeBlock rest := by
    rw [← progress.current]
    rfl
  rw [encoded] at counted written
  rw [Block.lastKey, orPanic_eq_ok, progress.current] at last
  have lastKeyIs : lastKey = lastKeyOf rest := by
    rw [lastKeyOf, last]
    rfl
  have bytes : dataBytes (done ++ [rest]) = dataBytes done ++ encodeBlock rest := by
    simp [dataBytes]
  refine ⟨?_, ?_, rfl, ?_, fun small => ?_⟩
  · rw [bytes]
    exact counted.congr _ rfl rfl
  · intro block member
    rcases List.mem_append.mp member with old | new
    · exact progress.nonempty block old
    · rw [List.mem_singleton.mp new]
      rintro rfl
      simp at last
  · simpa [written, indexed, others] using progress.keys
  · rw [bytes, List.length_append] at small
    obtain ⟨offset, index⟩ := progress.exact (by omega)
    simp only [written, indexed, others]
    refine ⟨?_, ?_⟩
    · rw [offset, mod_u32Limit (by omega), bytes, List.length_append]
    · rw [offset, index, indexFrom_append, lastKeyIs, Nat.zero_add]
      rfl

theorem ends_add {key value : Bytes} (progress : Progress start path done rest p)
    (run : Ends (add key value) p u p') :
    ∃ done' rest', Progress start path done' rest' p' ∧
      done'.flatten ++ rest' = done.flatten ++ rest ++ [(key, value)] := by
  simp only [add, ends_bind, ends_modify] at run
  obtain ⟨u₁, p₁, flushed, rfl⟩ := run
  have appended : ∀ {done' rest'}, Progress start path done' rest' p₁ →
      Progress start path done' (rest' ++ [(key, value)])
        ({ p₁.1 with
            allKeys := p₁.1.allKeys ++ [key]
            currentBlock := p₁.1.currentBlock.add key value }, p₁.2) := fun progress' =>
    ⟨progress'.emitted.congr _ rfl rfl, progress'.nonempty, by rw [← progress'.current]; rfl,
      by simp [progress'.keys], progress'.exact⟩
  simp only [flushIfFull, ends_bind, ends_get] at flushed
  obtain ⟨a, p₀, ⟨rfl, rfl⟩, flushed⟩ := flushed
  split at flushed
  · exact ⟨_, _, appended (ends_flushBlock progress flushed), by simp⟩
  · obtain ⟨-, rfl⟩ := ends_pure.mp flushed
    exact ⟨_, _, appended progress, by simp⟩

theorem ends_addAll {entries : Entries} (progress : Progress start path done rest p)
    (run : Ends (addAll entries) p u p') :
    ∃ done' rest', Progress start path done' rest' p' ∧
      done'.flatten ++ rest' = done.flatten ++ rest ++ entries := by
  induction entries generalizing p done rest with
  | nil =>
      obtain ⟨-, rfl⟩ := ends_pure.mp run
      exact ⟨done, rest, progress, by simp⟩
  | cons e entries inductionHypothesis =>
      obtain ⟨key, value⟩ := e
      simp only [addAll, ends_bind] at run
      obtain ⟨u₁, p₁, added, later⟩ := run
      obtain ⟨done₁, rest₁, progress₁, entries₁⟩ := ends_add progress added
      obtain ⟨done₂, rest₂, progress₂, entries₂⟩ := inductionHypothesis progress₁ later
      exact ⟨done₂, rest₂, progress₂, by rw [entries₂, entries₁]; simp⟩

theorem ends_flushLast (progress : Progress start path done rest p)
    (run : Ends flushLast p u p') :
    ∃ blocks, Progress start path blocks [] p' ∧ blocks.flatten = done.flatten ++ rest := by
  simp only [flushLast, ends_bind, ends_get] at run
  obtain ⟨a, p₀, ⟨rfl, rfl⟩, run⟩ := run
  split at run
  · next empty =>
      obtain ⟨-, rfl⟩ := ends_pure.mp run
      have nothing : rest = [] := by
        rw [← progress.current]
        simpa [Block.isEmpty] using empty
      exact ⟨done, nothing ▸ progress, by simp [nothing]⟩
  · exact ⟨_, ends_flushBlock progress run, by simp⟩

end Progress

/-! ## Index, filter and footer -/

section Finish

variable {start : Sys} {path : FileName} {data : Bytes} {p p' : SSTableBuilder × Sys} {u : Unit}

/-- What writing a part of the tail does to the builder: it emits the part, counts
its bytes unless they do not fit, and keeps everything else. -/
structure Wrote (start : Sys) (path : FileName) (data part : Bytes) (p p' : SSTableBuilder × Sys) :
    Prop where
  emitted : Emitted start path (data ++ part) p'
  counted : part.length < 2 ^ 32 → p'.1.bytesWritten = p.1.bytesWritten + part.length
  keys : p'.1.allKeys = p.1.allKeys
  index : p'.1.indexEntries = p.1.indexEntries

theorem ends_writeIndexEntries {index : List (Nat × Bytes)} (emitted : Emitted start path data p)
    (run : Ends (writeIndexEntries index) p u p') :
    Wrote start path data (index.flatMap encodeIndexEntry) p p' := by
  induction index generalizing p data with
  | nil =>
      obtain ⟨-, rfl⟩ := ends_pure.mp run
      exact ⟨by simpa using emitted, fun _ => rfl, rfl, rfl⟩
  | cons e index inductionHypothesis =>
      obtain ⟨offset, lastKey⟩ := e
      simp only [writeIndexEntries, ends_bind, ends_liftResult, checkedAdd_eq_ok] at run
      obtain ⟨u₁, p₁, wrote₁, u₂, p₂, wrote₂, u₃, p₃, wrote₃, n, p₄, ⟨⟨-, rfl⟩, rfl⟩, u₅, p₅,
        advanced, later⟩ := run
      obtain ⟨emitted₁, file₁, others₁⟩ := ends_write emitted wrote₁
      obtain ⟨emitted₂, file₂, others₂⟩ := ends_write emitted₁ wrote₂
      obtain ⟨emitted₃, file₃, others₃⟩ := ends_write emitted₂ wrote₃
      obtain ⟨emitted₄, written⟩ := ends_advance emitted₃ advanced
      have rest := inductionHypothesis emitted₄ later
      have part : (((data ++ leBytes 4 offset) ++ leBytes 4 lastKey.length) ++ lastKey) ++
          index.flatMap encodeIndexEntry =
          data ++ ((offset, lastKey) :: index).flatMap encodeIndexEntry := by
        simp [encodeIndexEntry]
      refine ⟨part ▸ rest.emitted, fun small => ?_, ?_, ?_⟩
      · simp only [List.flatMap_cons, encodeIndexEntry, List.length_append, length_leBytes] at small ⊢
        rw [rest.counted (by omega)]
        simp only [written, others₃, others₂, others₁]
        rw [mod_u32Limit (by omega)]
        omega
      · rw [rest.keys, written, others₃, others₂, others₁]
      · rw [rest.index, written, others₃, others₂, others₁]

theorem ends_writeIndexBlock (emitted : Emitted start path data p)
    (run : Ends writeIndexBlock p u p') :
    Wrote start path data (indexBytes p.1.indexEntries) p p' := by
  simp only [writeIndexBlock, ends_bind, ends_get] at run
  obtain ⟨a, p₀, ⟨rfl, rfl⟩, u₁, p₁, wrote₁, u₂, p₂, advanced, later⟩ := run
  obtain ⟨emitted₁, file₁, others₁⟩ := ends_write emitted wrote₁
  obtain ⟨emitted₂, written⟩ := ends_advance emitted₁ advanced
  have rest := ends_writeIndexEntries emitted₂ later
  refine ⟨?_, fun small => ?_, ?_, ?_⟩
  · rw [indexBytes, ← List.append_assoc]
    exact rest.emitted
  · simp only [indexBytes, List.length_append, length_leBytes] at small ⊢
    rw [rest.counted (by omega)]
    simp only [written, others₁]
    omega
  · rw [rest.keys, written, others₁]
  · rw [rest.index, written, others₁]

theorem ends_writeBloom (emitted : Emitted start path data p) (run : Ends writeBloom p u p') :
    ∃ bloom, BloomFilter.build p.1.allKeys defaultBitsPerKey = .ok bloom ∧
      Wrote start path data bloom.encode p p' := by
  simp only [writeBloom, ends_bind, ends_get, ends_liftResult] at run
  obtain ⟨a, p₀, ⟨rfl, rfl⟩, bloom, p₁, ⟨built, rfl⟩, u₂, p₂, wrote, advanced⟩ := run
  obtain ⟨emitted₁, file₁, others⟩ := ends_write emitted wrote
  obtain ⟨emitted₂, written⟩ := ends_advance emitted₁ advanced
  refine ⟨bloom, built, emitted₂, fun small => ?_, by rw [written, others], by rw [written, others]⟩
  simp only [written, others]
  rw [mod_u32Limit (by omega)]

theorem ends_writeFooter {indexOffset bloomOffset : Nat} (emitted : Emitted start path data p)
    (run : Ends (writeFooter indexOffset bloomOffset) p u p') :
    Emitted start path (data ++ footer indexOffset bloomOffset) p' ∧ p'.1.file.buf = [] := by
  simp only [writeFooter, ends_bind, ends_zoom] at run
  obtain ⟨u₁, p₁, wrote₁, u₂, p₂, wrote₂, q, flushed, rfl⟩ := run
  obtain ⟨emitted₁, -⟩ := ends_write emitted wrote₁
  obtain ⟨emitted₂, -⟩ := ends_write emitted₁ wrote₂
  obtain ⟨wrote₃, empty⟩ := BufWriter.wrote_flushBuf flushed
  have emitted₃ := emitted₂.of_wrote wrote₃
  rw [List.append_nil, List.append_assoc] at emitted₃
  exact ⟨emitted₃, empty⟩

end Finish

/-! ## The whole file -/

/-- The file at `path` was created since `start` and holds exactly `data`. -/
structure Created (start : Sys) (path : FileName) (data : Bytes) (s : Sys) : Prop where
  did : ∃ ops, start.Did (.truncate path :: ops) s ∧ ∀ op ∈ ops, ∃ d, op = .append path d
  present : s.dir.lookup path = some data

@[simp] theorem ends_orDrop {x : M Unit} {p p' : SSTableBuilder × Sys} {u : Unit} :
    Ends (orDrop x) p u p' ↔ Ends x p u p' := by
  unfold Ends orDrop
  cases x p <;> simp

/-- **What the builder writes.** Unless it is too large for its offsets, the file
is the image of non-empty blocks that hold the entries, with a filter of their
keys. -/
theorem ends_build {path : FileName} {blockSize : Nat} {entries : Entries} {s s' : Sys} {u : Unit}
    (run : Ends (build path blockSize entries) s u s') :
    ∃ data, Created s path data s' ∧
      (data.length < 2 ^ 32 → ∃ blocks bloom,
        blocks.flatten = entries ∧ (∀ block ∈ blocks, block ≠ []) ∧
        BloomFilter.build (entries.map Prod.fst) defaultBitsPerKey = .ok bloom ∧
        data = image blocks bloom) := by
  simp only [build, new, ends_bind, ends_zoom, ends_orDrop, finish, ends_get, ends_pure] at run
  obtain ⟨b, s₁, ⟨u₁, s₀, created, rfl, rfl⟩, p', ⟨u₂, p₂, added, u₃, p₃, flushed, a, p₄, ⟨rfl, rfl⟩,
    u₅, p₅, indexed, a', p₆, ⟨rfl, rfl⟩, u₇, p₇, bloomed, footed⟩, rfl⟩ := run
  have truncated := ends_createTruncate created
  have opened : Progress s path [] [] (({
      file := ⟨path, []⟩, currentBlock := Block.new, indexEntries := [], allKeys := [],
      blockSize, bytesWritten := 0 } : SSTableBuilder), s₀) :=
    ⟨⟨rfl, ⟨[], truncated, by simp⟩, [], by rw [truncated.dir]; simp, rfl⟩, by simp, rfl, rfl,
      fun _ => ⟨rfl, rfl⟩⟩
  obtain ⟨done, rest, progress, entries₁⟩ := ends_addAll opened added
  obtain ⟨blocks, finished, entries₂⟩ := ends_flushLast progress flushed
  have allEntries : blocks.flatten = entries := by
    rw [entries₂, entries₁]
    simp
  have wroteIndex := ends_writeIndexBlock finished.emitted indexed
  obtain ⟨bloom, built, wroteBloom⟩ := ends_writeBloom wroteIndex.emitted bloomed
  obtain ⟨emitted, flushedAll⟩ := ends_writeFooter wroteBloom.emitted footed
  obtain ⟨onDisk, present, content⟩ := emitted.content
  rw [flushedAll, List.append_nil] at content
  subst content
  refine ⟨_, ⟨emitted.did, present⟩, fun small => ?_⟩
  simp only [List.length_append] at small
  obtain ⟨offset, index⟩ := finished.exact (by omega)
  rw [wroteIndex.counted (by omega), offset, index] at small ⊢
  refine ⟨blocks, bloom, allEntries, finished.nonempty, ?_, ?_⟩
  · rw [wroteIndex.keys, finished.keys, List.append_nil, allEntries] at built
    exact built
  · rw [image]
    simp only [List.append_assoc]

end SSTableBuilder

end KvEngine
