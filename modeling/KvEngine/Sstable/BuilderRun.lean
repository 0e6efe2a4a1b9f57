import KvEngine.Sstable.BuilderSpec

/-!
# When building succeeds

`fileBytes` is the file that the builder makes of a list of entries.  When no file
operation fails and that file stays below the range of its offsets, the builder ends
and has written just these bytes.
-/

namespace KvEngine

open Foundations Sstable

namespace SSTableBuilder

/-- The entry does not fit into the block any more. -/
def overfull (blockSize : Nat) (block : Block) (key value : Bytes) : Bool :=
  block.estimatedSize > 0 ∧ block.estimatedSize + key.length + value.length + 8 > blockSize

/-- How entries are split into blocks, when `block` is the one being filled. -/
def pack (blockSize : Nat) : Block → Entries → List Entries
  | block, [] => if block.isEmpty then [] else [block.entries]
  | block, (key, value) :: rest =>
      if overfull blockSize block key value then
        block.entries :: pack blockSize (Block.new.add key value) rest
      else pack blockSize (block.add key value) rest

/-- The filter of the keys. -/
def filterOf (entries : Entries) : BloomFilter :=
  match BloomFilter.build (entries.map Prod.fst) defaultBitsPerKey with
  | .ok bloom => bloom
  | .error _ => ⟨[], 0, 0⟩

theorem build_filterOf (entries : Entries) :
    BloomFilter.build (entries.map Prod.fst) defaultBitsPerKey = .ok (filterOf entries) := by
  obtain ⟨bloom, built, -⟩ := BloomFilter.build_ok (entries.map Prod.fst) defaultBitsPerKey
  rw [filterOf, built]

/-- The file with the given entries. -/
def fileBytes (blockSize : Nat) (entries : Entries) : Bytes :=
  image (pack blockSize Block.new entries) (filterOf entries)

/-- A block that counts no bytes holds no entries. -/
def Counted (block : Block) : Prop := block.entries = [] ↔ block.encodedSize = 0

theorem counted_new : Counted Block.new := by simp [Counted, Block.new]

theorem counted_add (block : Block) (key value : Bytes) : Counted (block.add key value) := by
  simp [Counted, Block.add, Block.entryHeader]

theorem pack_flatten (blockSize : Nat) {block : Block} (counted : Counted block)
    (entries : Entries) :
    (pack blockSize block entries).flatten = block.entries ++ entries ∧
      ∀ b ∈ pack blockSize block entries, b ≠ [] := by
  induction entries generalizing block with
  | nil =>
      unfold pack
      cases held : block.entries with
      | nil => simp [Block.isEmpty, held]
      | cons e rest => simp [Block.isEmpty, held]
  | cons e entries inductionHypothesis =>
      obtain ⟨key, value⟩ := e
      unfold pack
      split
      · next full =>
          obtain ⟨flatten, nonempty⟩ := inductionHypothesis (counted_add Block.new key value)
          refine ⟨by rw [List.flatten_cons, flatten]; rfl, fun b hb => ?_⟩
          rcases List.mem_cons.mp hb with rfl | later
          · intro none
            have zero := counted.mp none
            simp [overfull, Block.estimatedSize, zero] at full
          · exact nonempty b later
      · obtain ⟨flatten, nonempty⟩ := inductionHypothesis (counted_add block key value)
        exact ⟨by rw [flatten]; simp [Block.add], nonempty⟩

/-! ## Single steps -/

variable {start : Sys} {path : FileName} {done : List Entries} {rest : Entries}
  {p p' : SSTableBuilder × Sys}

theorem write_run (faultless : p.2.env.Faultless) (data : Bytes) :
    ∃ q : BufWriter × Sys, write data p = .ok () ({ p.1 with file := q.1 }, q.2) ∧
      q.2.env = p.2.env := by
  obtain ⟨q, run⟩ := BufWriter.writeAll_run (p := (p.1.file, p.2)) faultless data
  exact ⟨q, by simp only [write, zoom, run], (BufWriter.wrote_writeAll run).env⟩

theorem advance_run {n : Nat} (small : p.1.bytesWritten + n < 2 ^ 32) :
    advance n p = .ok () ({ p.1 with bytesWritten := p.1.bytesWritten + n }, p.2) := by
  rw [advance, bind_apply_ok (rfl : get (m := M) p = _)]
  simp only
  rw [checkedAdd_eq_ok.mpr ⟨small, rfl⟩]
  rfl

/-- Writing out a block that holds entries succeeds within the range of the offsets. -/
theorem flushBlock_run (progress : Progress start path done rest p) (holds : rest ≠ [])
    (faultless : p.2.env.Faultless) (small : (dataBytes (done ++ [rest])).length < 2 ^ 32) :
    ∃ p', flushBlock p = .ok () p' ∧ p'.1.currentBlock = Block.new ∧
      p'.1.blockSize = p.1.blockSize ∧ p'.2.env = p.2.env := by
  have encoded : p.1.currentBlock.encode = encodeBlock rest := by
    rw [← progress.current]
    rfl
  rw [dataBytes_append, List.length_append, show dataBytes [rest] = encodeBlock rest by
    simp [dataBytes]] at small
  obtain ⟨offset, -⟩ := progress.exact (by omega)
  have last : p.1.currentBlock.lastKey = .ok (rest.getLast holds).1 := by
    rw [Block.lastKey, progress.current, List.getLast?_eq_getLast_of_ne_nil holds]
    rfl
  obtain ⟨q, wrote, env⟩ := write_run (p := p) faultless (encodeBlock rest)
  refine ⟨({ p.1 with
      file := q.1, currentBlock := Block.new
      bytesWritten := p.1.bytesWritten + (encodeBlock rest).length % u32Limit
      indexEntries := p.1.indexEntries ++ [(p.1.bytesWritten, (rest.getLast holds).1)] }, q.2),
    ?_, rfl, rfl, env⟩
  rw [flushBlock, bind_apply_ok (rfl : get (m := M) p = _)]
  simp only
  rw [last, bind_apply_ok (rfl : liftResult _ p = _), encoded, bind_apply_ok wrote,
    bind_apply_ok (rfl : modify (m := M) _ _ = _), bind_apply_ok (advance_run ?_)]
  · rfl
  · rw [mod_u32Limit (by omega)]
    change p.1.bytesWritten + _ < _
    omega

/-! ## All entries -/

/-- What adding the remaining entries and writing out the last block leads to. -/
structure Filled (start : Sys) (path : FileName) (blocks : List Entries)
    (p p' : SSTableBuilder × Sys) : Prop where
  progress : Progress start path blocks [] p'
  env : p'.2.env = p.2.env

theorem add_run {key value : Bytes} (progress : Progress start path done rest p)
    (counted : Counted p.1.currentBlock) (faultless : p.2.env.Faultless)
    (small : overfull p.1.blockSize p.1.currentBlock key value = true →
      (dataBytes (done ++ [rest])).length < 2 ^ 32) :
    ∃ p', add key value p = .ok () p' ∧ p'.2.env = p.2.env ∧ p'.1.blockSize = p.1.blockSize ∧
      if overfull p.1.blockSize p.1.currentBlock key value = true then
        p'.1.currentBlock = Block.new.add key value ∧
          Progress start path (done ++ [rest]) [(key, value)] p'
      else p'.1.currentBlock = p.1.currentBlock.add key value ∧
        Progress start path done (rest ++ [(key, value)]) p' := by
  have appended : ∀ {done' rest'} {p₁ : SSTableBuilder × Sys}, Progress start path done' rest' p₁ →
      Progress start path done' (rest' ++ [(key, value)])
        ({ p₁.1 with
            allKeys := p₁.1.allKeys ++ [key]
            currentBlock := p₁.1.currentBlock.add key value }, p₁.2) := fun progress' =>
    ⟨progress'.emitted.congr _ rfl rfl, progress'.nonempty, by rw [← progress'.current]; rfl,
      by simp [progress'.keys], progress'.exact⟩
  have isFull : p.1.blockIsFull key value = overfull p.1.blockSize p.1.currentBlock key value := rfl
  rw [add]
  cases full : overfull p.1.blockSize p.1.currentBlock key value with
  | true =>
      have holds : rest ≠ [] := by
        intro none
        have zero := counted.mp (progress.current.trans none)
        simp [overfull, Block.estimatedSize, zero] at full
      obtain ⟨p₁, run, fresh, size, env⟩ :=
        flushBlock_run progress holds faultless (small full)
      have flushed : flushIfFull key value p = .ok () p₁ := by
        rw [flushIfFull, bind_apply_ok (rfl : get (m := M) p = _)]
        simp only [isFull, full, if_true]
        exact run
      rw [bind_apply_ok flushed]
      refine ⟨_, rfl, env, size, ?_⟩
      rw [if_pos rfl]
      exact ⟨by rw [← fresh], appended (ends_flushBlock progress run)⟩
  | false =>
      have kept : flushIfFull key value p = .ok () p := by
        rw [flushIfFull, bind_apply_ok (rfl : get (m := M) p = _)]
        simp only [isFull, full, Bool.false_eq_true, if_false]
        rfl
      rw [bind_apply_ok kept]
      exact ⟨_, rfl, rfl, rfl, by rw [if_neg (by simp)]; exact ⟨rfl, appended progress⟩⟩

theorem fill_run (entries : Entries) (progress : Progress start path done rest p)
    (counted : Counted p.1.currentBlock) (faultless : p.2.env.Faultless)
    (small : (dataBytes (done ++ pack p.1.blockSize p.1.currentBlock entries)).length < 2 ^ 32) :
    ∃ p₁ p₂, addAll entries p = .ok () p₁ ∧ flushLast p₁ = .ok () p₂ ∧
      Filled start path (done ++ pack p.1.blockSize p.1.currentBlock entries) p p₂ := by
  induction entries generalizing p done rest with
  | nil =>
      have current := progress.current
      unfold pack at small ⊢
      have last : flushLast p =
          (if p.1.currentBlock.isEmpty then pure () else flushBlock : M Unit) p := by
        rw [flushLast, bind_apply_ok (rfl : get (m := M) p = _)]
      rw [Block.isEmpty, current] at small ⊢
      rw [Block.isEmpty, current] at last
      cases rest with
      | nil =>
          refine ⟨p, p, rfl, last, ?_, rfl⟩
          simpa using progress
      | cons e rest =>
          simp only [List.isEmpty_cons, Bool.false_eq_true, if_false] at small last ⊢
          obtain ⟨p', run, -, -, env⟩ := flushBlock_run progress (by simp) faultless small
          exact ⟨p, p', rfl, last.trans run, ends_flushBlock progress run, env⟩
  | cons e entries inductionHypothesis =>
      obtain ⟨key, value⟩ := e
      unfold pack at small ⊢
      have within : overfull p.1.blockSize p.1.currentBlock key value = true →
          (dataBytes (done ++ [rest])).length < 2 ^ 32 := by
        intro full
        rw [if_pos full, progress.current] at small
        simp only [dataBytes_append, dataBytes_cons, List.length_append] at small ⊢
        simp only [dataBytes, List.flatMap_nil, List.length_nil] at small ⊢
        omega
      obtain ⟨p₁, run, env, size, after⟩ := add_run progress counted faultless within
      have faultless₁ : p₁.2.env.Faultless := by
        rw [env]
        exact faultless
      cases full : overfull p.1.blockSize p.1.currentBlock key value with
      | true =>
          rw [full, if_pos rfl] at small
          rw [full, if_pos rfl] at after
          obtain ⟨current, progress₁⟩ := after
          rw [progress.current, ← List.singleton_append, ← List.append_assoc, ← size,
            ← current] at small
          obtain ⟨p₂, p₃, adds, flushes, filled, env'⟩ := inductionHypothesis progress₁
            (current ▸ counted_add _ _ _) faultless₁ small
          refine ⟨p₂, p₃, ?_, flushes, ?_, env'.trans env⟩
          · rw [addAll, bind_apply_ok run, adds]
          · rw [size, current, List.append_assoc] at filled
            rw [if_pos rfl, progress.current]
            exact filled
      | false =>
          rw [full, if_neg (by simp), ← size] at small
          rw [full, if_neg (by simp)] at after
          obtain ⟨current, progress₁⟩ := after
          rw [← current] at small
          obtain ⟨p₂, p₃, adds, flushes, filled, env'⟩ := inductionHypothesis progress₁
            (current ▸ counted_add _ _ _) faultless₁ small
          refine ⟨p₂, p₃, ?_, flushes, ?_, env'.trans env⟩
          · rw [addAll, bind_apply_ok run, adds]
          · rw [size, current] at filled
            rw [if_neg (by simp)]
            exact filled

/-! ## The end of the file -/

theorem writeIndexEntries_run (index : List (Nat × Bytes)) (faultless : p.2.env.Faultless)
    (small : p.1.bytesWritten + (index.flatMap encodeIndexEntry).length < 2 ^ 32) :
    ∃ p', writeIndexEntries index p = .ok () p' ∧ p'.2.env = p.2.env := by
  induction index generalizing p with
  | nil => exact ⟨p, rfl, rfl⟩
  | cons e index inductionHypothesis =>
      obtain ⟨offset, lastKey⟩ := e
      simp only [List.flatMap_cons, encodeIndexEntry, List.length_append, length_leBytes] at small
      obtain ⟨q₁, run₁, env₁⟩ := write_run (p := p) faultless (leBytes 4 offset)
      obtain ⟨q₂, run₂, env₂⟩ := write_run (p := ({ p.1 with file := q₁.1 }, q₁.2))
        (by rw [env₁]; exact faultless) (leBytes 4 lastKey.length)
      obtain ⟨q₃, run₃, env₃⟩ := write_run (p := ({ p.1 with file := q₂.1 }, q₂.2))
        (by rw [env₂, env₁]; exact faultless) lastKey
      have fits : checkedAdd u32Limit (4 + 4) (lastKey.length % u32Limit) =
          .ok (8 + lastKey.length) := by
        rw [mod_u32Limit (by omega)]
        exact checkedAdd_eq_ok.mpr ⟨by change _ < 2 ^ 32; omega, rfl⟩
      have env : q₃.2.env = p.2.env := by rw [env₃, env₂, env₁]
      obtain ⟨p', later, env'⟩ := inductionHypothesis
        (p := ({ p.1 with file := q₃.1, bytesWritten := p.1.bytesWritten + (8 + lastKey.length) },
          q₃.2)) (by rw [env]; exact faultless) (by change _ + _ + _ < _; omega)
      refine ⟨p', ?_, env'.trans env⟩
      rw [writeIndexEntries, bind_apply_ok run₁, bind_apply_ok run₂, bind_apply_ok run₃, fits,
        bind_apply_ok (rfl : liftResult _ _ = _),
        bind_apply_ok (advance_run (by change p.1.bytesWritten + _ < _; omega))]
      exact later

theorem writeIndexBlock_run (faultless : p.2.env.Faultless)
    (small : p.1.bytesWritten + (indexBytes p.1.indexEntries).length < 2 ^ 32) :
    ∃ p', writeIndexBlock p = .ok () p' ∧ p'.2.env = p.2.env := by
  simp only [indexBytes, List.length_append, length_leBytes] at small
  obtain ⟨q, run, env⟩ := write_run (p := p) faultless (leBytes 4 p.1.indexEntries.length)
  obtain ⟨p', later, env'⟩ := writeIndexEntries_run p.1.indexEntries
    (p := ({ p.1 with file := q.1, bytesWritten := p.1.bytesWritten + 4 }, q.2))
    (by rw [env]; exact faultless) (by change _ + _ + _ < _; omega)
  refine ⟨p', ?_, env'.trans env⟩
  rw [writeIndexBlock, bind_apply_ok (rfl : get (m := M) p = _)]
  simp only
  rw [bind_apply_ok run, bind_apply_ok (advance_run (by change p.1.bytesWritten + _ < _; omega))]
  exact later

theorem writeBloom_run {bloom : BloomFilter} (faultless : p.2.env.Faultless)
    (built : BloomFilter.build p.1.allKeys defaultBitsPerKey = .ok bloom)
    (small : p.1.bytesWritten + bloom.encode.length < 2 ^ 32) :
    ∃ p', writeBloom p = .ok () p' ∧ p'.2.env = p.2.env := by
  obtain ⟨q, run, env⟩ := write_run (p := p) faultless bloom.encode
  refine ⟨({ p.1 with file := q.1, bytesWritten := p.1.bytesWritten + bloom.encode.length }, q.2),
    ?_, env⟩
  rw [writeBloom, bind_apply_ok (rfl : get (m := M) p = _)]
  simp only
  rw [built, bind_apply_ok (rfl : liftResult _ p = _), bind_apply_ok run,
    mod_u32Limit (by omega), advance_run (by change p.1.bytesWritten + _ < _; omega)]

theorem writeFooter_run (faultless : p.2.env.Faultless) (indexOffset bloomOffset : Nat) :
    ∃ p', writeFooter indexOffset bloomOffset p = .ok () p' := by
  obtain ⟨q₁, run₁, env₁⟩ := write_run (p := p) faultless (leBytes 4 indexOffset)
  obtain ⟨q₂, run₂, env₂⟩ := write_run (p := ({ p.1 with file := q₁.1 }, q₁.2))
    (by rw [env₁]; exact faultless) (leBytes 4 bloomOffset)
  obtain ⟨q₃, flushes⟩ := BufWriter.flushBuf_run (p := (q₂.1, q₂.2))
    (by rw [env₂, env₁]; exact faultless)
  refine ⟨({ p.1 with file := q₃.1 }, q₃.2), ?_⟩
  rw [writeFooter, bind_apply_ok run₁, bind_apply_ok run₂]
  simp only [zoom, flushes]

/-! ## The whole file -/

/-- What the builder has written before the filter. -/
def bodyLength (blockSize : Nat) (entries : Entries) : Nat :=
  (dataBytes (pack blockSize Block.new entries)).length +
    (indexBytes (indexFrom 0 (pack blockSize Block.new entries))).length

/-- The bytes that the builder counts: all but those of the footer. -/
def countedLength (blockSize : Nat) (entries : Entries) : Nat :=
  bodyLength blockSize entries + (filterOf entries).encode.length

theorem length_fileBytes (blockSize : Nat) (entries : Entries) :
    (fileBytes blockSize entries).length = countedLength blockSize entries + 8 := by
  rw [fileBytes, length_image, countedLength, bodyLength]

/-- The builder in front of the filter; the rest of the run is that of `writeBloom` and
`writeFooter`. -/
structure BeforeBloom (s : Sys) (path : FileName) (blockSize : Nat) (entries : Entries)
    (p : SSTableBuilder × Sys) : Prop where
  emitted : Emitted s path (dataBytes (pack blockSize Block.new entries) ++
    indexBytes (indexFrom 0 (pack blockSize Block.new entries))) p
  counted : p.1.bytesWritten = bodyLength blockSize entries
  keys : p.1.allKeys = entries.map Prod.fst
  faultless : p.2.env.Faultless
  ends : ∀ p₁ p₂, writeBloom p = .ok () p₁ →
    writeFooter (dataBytes (pack blockSize Block.new entries)).length
      (bodyLength blockSize entries) p₁ = .ok () p₂ → build path blockSize entries s = .ok () p₂.2
  fails : ∀ e p₁, writeBloom p = .error e p₁ → ∃ s', build path blockSize entries s = .error e s'

/-- If no file operation fails and the blocks and the index are not too large, the builder gets
to the filter. -/
theorem before_bloom {s : Sys} (faultless : s.env.Faultless) (path : FileName) (blockSize : Nat)
    (entries : Entries) (small : bodyLength blockSize entries < 2 ^ 32) :
    ∃ p, BeforeBloom s path blockSize entries p := by
  unfold bodyLength at small
  obtain ⟨s₀, created⟩ := createTruncate_run faultless path
  have truncated := ends_createTruncate created
  let b : SSTableBuilder :=
    { file := ⟨path, []⟩, currentBlock := Block.new, indexEntries := [], allKeys := []
      blockSize, bytesWritten := 0 }
  have faultless₀ : s₀.env.Faultless := by
    rw [truncated.env]
    exact faultless
  have opened : Progress s path [] [] (b, s₀) :=
    ⟨⟨rfl, ⟨[], truncated, by simp⟩, [], by rw [truncated.dir]; simp, rfl⟩, by simp, rfl, rfl,
      fun _ => ⟨rfl, rfl⟩⟩
  obtain ⟨p₁, p₂, adds, flushes, progress, env₂⟩ := fill_run entries opened counted_new faultless₀
    (by change (dataBytes (pack blockSize Block.new entries)).length < _; omega)
  rw [List.nil_append] at progress
  change Progress s path (pack blockSize Block.new entries) [] p₂ at progress
  obtain ⟨offset, index⟩ := progress.exact (by omega)
  have faultless₂ : p₂.2.env.Faultless := by
    rw [env₂]
    exact faultless₀
  obtain ⟨p₃, indexes, env₃⟩ := writeIndexBlock_run faultless₂ (by rw [offset, index]; omega)
  have wroteIndex := ends_writeIndexBlock progress.emitted indexes
  have counted : p₃.1.bytesWritten = bodyLength blockSize entries := by
    rw [wroteIndex.counted (by rw [index]; omega), offset, index, bodyLength]
  have news : new path blockSize s = .ok b s₀ := by
    rw [new, bind_apply_ok created]
    rfl
  have finishes : (addAll entries >>= fun _ => finish) (b, s₀) =
      (writeBloom >>= fun _ => writeFooter (dataBytes (pack blockSize Block.new entries)).length
        (bodyLength blockSize entries)) p₃ := by
    rw [bind_apply_ok adds, finish, bind_apply_ok flushes,
      bind_apply_ok (rfl : get (m := M) p₂ = _), bind_apply_ok indexes,
      bind_apply_ok (rfl : get (m := M) p₃ = _), offset, counted]
  refine ⟨p₃, index ▸ wroteIndex.emitted, counted, ?_, ?_, ?_, ?_⟩
  · rw [wroteIndex.keys, progress.keys, (pack_flatten blockSize counted_new entries).1]
    simp [Block.new]
  · rw [env₃]
    exact faultless₂
  · intro p₄ p₅ blooms foots
    rw [build, bind_apply_ok news]
    simp only [zoom, orDrop, finishes, bind_apply_ok blooms, foots]
  · intro e p₄ failed
    rw [build, bind_apply_ok news]
    simp only [zoom, orDrop, finishes, bind_apply_error failed]
    exact ⟨_, rfl⟩

/-- **Building succeeds** and writes `fileBytes`, when no file operation fails and the
bytes that are counted are not too many. -/
theorem build_run {s : Sys} (faultless : s.env.Faultless) (path : FileName) (blockSize : Nat)
    (entries : Entries) (small : countedLength blockSize entries < 2 ^ 32) :
    ∃ s', build path blockSize entries s = .ok () s' ∧
      Created s path (fileBytes blockSize entries) s' := by
  unfold countedLength at small
  obtain ⟨p, before⟩ := before_bloom faultless path blockSize entries (by omega)
  have built : BloomFilter.build p.1.allKeys defaultBitsPerKey = .ok (filterOf entries) := by
    rw [before.keys, build_filterOf]
  obtain ⟨p₁, blooms, env₁⟩ := writeBloom_run before.faultless built (by rw [before.counted]; omega)
  obtain ⟨p₂, foots⟩ := writeFooter_run (p := p₁) (by rw [env₁]; exact before.faultless)
    (dataBytes (pack blockSize Block.new entries)).length (bodyLength blockSize entries)
  obtain ⟨bloom, built', wroteBloom⟩ := ends_writeBloom before.emitted blooms
  rw [built] at built'
  cases built'
  obtain ⟨emitted, flushed⟩ := ends_writeFooter wroteBloom.emitted foots
  obtain ⟨onDisk, present, content⟩ := emitted.content
  rw [flushed, List.append_nil] at content
  refine ⟨p₂.2, before.ends p₁ p₂ blooms foots, emitted.did, ?_⟩
  rw [present, content, bodyLength, fileBytes, image]
  simp only [List.append_assoc]

/-- **Building panics** at the filter, if it takes the count beyond the range of a `u32`. -/
theorem build_panics {s : Sys} (faultless : s.env.Faultless) (path : FileName) (blockSize : Nat)
    (entries : Entries) (body : bodyLength blockSize entries < 2 ^ 32)
    (bloom : (filterOf entries).encode.length < 2 ^ 32)
    (large : 2 ^ 32 ≤ countedLength blockSize entries) :
    ∃ s', build path blockSize entries s = .error .panic s' := by
  obtain ⟨p, before⟩ := before_bloom faultless path blockSize entries body
  have built : BloomFilter.build p.1.allKeys defaultBitsPerKey = .ok (filterOf entries) := by
    rw [before.keys, build_filterOf]
  obtain ⟨q, wrote, -⟩ := write_run (p := p) before.faultless (filterOf entries).encode
  refine before.fails .panic ({ p.1 with file := q.1 }, q.2) ?_
  rw [writeBloom, bind_apply_ok (rfl : get (m := M) p = _)]
  simp only
  rw [built, bind_apply_ok (rfl : liftResult _ p = _), bind_apply_ok wrote, mod_u32Limit bloom,
    advance, bind_apply_ok (rfl : get (m := M) _ = _)]
  simp only
  have overflow : checkedAdd u32Limit p.1.bytesWritten (filterOf entries).encode.length =
      .error .panic := by
    rw [before.counted]
    exact if_neg (Nat.not_lt.mpr large)
  rw [overflow]
  rfl

end SSTableBuilder

end KvEngine
