import KvEngine.Filter.Bloom
import KvEngine.Sstable.Block
import KvEngine.System

/-!
# SSTable builder

Writes sorted key-value pairs to disk in the SSTable file format:

```text
[Data Block 0] [Data Block 1] ... [Index Block] [Bloom Filter] [Footer (8B)]
```

Footer = `index_offset: u32` + `bloom_offset: u32`.
-/

namespace KvEngine

open Foundations

/-- Default bloom filter bits per key. -/
def defaultBitsPerKey : Nat := 10

/-- Builds an SSTable file from sorted key-value pairs. -/
structure SSTableBuilder where
  file : BufWriter
  currentBlock : Block
  indexEntries : List (Nat × Bytes)
  /-- All keys seen so far (collected for bloom filter construction). -/
  allKeys : List Bytes
  blockSize : Nat
  /-- A `u32`. -/
  bytesWritten : Nat
  deriving DecidableEq, Repr

namespace SSTableBuilder

/-- A method of the builder. -/
abbrev M := EStateM Failure (SSTableBuilder × Sys)

/-- Create a new builder that will write to `path`. -/
def new (path : FileName) (blockSize : Nat) : SysM SSTableBuilder := do
  createTruncate path
  pure
    { file := ⟨path, []⟩
      currentBlock := Block.new
      indexEntries := []
      allKeys := []
      blockSize
      bytesWritten := 0 }

/-- `self.file.write_all(data)` -/
def write (data : Bytes) : M Unit :=
  zoom (fun p => (p.1.file, p.2)) (fun q p => ({ p.1 with file := q.1 }, q.2))
    (BufWriter.writeAll data)

/-- `self.bytes_written += n` -/
def advance (n : Nat) : M Unit := do
  let (b, _) ← get
  let written ← liftResult (checkedAdd u32Limit b.bytesWritten n)
  modify (fun p => ({ p.1 with bytesWritten := written }, p.2))

/-- Write out the current block and index it. -/
def flushBlock : M Unit := do
  let (b, _) ← get
  let lastKey ← liftResult b.currentBlock.lastKey
  let encoded := b.currentBlock.encode
  write encoded
  modify (fun p =>
    ({ p.1 with indexEntries := p.1.indexEntries ++ [(p.1.bytesWritten, lastKey)] }, p.2))
  advance (encoded.length % u32Limit)
  modify (fun p => ({ p.1 with currentBlock := Block.new }, p.2))

/-- Whether the entry does not fit into the current block any more. -/
def blockIsFull (b : SSTableBuilder) (key value : Bytes) : Bool :=
  b.currentBlock.estimatedSize > 0 ∧
    b.currentBlock.estimatedSize + key.length + value.length + 8 > b.blockSize

/-- Flush the current block if the entry does not fit into it. -/
def flushIfFull (key value : Bytes) : M Unit := do
  let (b, _) ← get
  if b.blockIsFull key value then flushBlock else pure ()

/-- Append a key-value pair. -/
def add (key value : Bytes) : M Unit := do
  flushIfFull key value
  modify (fun p =>
    ({ p.1 with
        allKeys := p.1.allKeys ++ [key]
        currentBlock := p.1.currentBlock.add key value }, p.2))

/-- Append pairs one after the other. -/
def addAll : List (Bytes × Bytes) → M Unit
  | [] => pure ()
  | (key, value) :: rest => do
      add key value
      addAll rest

/-- The entries of the index block. -/
def writeIndexEntries : List (Nat × Bytes) → M Unit
  | [] => pure ()
  | (offset, lastKey) :: rest => do
      write (leBytes 4 offset)
      write (leBytes 4 lastKey.length)
      write lastKey
      let entryLen ← liftResult (checkedAdd u32Limit (4 + 4) (lastKey.length % u32Limit))
      advance entryLen
      writeIndexEntries rest

/-- Write the index block. -/
def writeIndexBlock : M Unit := do
  let (b, _) ← get
  write (leBytes 4 b.indexEntries.length)
  advance 4
  writeIndexEntries b.indexEntries

/-- Flush the last block, if it holds entries. -/
def flushLast : M Unit := do
  let (b, _) ← get
  if b.currentBlock.isEmpty then pure () else flushBlock

/-- Write the bloom filter of all keys. -/
def writeBloom : M Unit := do
  let (b, _) ← get
  let bloom ← liftResult (BloomFilter.build b.allKeys defaultBitsPerKey)
  let bloomData := bloom.encode
  write bloomData
  advance (bloomData.length % u32Limit)

/-- Write the footer and flush the file. -/
def writeFooter (indexOffset bloomOffset : Nat) : M Unit := do
  write (leBytes 4 indexOffset)
  write (leBytes 4 bloomOffset)
  zoom (fun p => (p.1.file, p.2)) (fun q p => ({ p.1 with file := q.1 }, q.2)) BufWriter.flushBuf

/-- Finalize the SSTable file: the remaining data block, the index block, the
bloom filter and the footer. -/
def finish : M Unit := do
  flushLast
  let indexOffset := (← get).1.bytesWritten
  writeIndexBlock
  let bloomOffset := (← get).1.bytesWritten
  writeBloom
  writeFooter indexOffset bloomOffset

/-- A builder that is given up is dropped, which writes out the buffer of its file. -/
def orDrop (x : M Unit) : M Unit := fun p =>
  match x p with
  | .ok u q => .ok u q
  | .error e (b, s) => .error e (b, b.file.drop s)

/-- Build the file at `path` from `entries`. -/
def build (path : FileName) (blockSize : Nat) (entries : List (Bytes × Bytes)) : SysM Unit := do
  let b ← new path blockSize
  zoom (fun s => (b, s)) (fun q _ => q.2) (orDrop (do addAll entries; finish))

end SSTableBuilder

end KvEngine
