import KvEngine.Cache.BlockCache
import KvEngine.Filter.Bloom
import KvEngine.Foundations.BinarySearch
import KvEngine.Sstable.Block
import KvEngine.System

/-!
# SSTable reader

Loads an SSTable file into memory and provides random lookup (`get`) and
sequential iteration (`iter`).  The block cache is shared by all readers, so the
methods are computations on it.
-/

namespace KvEngine

open Foundations

/-- An opened SSTable file ready for reads. -/
structure SSTableReader where
  data : Bytes
  index : List (Nat × Bytes)
  indexOffset : Nat
  bloom : BloomFilter
  /-- This SSTable's unique id (used as cache key). -/
  sstId : Nat
  deriving DecidableEq, Repr

/-- A computation on the shared block cache, if there is one. -/
abbrev CacheM := EStateM Failure (Option BlockCache)

namespace SSTableReader

/-- Read `n` index entries from `pos` on. -/
def parseIndexEntries (data : Bytes) : Nat → Nat → Result (List (Nat × Bytes))
  | 0, _ => .ok []
  | n + 1, pos =>
      if data.length < pos + 8 then corruption "index entry truncated"
      else do
        let blockOffset ← u32At data pos
        let keyLen ← u32At data (pos + 4)
        let pos := pos + 8
        if data.length < pos + keyLen then corruption "index entry key truncated"
        else do
          let lastKey ← slice data pos (pos + keyLen)
          let rest ← parseIndexEntries data n (pos + keyLen)
          .ok ((blockOffset, lastKey) :: rest)

/-- Read the index block at `offset`. -/
def parseIndex (data : Bytes) (offset : Nat) : Result (List (Nat × Bytes)) :=
  if data.length < offset + 4 then corruption "index block too short"
  else do
    let num ← u32At data offset
    parseIndexEntries data num (offset + 4)

/-- Parse the footer, index block and bloom filter of an SSTable file. -/
def parse (data : Bytes) (sstId : Nat) : Result SSTableReader :=
  if data.length < 8 then corruption "SSTable file too short"
  else do
    let len := data.length
    let indexOffset ← u32At data (len - 8)
    let bloomOffset ← u32At data (len - 4)
    let index ← parseIndex data indexOffset
    let bloomEnd := len - 8
    let bloomData ← slice data bloomOffset bloomEnd
    let bloom ← BloomFilter.decode bloomData
    .ok { data, index, indexOffset, bloom, sstId }

/-- Open an SSTable file (the shared cache is passed to each read). -/
def openWithCache (path : FileName) (sstId : Nat) : SysM SSTableReader := do
  let data ← readFile path
  liftResult (parse data sstId)

/-- The bytes of a block, decoded. -/
def decodeBlock (r : SSTableReader) (blockIdx : Nat) : Result Block := do
  let start := (← orPanic r.index[blockIdx]?).1
  let stop :=
    match r.index[blockIdx + 1]? with
    | some entry => entry.1
    | none => r.indexOffset
  if stop > r.data.length ∨ start > stop then
    corruption s!"block {blockIdx} offset out of range: {start}..{stop}"
  else do
    Block.decode (← slice r.data start stop)

/-- Look a block up in the cache. -/
def cacheGet (key : CacheKey) : CacheM (Option Block) := fun c =>
  match c with
  | none => .ok none none
  | some c =>
      let (hit, c') := c.get key
      .ok hit (some c')

/-- Put a block into the cache. -/
def cachePut (key : CacheKey) (block : Block) : CacheM Unit := fun c =>
  match c with
  | none => .ok () none
  | some c =>
      match c.put key block with
      | .ok c' => .ok () (some c')
      | .error e => .error e (some c)

/-- A block, from the cache or decoded and cached. -/
def loadBlock (r : SSTableReader) (blockIdx : Nat) : CacheM Block := do
  let key : CacheKey := { sstId := r.sstId, blockIdx }
  match ← cacheGet key with
  | some block => pure block
  | none => do
      let block ← liftResult (r.decodeBlock blockIdx)
      cachePut key block
      pure block

/-- The block that may hold a key: the first one whose last key is not below it. -/
def blockFor (r : SSTableReader) (key : Bytes) : Option Nat :=
  match binarySearchBy (against Prod.snd key) r.index with
  | .ok i => some i
  | .error i => if i < r.index.length then some i else none

/-- Search a key in a block. -/
def searchBlock (block : Block) (key : Bytes) : Result (Option Bytes) :=
  match binarySearchBy (against Prod.fst key) block.entries with
  | .ok i => do
      let entry ← orPanic block.entries[i]?
      .ok (some entry.2)
  | .error _ => .ok none

/-- Look up a key. -/
def get (r : SSTableReader) (key : Bytes) : CacheM (Option Bytes) := do
  if !(← liftResult (r.bloom.mayContain key)) then pure none
  else
    match r.blockFor key with
    | none => pure none
    | some blockIdx => do
        let block ← r.loadBlock blockIdx
        liftResult (searchBlock block key)

/-- The entries of the blocks `i, .., i + n - 1`.  The iterator ends at the first
block that cannot be loaded. -/
def iterFrom (r : SSTableReader) : Nat → Nat → CacheM (List (Bytes × Bytes))
  | 0, _ => pure []
  | n + 1, i => fun c =>
      match r.loadBlock i c with
      | .ok block c' => (do
          let rest ← iterFrom r n (i + 1)
          pure (block.entries ++ rest)) c'
      | .error (.err _) c' => .ok [] c'
      | .error e c' => .error e c'

/-- All entries that a `for` loop over the iterator sees. -/
def iter (r : SSTableReader) : CacheM (List (Bytes × Bytes)) :=
  r.iterFrom r.index.length 0

end SSTableReader

end KvEngine
