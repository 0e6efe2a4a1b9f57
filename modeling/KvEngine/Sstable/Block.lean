import KvEngine.Slice

/-!
# SSTable data blocks

A block is a list of key-value pairs in sorted order, serialized with prefix
compression:

```text
[num_entries: u32]
for each entry:
    [shared_len: u16] [suffix_len: u16] [suffix] [value_len: u32] [value]
```
-/

namespace KvEngine

open Foundations

/-- An in-memory data block containing sorted key-value pairs. -/
structure Block where
  entries : List (Bytes × Bytes)
  /-- Running total of encoded byte size (keys + values + per-entry headers). -/
  encodedSize : Nat
  deriving DecidableEq, Repr

namespace Block

/-- Per-entry fixed overhead. -/
def entryHeader : Nat := 8

/-- Create an empty block. -/
def new : Block := ⟨[], 0⟩

/-- Append an entry. -/
def add (b : Block) (key value : Bytes) : Block where
  entries := b.entries ++ [(key, value)]
  encodedSize := b.encodedSize + (entryHeader + key.length + value.length)

/-- Whether the block is empty. -/
def isEmpty (b : Block) : Bool := b.entries.isEmpty

/-- Estimated encoded size in bytes. -/
def estimatedSize (b : Block) : Nat := b.encodedSize

/-- The last key in the block. -/
def lastKey (b : Block) : Result Bytes := orPanic (b.entries.getLast?.map Prod.fst)

/-- Length of the common prefix of two keys. -/
def prefixSharedLen : Bytes → Bytes → Nat
  | x :: xs, y :: ys => if x = y then prefixSharedLen xs ys + 1 else 0
  | _, _ => 0

/-- One entry, relative to the key before it. -/
def encodeEntry (prevKey key value : Bytes) : Bytes :=
  let shared := prefixSharedLen prevKey key
  let suffix := key.drop shared
  leBytes 2 shared ++ leBytes 2 suffix.length ++ suffix ++ leBytes 4 value.length ++ value

/-- The entries, each relative to the one before it. -/
def encodeEntries : Bytes → List (Bytes × Bytes) → Bytes
  | _, [] => []
  | prevKey, (key, value) :: rest => encodeEntry prevKey key value ++ encodeEntries key rest

/-- Serialize the block with prefix compression. -/
def encode (b : Block) : Bytes :=
  leBytes 4 b.entries.length ++ encodeEntries [] b.entries

/-- Read one entry at `offset`: the key, the value and the offset behind it. -/
def decodeEntry (buf : Bytes) (offset : Nat) (prevKey : Bytes) : Result (Bytes × Bytes × Nat) :=
  if buf.length < offset + 4 then corruption "block truncated in prefix header"
  else do
    let shared ← u16At buf offset
    let suffixLen ← u16At buf (offset + 2)
    let offset := offset + 4
    if buf.length < offset + suffixLen then corruption "block truncated in key suffix"
    else do
      let kept ← slice prevKey 0 shared
      let suffix ← slice buf offset (offset + suffixLen)
      let key := kept ++ suffix
      let offset := offset + suffixLen
      if buf.length < offset + 4 then corruption "block truncated in value_len"
      else do
        let valueLen ← u32At buf offset
        let offset := offset + 4
        if buf.length < offset + valueLen then corruption "block truncated in value"
        else do
          let value ← slice buf offset (offset + valueLen)
          .ok (key, value, offset + valueLen)

/-- Read `n` entries from `offset` on; returns them and the final offset. -/
def decodeEntries (buf : Bytes) : Nat → Nat → Bytes → Result (List (Bytes × Bytes) × Nat)
  | 0, offset, _ => .ok ([], offset)
  | n + 1, offset, prevKey => do
      let (key, value, offset) ← decodeEntry buf offset prevKey
      let (rest, last) ← decodeEntries buf n offset key
      .ok ((key, value) :: rest, last)

/-- Deserialize a prefix-compressed block from its on-disk bytes. -/
def decode (buf : Bytes) : Result Block :=
  if buf.length < 4 then corruption "block too short"
  else do
    let numEntries ← u32At buf 0
    let (entries, offset) ← decodeEntries buf numEntries 4 []
    .ok { entries, encodedSize := offset - 4 }

/-! ## Round trip -/

/-- An entry within the limits of the format: the lengths fit their fields. -/
def Encodable (b : Bytes × Bytes) : Prop := b.1.length < 2 ^ 16 ∧ b.2.length < 2 ^ 32

theorem prefixSharedLen_le (a b : Bytes) : prefixSharedLen a b ≤ b.length := by
  induction a generalizing b with
  | nil => simp [prefixSharedLen]
  | cons x xs inductionHypothesis =>
      cases b with
      | nil => simp [prefixSharedLen]
      | cons y ys =>
          have shorter := inductionHypothesis ys
          rw [prefixSharedLen, List.length_cons]
          split <;> omega

theorem prefixSharedLen_le_left (a b : Bytes) : prefixSharedLen a b ≤ a.length := by
  induction a generalizing b with
  | nil => simp [prefixSharedLen]
  | cons x xs inductionHypothesis =>
      cases b with
      | nil => simp [prefixSharedLen]
      | cons y ys =>
          have shorter := inductionHypothesis ys
          rw [prefixSharedLen, List.length_cons]
          split <;> omega

/-- The shared part of the previous key is the front of the key. -/
theorem take_prefixSharedLen (a b : Bytes) :
    a.take (prefixSharedLen a b) = b.take (prefixSharedLen a b) := by
  induction a generalizing b with
  | nil => simp [prefixSharedLen]
  | cons x xs inductionHypothesis =>
      cases b with
      | nil => simp [prefixSharedLen]
      | cons y ys =>
          rw [prefixSharedLen]
          split
          · next same => simp [same, inductionHypothesis ys]
          · simp

theorem length_encodeEntry (prevKey key value : Bytes) :
    (encodeEntry prevKey key value).length =
      8 + (key.length - prefixSharedLen prevKey key) + value.length := by
  simp only [encodeEntry, List.length_append, length_leBytes, List.length_drop]
  omega

/-- The shared length and the length of the suffix fit their fields. -/
def KeyFits (prevKey key : Bytes) : Prop :=
  prefixSharedLen prevKey key < 2 ^ 16 ∧ key.length - prefixSharedLen prevKey key < 2 ^ 16

instance (prevKey key : Bytes) : Decidable (KeyFits prevKey key) :=
  inferInstanceAs (Decidable (_ ∧ _))

/-- A short key fits behind every key. -/
theorem KeyFits.of_short (prevKey : Bytes) {key : Bytes} (short : key.length < 2 ^ 16) :
    KeyFits prevKey key := by
  have shared := prefixSharedLen_le prevKey key
  exact ⟨by omega, by omega⟩

/-- One entry is read back behind the one before it. -/
theorem decodeEntry_encodeEntry (buf prevKey key value before after : Bytes)
    (layout : buf = before ++ (encodeEntry prevKey key value ++ after))
    (keyFits : KeyFits prevKey key) (valueFits : value.length < 2 ^ 32) :
    decodeEntry buf before.length prevKey =
      .ok (key, value, before.length + (encodeEntry prevKey key value).length) := by
  obtain ⟨sharedFits, suffixFits⟩ := keyFits
  have sharedKey := prefixSharedLen_le prevKey key
  have sharedPrev := prefixSharedLen_le_left prevKey key
  have together := take_prefixSharedLen prevKey key
  have entryLength := length_encodeEntry prevKey key value
  have total : buf.length =
      before.length + ((encodeEntry prevKey key value).length + after.length) := by
    rw [layout, List.length_append, List.length_append]
  rw [encodeEntry] at layout
  generalize prefixSharedLen prevKey key = shared at *
  have sizeSuffix : (key.drop shared).length = key.length - shared := List.length_drop
  have readShared : u16At buf before.length = .ok shared :=
    leAt_append before (leBytes 2 (key.drop shared).length ++ (key.drop shared ++
      (leBytes 4 value.length ++ (value ++ after))))
      (by rw [layout]; simp only [List.append_assoc]) rfl (by omega)
  have readSuffixLen : u16At buf (before.length + 2) = .ok (key.length - shared) :=
    leAt_append (before ++ leBytes 2 shared)
      (key.drop shared ++ (leBytes 4 value.length ++ (value ++ after)))
      (by rw [layout, sizeSuffix]; simp only [List.append_assoc]) (by simp) (by omega)
  have readSuffix : slice buf (before.length + 4) (before.length + 4 + (key.length - shared)) =
      .ok (key.drop shared) :=
    slice_append (before ++ leBytes 2 shared ++ leBytes 2 (key.drop shared).length)
      (leBytes 4 value.length ++ (value ++ after))
      (by rw [layout]; simp only [List.append_assoc]) (by simp) (by rw [sizeSuffix])
  have readValueLen : u32At buf (before.length + 4 + (key.length - shared)) = .ok value.length :=
    leAt_append
      (before ++ leBytes 2 shared ++ leBytes 2 (key.drop shared).length ++ key.drop shared)
      (value ++ after) (by rw [layout]; simp only [List.append_assoc]) (by simp; omega) (by omega)
  have readValue : slice buf (before.length + 4 + (key.length - shared) + 4)
      (before.length + 4 + (key.length - shared) + 4 + value.length) = .ok value :=
    slice_append (before ++ leBytes 2 shared ++ leBytes 2 (key.drop shared).length ++
        key.drop shared ++ leBytes 4 value.length) after
      (by rw [layout]; simp only [List.append_assoc]) (by simp; omega) rfl
  have readKept : slice prevKey 0 shared = .ok (key.take shared) := by
    rw [slice_ok (Nat.zero_le _) sharedPrev]
    simpa using together
  rw [decodeEntry, if_neg (by omega)]
  simp only [readShared, Result.ok_bind, readSuffixLen]
  rw [if_neg (by omega)]
  simp only [readKept, Result.ok_bind, readSuffix]
  rw [if_neg (by omega)]
  simp only [readValueLen, Result.ok_bind]
  rw [if_neg (by omega)]
  simp only [readValue, Result.ok_bind, List.take_append_drop]
  congr 3
  omega

/-- Every entry of the list fits behind the one before it. -/
def KeysFit : Bytes → List (Bytes × Bytes) → Prop
  | _, [] => True
  | prevKey, (key, _) :: rest => KeyFits prevKey key ∧ KeysFit key rest

theorem KeysFit.of_short {entries : List (Bytes × Bytes)} (prevKey : Bytes)
    (short : ∀ e ∈ entries, e.1.length < 2 ^ 16) : KeysFit prevKey entries := by
  induction entries generalizing prevKey with
  | nil => trivial
  | cons e entries inductionHypothesis =>
      exact ⟨KeyFits.of_short prevKey (short e List.mem_cons_self),
        inductionHypothesis e.1 fun e' he => short e' (List.mem_cons_of_mem _ he)⟩

instance decidableKeysFit : ∀ (prevKey : Bytes) (entries : List (Bytes × Bytes)),
    Decidable (KeysFit prevKey entries)
  | _, [] => isTrue trivial
  | prevKey, (key, _) :: rest =>
      have := decidableKeysFit key rest
      inferInstanceAs (Decidable (KeyFits prevKey key ∧ KeysFit key rest))

/-- So are all entries. -/
theorem decodeEntries_encodeEntries {entries : List (Bytes × Bytes)}
    (buf prevKey before after : Bytes)
    (layout : buf = before ++ (encodeEntries prevKey entries ++ after))
    (keysFit : KeysFit prevKey entries) (valuesFit : ∀ e ∈ entries, e.2.length < 2 ^ 32) :
    decodeEntries buf entries.length before.length prevKey =
      .ok (entries, before.length + (encodeEntries prevKey entries).length) := by
  induction entries generalizing prevKey before with
  | nil => rfl
  | cons b entries inductionHypothesis =>
      obtain ⟨key, value⟩ := b
      obtain ⟨keyFits, restFit⟩ := keysFit
      rw [encodeEntries] at layout
      have first := decodeEntry_encodeEntry buf prevKey key value before
        (encodeEntries key entries ++ after)
        (by rw [layout, List.append_assoc]) keyFits (valuesFit _ List.mem_cons_self)
      have rest := inductionHypothesis key (before ++ encodeEntry prevKey key value)
        (by rw [layout]; simp only [List.append_assoc]) restFit
        (fun e he => valuesFit e (List.mem_cons_of_mem _ he))
      rw [List.length_append] at rest
      simp only [List.length_cons, decodeEntries, first, Result.ok_bind, rest, encodeEntries,
        List.length_append, Nat.add_assoc]

/-- The entries are read back where the narrowed lengths fit their fields. -/
theorem decode_encode_of_keysFit {b : Block} (count : b.entries.length < 2 ^ 32)
    (keysFit : KeysFit [] b.entries) (valuesFit : ∀ e ∈ b.entries, e.2.length < 2 ^ 32) :
    decode b.encode =
      .ok { entries := b.entries, encodedSize := (encodeEntries [] b.entries).length } := by
  have readCount : u32At b.encode 0 = .ok b.entries.length :=
    leAt_append [] (encodeEntries [] b.entries) rfl rfl (by omega)
  have readEntries := decodeEntries_encodeEntries b.encode [] (leBytes 4 b.entries.length) []
    (by rw [List.append_nil, encode]) keysFit valuesFit
  rw [length_leBytes] at readEntries
  have long : ¬ b.encode.length < 4 := by simp [encode]
  simp only [decode, if_neg long, readCount, Result.ok_bind, readEntries, Nat.add_sub_cancel_left]

/-- **Round trip.** The entries of a block within the limits are read back. -/
theorem decode_encode {b : Block} (count : b.entries.length < 2 ^ 32)
    (fits : ∀ e ∈ b.entries, Encodable e) :
    decode b.encode =
      .ok { entries := b.entries, encodedSize := (encodeEntries [] b.entries).length } :=
  decode_encode_of_keysFit count (KeysFit.of_short [] fun e he => (fits e he).1)
    fun e he => (fits e he).2

end Block

end KvEngine
