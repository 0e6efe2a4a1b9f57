import KvEngine.Sstable.ReaderSpec

/-!
# Reading malformed tables

Which files make a read panic.  Three accesses trust what the file says: the slice
of the filter up to the footer, the words of the filter, and the part of the
previous key that an entry shares.  For each of them there is a condition on the
file, and a read returns exactly where the conditions hold for what it reaches.
All other accesses are checked by the parsers.
-/

namespace KvEngine

open Foundations

/-! ## The filter -/

namespace BloomFilter

theorem returns_decodeWords (data : Bytes) (n offset : Nat) (room : offset + n * 8 ≤ data.length) :
    (decodeWords data n offset).Returns := by
  induction n generalizing offset with
  | zero => trivial
  | succ n inductionHypothesis =>
      unfold decodeWords
      refine (meets_leAt _ (by omega)).bind (Q := fun _ => True) fun word _ => ?_
      refine Result.Meets.bind (P := fun _ => True) ?_ fun rest _ => trivial
      exact inductionHypothesis (offset + 8) (by omega)

theorem returns_decode (data : Bytes) : (decode data).Returns := by
  unfold decode
  refine Result.Meets.ite (fun _ => trivial) fun long => ?_
  refine (meets_leAt _ (by omega)).bind fun numHashes _ => ?_
  refine (meets_leAt _ (by omega)).bind fun numBits _ => ?_
  refine (meets_leAt _ (by omega)).bind fun numWords _ => ?_
  refine Result.Meets.ite (fun _ => trivial) fun room => ?_
  refine Result.Meets.bind (P := fun _ => True) ?_ fun bits _ => trivial
  exact returns_decodeWords data numWords 12 (by omega)

/-- Every bit that is tested for the key, up to the first one that is not set, lies
within the words. -/
def BitsInside (f : BloomFilter) (key : Bytes) : Prop :=
  f.numBits ≠ 0 → ∀ i, i < f.numHashes →
    (∀ j, j < i → IsSet f.bits (bitIndex key f.numBits j)) →
      bitIndex key f.numBits i < 64 * f.bits.length

/-- All bits of the key are set. -/
def Passes (f : BloomFilter) (key : Bytes) : Prop :=
  f.numBits ≠ 0 ∧ ∀ i, i < f.numHashes → IsSet f.bits (bitIndex key f.numBits i)

theorem returns_testBit {bits : List Nat} {pos : Nat} :
    (testBit bits pos).Returns ↔ pos < 64 * bits.length := by
  cases found : bits[pos / 64]? with
  | none =>
      have beyond := List.getElem?_eq_none_iff.mp found
      rw [testBit, found]
      refine ⟨fun impossible => impossible.elim, fun inside => ?_⟩
      omega
  | some word =>
      obtain ⟨inside, -⟩ := List.getElem?_eq_some_iff.mp found
      rw [testBit_eq found]
      refine ⟨fun _ => ?_, fun _ => trivial⟩
      omega

theorem testBit_eq_true {bits : List Nat} {pos : Nat} :
    testBit bits pos = .ok true ↔ IsSet bits pos := by
  unfold IsSet
  cases found : bits[pos / 64]? with
  | none => simp [testBit, found, orPanic]
  | some word =>
      rw [testBit_eq found, Except.ok.injEq]
      simp

/-- The loop over the hash functions, by induction on those that are left. -/
theorem returns_testKeyBits (f : BloomFilter) (key : Bytes) (n i : Nat) :
    (testKeyBits f key n i).Returns ↔
      ∀ j, i ≤ j → j < i + n →
        (∀ k, i ≤ k → k < j → IsSet f.bits (bitIndex key f.numBits k)) →
          bitIndex key f.numBits j < 64 * f.bits.length := by
  induction n generalizing i with
  | zero =>
      refine ⟨fun _ j from_i below => ?_, fun _ => trivial⟩
      omega
  | succ n inductionHypothesis =>
      rw [testKeyBits, Result.returns_bind, returns_testBit]
      constructor
      · rintro ⟨inside, later⟩ j from_i below set
        rcases Nat.eq_or_lt_of_le from_i with rfl | after
        · exact inside
        · have first := testBit_eq_true.mpr (set i le_rfl after)
          have rest := later true first
          rw [if_pos rfl, inductionHypothesis] at rest
          exact rest j after (by omega) fun k from_k before => set k (by omega) before
      · intro within
        refine ⟨within i le_rfl (by omega) fun k from_k before => by omega, fun answer tested => ?_⟩
        cases answer with
        | false => exact Result.returns_ok false
        | true =>
            rw [if_pos rfl, inductionHypothesis]
            intro j from_i below set
            refine within j (by omega) (by omega) fun k from_k before => ?_
            rcases Nat.eq_or_lt_of_le from_k with rfl | after
            · exact testBit_eq_true.mp tested
            · exact set k after before

theorem returns_mayContain (f : BloomFilter) (key : Bytes) :
    (f.mayContain key).Returns ↔ f.BitsInside key := by
  unfold mayContain BitsInside
  split
  · next zero => exact ⟨fun _ nonzero => (nonzero zero).elim, fun _ => trivial⟩
  · next nonzero =>
      rw [returns_testKeyBits]
      simp only [Nat.zero_le, forall_const, Nat.zero_add]
      exact ⟨fun within _ => within, fun within => within nonzero⟩

theorem testKeyBits_eq_true (f : BloomFilter) (key : Bytes) (n i : Nat) :
    testKeyBits f key n i = .ok true ↔
      ∀ j, i ≤ j → j < i + n → IsSet f.bits (bitIndex key f.numBits j) := by
  induction n generalizing i with
  | zero =>
      refine ⟨fun _ j from_i below => ?_, fun _ => rfl⟩
      omega
  | succ n inductionHypothesis =>
      rw [testKeyBits, Result.bind_eq_ok]
      constructor
      · rintro ⟨answer, tested, later⟩ j from_i below
        cases answer with
        | false => cases later
        | true =>
            rcases Nat.eq_or_lt_of_le from_i with rfl | after
            · exact testBit_eq_true.mp tested
            · exact (inductionHypothesis (i + 1)).mp later j after (by omega)
      · intro set
        refine ⟨true, testBit_eq_true.mpr (set i le_rfl (by omega)), ?_⟩
        exact (inductionHypothesis (i + 1)).mpr fun j from_i below => set j (by omega) (by omega)

theorem mayContain_eq_true (f : BloomFilter) (key : Bytes) :
    f.mayContain key = .ok true ↔ f.Passes key := by
  unfold mayContain Passes
  split
  · next zero => simp [zero]
  · next nonzero =>
      rw [testKeyBits_eq_true]
      simp [nonzero]

end BloomFilter

/-! ## The blocks -/

namespace Block

/-- The two length fields of the entry at `offset`. -/
def sharedAt (buf : Bytes) (offset : Nat) : Nat := leValue ((buf.drop offset).take 2)

def suffixLenAt (buf : Bytes) (offset : Nat) : Nat := leValue ((buf.drop (offset + 2)).take 2)

/-- Each of the `n` entries from `offset` on whose key is complete shares at most
the whole key of the entry before it. -/
def SharedInside (buf : Bytes) : Nat → Nat → Bytes → Prop
  | 0, _, _ => True
  | n + 1, offset, prevKey =>
      (offset + 4 + suffixLenAt buf offset ≤ buf.length → sharedAt buf offset ≤ prevKey.length) ∧
        ∀ key value next, decodeEntry buf offset prevKey = .ok (key, value, next) →
          SharedInside buf n next key

/-- The block announces its entries, and they share what is there. -/
def Inside (buf : Bytes) : Prop :=
  4 ≤ buf.length → SharedInside buf (leValue (buf.take 4)) 4 []

theorem returns_decodeEntry (buf : Bytes) (offset : Nat) (prevKey : Bytes) :
    (decodeEntry buf offset prevKey).Returns ↔
      (offset + 4 + suffixLenAt buf offset ≤ buf.length →
        sharedAt buf offset ≤ prevKey.length) := by
  unfold decodeEntry
  by_cases header : buf.length < offset + 4
  · rw [if_pos header]
    refine ⟨fun _ room => ?_, fun _ => trivial⟩
    omega
  · have readShared : u16At buf offset = .ok (sharedAt buf offset) := leAt_ok (by omega)
    have readSuffixLen : u16At buf (offset + 2) = .ok (suffixLenAt buf offset) := leAt_ok (by omega)
    rw [if_neg header, readShared, Result.ok_bind, readSuffixLen, Result.ok_bind]
    dsimp only
    by_cases truncated : buf.length < offset + 4 + suffixLenAt buf offset
    · rw [if_pos truncated]
      refine ⟨fun _ room => ?_, fun _ => trivial⟩
      omega
    · rw [if_neg truncated]
      by_cases shares : sharedAt buf offset ≤ prevKey.length
      · refine ⟨fun _ _ => shares, fun _ => Result.Meets.returns (P := fun _ => True)
          (E := fun _ => True) ?_⟩
        refine (meets_slice _ (Nat.zero_le _) shares).bind fun kept _ => ?_
        refine (meets_slice _ (by omega) (by omega)).bind fun suffix _ => ?_
        refine Result.Meets.ite (fun _ => trivial) fun roomLen => ?_
        refine (meets_leAt _ (by omega)).bind fun valueLen _ => ?_
        refine Result.Meets.ite (fun _ => trivial) fun roomValue => ?_
        exact (meets_slice _ (by omega) (by omega)).bind fun value _ => trivial
      · -- the slice of the previous key is out of bounds
        have panics : slice prevKey 0 (sharedAt buf offset) = .error .panic :=
          if_neg fun inside => shares inside.2
        rw [panics]
        exact ⟨fun impossible => impossible.elim, fun inside => (shares (inside (by omega))).elim⟩

/-- The loop over the entries, by induction on those that are left. -/
theorem returns_decodeEntries (buf : Bytes) (n offset : Nat) (prevKey : Bytes) :
    (decodeEntries buf n offset prevKey).Returns ↔ SharedInside buf n offset prevKey := by
  induction n generalizing offset prevKey with
  | zero => exact ⟨fun _ => trivial, fun _ => trivial⟩
  | succ n inductionHypothesis =>
      rw [decodeEntries, SharedInside, Result.returns_bind, returns_decodeEntry]
      have rest : ∀ key value next,
          (decodeEntries buf n next key >>= fun found =>
            (Except.ok ((key, value) :: found.1, found.2) :
              Result (List (Bytes × Bytes) × Nat))).Returns ↔ SharedInside buf n next key := by
        intro key value next
        rw [Result.returns_bind, inductionHypothesis]
        exact ⟨fun both => both.1, fun inside => ⟨inside, fun _ _ => trivial⟩⟩
      constructor
      · rintro ⟨first, later⟩
        refine ⟨first, fun key value next decoded => ?_⟩
        exact (rest key value next).mp (later (key, value, next) decoded)
      · rintro ⟨first, later⟩
        refine ⟨first, ?_⟩
        rintro ⟨key, value, next⟩ decoded
        exact (rest key value next).mpr (later key value next decoded)

theorem returns_decode (buf : Bytes) : (decode buf).Returns ↔ Inside buf := by
  unfold decode Inside
  by_cases short : buf.length < 4
  · rw [if_pos short]
    refine ⟨fun _ long => ?_, fun _ => trivial⟩
    omega
  · have readCount : u32At buf 0 = .ok (leValue (buf.take 4)) := leAt_ok (by omega)
    rw [if_neg short, readCount, Result.ok_bind, Result.returns_bind, returns_decodeEntries]
    constructor
    · exact fun both _ => both.1
    · exact fun inside => ⟨inside (by omega), fun _ _ => trivial⟩

end Block

/-! ## The table -/

namespace SSTableReader

theorem returns_parseIndexEntries (data : Bytes) (n pos : Nat) :
    (parseIndexEntries data n pos).Returns := by
  induction n generalizing pos with
  | zero => trivial
  | succ n inductionHypothesis =>
      unfold parseIndexEntries
      refine Result.Meets.ite (fun _ => trivial) fun room => ?_
      refine (meets_leAt _ (by omega)).bind fun blockOffset _ => ?_
      refine (meets_leAt _ (by omega)).bind fun keyLen _ => ?_
      refine Result.Meets.ite (fun _ => trivial) fun roomKey => ?_
      refine (meets_slice _ (by omega) (by omega)).bind fun lastKey _ => ?_
      exact Result.Meets.bind (inductionHypothesis _) fun rest _ => trivial

theorem returns_parseIndex (data : Bytes) (offset : Nat) : (parseIndex data offset).Returns := by
  unfold parseIndex
  refine Result.Meets.ite (fun _ => trivial) fun room => ?_
  refine (meets_leAt _ (by omega)).bind fun num _ => ?_
  exact returns_parseIndexEntries data num _

/-- The two fields of the footer. -/
def indexOffsetOf (data : Bytes) : Nat := leValue ((data.drop (data.length - 8)).take 4)

def bloomOffsetOf (data : Bytes) : Nat := leValue ((data.drop (data.length - 4)).take 4)

/-- The bytes between the offset of the filter and the footer. -/
def bloomBytes (data : Bytes) : Bytes :=
  (data.drop (bloomOffsetOf data)).take (data.length - 8 - bloomOffsetOf data)

/-- Unless the file is rejected before, its filter starts in front of the footer. -/
def FooterInside (data : Bytes) : Prop :=
  8 ≤ data.length → (∃ index, parseIndex data (indexOffsetOf data) = .ok index) →
    bloomOffsetOf data ≤ data.length - 8

/-- The index and the filter that the file holds. -/
structure Describes (data : Bytes) (r : SSTableReader) : Prop where
  long : 8 ≤ data.length
  bytes : r.data = data
  indexOffset : r.indexOffset = indexOffsetOf data
  index : parseIndex data (indexOffsetOf data) = .ok r.index
  footer : bloomOffsetOf data ≤ data.length - 8
  bloom : BloomFilter.decode (bloomBytes data) = .ok r.bloom

section Parse

variable {data : Bytes} {sstId : Nat}

/-- What is left of `parse` behind the footer. -/
theorem parse_eq (long : 8 ≤ data.length) :
    parse data sstId = (do
      let index ← parseIndex data (indexOffsetOf data)
      let bloomData ← slice data (bloomOffsetOf data) (data.length - 8)
      let bloom ← BloomFilter.decode bloomData
      .ok { data, index, indexOffset := indexOffsetOf data, bloom, sstId }) := by
  have readIndexOffset : u32At data (data.length - 8) = .ok (indexOffsetOf data) :=
    leAt_ok (by omega)
  have readBloomOffset : u32At data (data.length - 4) = .ok (bloomOffsetOf data) :=
    leAt_ok (by omega)
  rw [parse, if_neg (by omega)]
  simp only [readIndexOffset, readBloomOffset, Result.ok_bind]

theorem returns_parse : (parse data sstId).Returns ↔ FooterInside data := by
  unfold FooterInside
  by_cases long : 8 ≤ data.length
  · rw [parse_eq long, Result.returns_bind]
    constructor
    · rintro ⟨-, later⟩ - ⟨index, parsed⟩
      by_contra outside
      have panics : slice data (bloomOffsetOf data) (data.length - 8) = .error .panic :=
        if_neg fun inside => outside inside.1
      have impossible := later index parsed
      rw [panics] at impossible
      exact impossible
    · intro inside
      refine ⟨returns_parseIndex data _, fun index parsed => ?_⟩
      rw [slice_ok (inside long ⟨index, parsed⟩) (by omega), Result.ok_bind, Result.returns_bind]
      exact ⟨BloomFilter.returns_decode _, fun _ _ => trivial⟩
  · rw [parse, if_pos (by omega)]
    exact ⟨fun _ long' => (long long').elim, fun _ => trivial⟩

theorem parse_eq_ok {r : SSTableReader} :
    parse data sstId = .ok r ↔ Describes data r ∧ r.sstId = sstId := by
  by_cases long : 8 ≤ data.length
  · rw [parse_eq long]
    simp only [Result.bind_eq_ok]
    constructor
    · rintro ⟨index, parsed, bloomData, cut, bloom, decoded, same⟩
      cases same
      unfold slice at cut
      split at cut
      · next inside =>
          cases cut
          exact ⟨⟨long, rfl, rfl, parsed, inside.1, decoded⟩, rfl⟩
      · cases cut
    · rintro ⟨describes, sameId⟩
      refine ⟨r.index, describes.index, bloomBytes data,
        slice_ok describes.footer (by omega), r.bloom, describes.bloom, ?_⟩
      cases r
      simp only [Except.ok.injEq, mk.injEq, true_and]
      exact ⟨describes.bytes.symm, describes.indexOffset.symm, sameId.symm⟩
  · rw [parse, if_pos (by omega)]
    refine ⟨fun impossible => ?_, fun both => (long both.1.long).elim⟩
    cases impossible

end Parse

variable {r : SSTableReader}

/-- Where the block at `i` ends. -/
def blockEnd (r : SSTableReader) (i : Nat) : Nat :=
  match r.index[i + 1]? with
  | some entry => entry.1
  | none => r.indexOffset

/-- The block at `i`, if its bytes are in the file, is in order. -/
def BlockInside (r : SSTableReader) (i : Nat) : Prop :=
  ∀ entry, r.index[i]? = some entry → r.blockEnd i ≤ r.data.length → entry.1 ≤ r.blockEnd i →
    Block.Inside ((r.data.drop entry.1).take (r.blockEnd i - entry.1))

theorem returns_decodeBlock {i : Nat} (listed : i < r.index.length) :
    (r.decodeBlock i).Returns ↔ r.BlockInside i := by
  have found : r.index[i]? = some r.index[i] := List.getElem?_eq_getElem listed
  have ranged : r.decodeBlock i =
      if r.blockEnd i > r.data.length ∨ r.index[i].1 > r.blockEnd i then
        corruption s!"block {i} offset out of range: {r.index[i].1}..{r.blockEnd i}"
      else slice r.data r.index[i].1 (r.blockEnd i) >>= Block.decode := by
    rw [decodeBlock, found]
    rfl
  rw [ranged, BlockInside, found]
  simp only [Option.some.injEq, forall_eq']
  by_cases outside : r.blockEnd i > r.data.length ∨ r.index[i].1 > r.blockEnd i
  · rw [if_pos outside]
    refine ⟨fun _ inside ordered => ?_, fun _ => trivial⟩
    omega
  · rw [if_neg outside, slice_ok (by omega) (by omega), Result.ok_bind, Block.returns_decode]
    exact ⟨fun inside _ _ => inside, fun inside => inside (by omega) (by omega)⟩

/-- The index never points behind itself. -/
theorem blockFor_lt {key : Bytes} {i : Nat} (located : r.blockFor key = some i) :
    i < r.index.length := by
  unfold blockFor at located
  split at located
  · next found =>
      obtain ⟨e, here, -⟩ := binarySearchBy_ok found
      cases located
      exact (List.getElem?_eq_some_iff.mp here).1
  · split at located
    · next inside =>
        cases located
        exact inside
    · cases located

theorem returns_searchBlock (block : Block) (key : Bytes) : (searchBlock block key).Returns := by
  unfold searchBlock
  split
  · next found =>
      obtain ⟨e, here, -⟩ := binarySearchBy_ok found
      rw [here]
      trivial
  · trivial

/-- A block is loaded without a cache. -/
theorem loadBlock_none (r : SSTableReader) (i : Nat) :
    r.loadBlock i none = liftResult (r.decodeBlock i) none := by
  unfold loadBlock
  cases r.decodeBlock i <;> rfl

/-- A key is looked up without a cache. -/
def getUncached (r : SSTableReader) (key : Bytes) : Result (Option Bytes) := do
  if !(← r.bloom.mayContain key) then .ok none
  else
    match r.blockFor key with
    | none => .ok none
    | some i => do
        let block ← r.decodeBlock i
        searchBlock block key

theorem get_none (r : SSTableReader) (key : Bytes) :
    r.get key none = liftResult (r.getUncached key) none := by
  unfold get getUncached
  cases r.bloom.mayContain key with
  | error e => rfl
  | ok passes =>
      rw [Result.ok_bind, bind_apply_ok (rfl : liftResult (Except.ok passes) none = _)]
      cases passes with
      | false => rfl
      | true =>
          simp only [Bool.not_true, Bool.false_eq_true, if_false]
          cases r.blockFor key with
          | none => rfl
          | some i =>
              show (r.loadBlock i >>= fun block => liftResult (searchBlock block key)) none =
                liftResult (r.decodeBlock i >>= fun block => searchBlock block key) none
              have loaded := loadBlock_none r i
              cases decoded : r.decodeBlock i with
              | error e =>
                  rw [decoded] at loaded
                  exact bind_apply_error loaded
              | ok block =>
                  rw [decoded] at loaded
                  exact bind_apply_ok loaded

theorem returns_getUncached (r : SSTableReader) (key : Bytes) :
    (r.getUncached key).Returns ↔
      r.bloom.BitsInside key ∧
        (r.bloom.Passes key → ∀ i, r.blockFor key = some i → r.BlockInside i) := by
  unfold getUncached
  rw [Result.returns_bind, BloomFilter.returns_mayContain, ← BloomFilter.mayContain_eq_true]
  refine and_congr_right fun _ => ?_
  constructor
  · intro later tested i located
    have loads := later true tested
    simp only [Bool.not_true, Bool.false_eq_true, if_false, located] at loads
    exact (returns_decodeBlock (blockFor_lt located)).mp (Result.returns_bind.mp loads).1
  · intro inside answer tested
    cases answer with
    | false => trivial
    | true =>
        simp only [Bool.not_true, Bool.false_eq_true, if_false]
        cases located : r.blockFor key with
        | none => trivial
        | some i =>
            refine Result.returns_bind.mpr ⟨?_, fun block _ => returns_searchBlock block key⟩
            exact (returns_decodeBlock (blockFor_lt located)).mpr (inside tested i located)

/-- The iterator ends exactly when decoding returns for each block that it comes
to; it comes to a block when the blocks before it decode. -/
theorem iterFrom_ends (r : SSTableReader) (n i : Nat) :
    (∃ entries, r.iterFrom n i none = .ok entries none) ↔
      ∀ k, i ≤ k → k < i + n → (∀ j, i ≤ j → j < k → ∃ block, r.decodeBlock j = .ok block) →
        (r.decodeBlock k).Returns := by
  induction n generalizing i with
  | zero =>
      refine ⟨fun _ k from_i below => ?_, fun _ => ⟨[], rfl⟩⟩
      omega
  | succ n inductionHypothesis =>
      cases decoded : r.decodeBlock i with
      | error e =>
          have loaded : r.loadBlock i none = .error e none := by
            rw [loadBlock_none, decoded]
            rfl
          -- iteration stops here, whatever comes later
          have stops : (∀ k, i ≤ k → k < i + (n + 1) →
              (∀ j, i ≤ j → j < k → ∃ block, r.decodeBlock j = .ok block) →
                (r.decodeBlock k).Returns) ↔ (r.decodeBlock i).Returns := by
            constructor
            · exact fun all => all i le_rfl (by omega) fun j from_i before => by omega
            · intro here k from_i below earlier
              rcases Nat.eq_or_lt_of_le from_i with rfl | after
              · exact here
              · obtain ⟨block, impossible⟩ := earlier i le_rfl after
                rw [decoded] at impossible
                cases impossible
          rw [stops, decoded, iterFrom]
          simp only [loaded]
          cases e with
          | err e => exact ⟨fun _ => trivial, fun _ => ⟨[], rfl⟩⟩
          | panic =>
              refine ⟨?_, fun impossible => impossible.elim⟩
              rintro ⟨entries, ⟨⟩⟩
          | outOfFuel =>
              refine ⟨?_, fun impossible => impossible.elim⟩
              rintro ⟨entries, ⟨⟩⟩
      | ok block =>
          have loaded : r.loadBlock i none = .ok block none := by
            rw [loadBlock_none, decoded]
            rfl
          have onward : (∃ entries, r.iterFrom (n + 1) i none = .ok entries none) ↔
              ∃ entries, r.iterFrom n (i + 1) none = .ok entries none := by
            rw [iterFrom]
            simp only [loaded]
            constructor
            · rintro ⟨entries, run⟩
              obtain ⟨rest, c, later, last⟩ := ends_bind.mp run
              obtain ⟨-, rfl⟩ := ends_pure.mp last
              exact ⟨rest, later⟩
            · rintro ⟨rest, later⟩
              exact ⟨block.entries ++ rest, bind_apply_ok later⟩
          rw [onward, inductionHypothesis]
          constructor
          · intro all k from_i below earlier
            rcases Nat.eq_or_lt_of_le from_i with rfl | after
            · rw [decoded]
              trivial
            · exact all k after (by omega) fun j from_j before => earlier j (by omega) before
          · intro all k from_i below earlier
            refine all k (by omega) (by omega) fun j from_j before => ?_
            rcases Nat.eq_or_lt_of_le from_j with rfl | after
            · exact ⟨block, decoded⟩
            · exact earlier j after before

theorem iter_ends (r : SSTableReader) :
    (∃ entries, r.iter none = .ok entries none) ↔
      ∀ k, k < r.index.length → (∀ j, j < k → ∃ block, r.decodeBlock j = .ok block) →
        r.BlockInside k := by
  rw [iter, iterFrom_ends]
  simp only [Nat.zero_le, forall_const, Nat.zero_add]
  constructor
  · exact fun all k listed earlier => (returns_decodeBlock listed).mp (all k listed earlier)
  · exact fun all k listed earlier => (returns_decodeBlock listed).mpr (all k listed earlier)

/-! ## Opening and reading -/

/-- Opening the file returns, and where it opens, looking up the key returns and
the iterator runs to its end. -/
def ReadsSafely (data key : Bytes) : Prop :=
  (parse data 0).Returns ∧ ∀ r, parse data 0 = .ok r →
    ((∃ v, r.get key none = .ok v none) ∨ ∃ e, r.get key none = .error (.err e) none) ∧
      ∃ entries, r.iter none = .ok entries none

/-- What a read trusts is right: the offset of the filter in the footer, the bits
that are tested for the key, and the blocks that `get` and the iterator come to. -/
structure Trustworthy (data key : Bytes) : Prop where
  footer : FooterInside data
  bits : ∀ r, Describes data r → r.bloom.BitsInside key
  found : ∀ r, Describes data r → r.bloom.Passes key →
    ∀ i, r.blockFor key = some i → r.BlockInside i
  iterated : ∀ r, Describes data r → ∀ i, i < r.index.length →
    (∀ j, j < i → ∃ block, r.decodeBlock j = .ok block) → r.BlockInside i

theorem get_returns {key : Bytes} :
    ((∃ v, r.get key none = .ok v none) ∨ ∃ e, r.get key none = .error (.err e) none) ↔
      (r.getUncached key).Returns := by
  rw [get_none]
  cases r.getUncached key with
  | ok v => exact ⟨fun _ => trivial, fun _ => Or.inl ⟨v, rfl⟩⟩
  | error e =>
      cases e with
      | err e => exact ⟨fun _ => trivial, fun _ => Or.inr ⟨e, rfl⟩⟩
      | panic =>
          refine ⟨?_, fun impossible => impossible.elim⟩
          rintro (⟨v, impossible⟩ | ⟨e, impossible⟩) <;> cases impossible
      | outOfFuel =>
          refine ⟨?_, fun impossible => impossible.elim⟩
          rintro (⟨v, impossible⟩ | ⟨e, impossible⟩) <;> cases impossible

/-- **Which files are read without a panic.** -/
theorem readsSafely_iff (data key : Bytes) : ReadsSafely data key ↔ Trustworthy data key := by
  unfold ReadsSafely
  simp only [returns_parse, get_returns, returns_getUncached, iter_ends]
  constructor
  · rintro ⟨footer, reads⟩
    -- the id is no part of the file
    have opened : ∀ r, Describes data r → parse data 0 = .ok { r with sstId := 0 } := by
      rintro r ⟨long, bytes, indexOffset, index, inside, bloom⟩
      exact parse_eq_ok.mpr ⟨⟨long, bytes, indexOffset, index, inside, bloom⟩, rfl⟩
    exact ⟨footer, fun r describes => (reads _ (opened r describes)).1.1,
      fun r describes => (reads _ (opened r describes)).1.2,
      fun r describes => (reads _ (opened r describes)).2⟩
  · rintro ⟨footer, bits, found, iterated⟩
    refine ⟨footer, fun r parsed => ?_⟩
    obtain ⟨describes, -⟩ := parse_eq_ok.mp parsed
    exact ⟨⟨bits r describes, found r describes⟩, iterated r describes⟩

/-- Eight bytes: an empty index at offset `0`, and a filter at offset `255`. -/
theorem not_alwaysReadsSafely : ¬ ∀ data key : Bytes, ReadsSafely data key := by
  intro always
  have opens := (always [0, 0, 0, 0, 255, 0, 0, 0] []).1
  have panics : parse [0, 0, 0, 0, 255, 0, 0, 0] 0 = .error .panic := by decide
  rw [panics] at opens
  exact opens

end SSTableReader

end KvEngine
