import Mathlib.Data.Nat.Bitwise
import KvEngine.Slice

/-!
# Bloom filter

A bit array with double hashing `h(i) = h1 + i * h2`.  Hashes are `u32` values
and the words of the array `u64` values, both kept as naturals.
-/

namespace KvEngine

open Foundations

/-- A Bloom filter for testing whether a key *may* be in a set. -/
structure BloomFilter where
  /-- Bit array stored as `u64` words. -/
  bits : List Nat
  /-- Number of hash functions. -/
  numHashes : Nat
  /-- Total number of bits. -/
  numBits : Nat
  deriving DecidableEq, Repr

namespace BloomFilter

/-- `a.wrapping_mul(b)` on `u32` -/
def wrappingMul (a b : Nat) : Nat := a * b % u32Limit

/-- `a.wrapping_add(b)` on `u32` -/
def wrappingAdd (a b : Nat) : Nat := (a + b) % u32Limit

/-- FNV-1a from a given seed. -/
def fnv1aWithSeed (key : Bytes) (seed : Nat) : Nat :=
  key.foldl (fun h b => wrappingMul (h ^^^ b.toNat) 0x01000193) seed

/-- FNV-1a hash. -/
def fnv1a (key : Bytes) : Nat := fnv1aWithSeed key 0x811c9dc5

/-- Two hashes of a key; the second one is odd. -/
def doubleHash (key : Bytes) : Nat × Nat :=
  let h1 := fnv1a key
  let h2 := fnv1aWithSeed key (0x811c9dc5 ^^^ 0x01000193)
  (h1, wrappingAdd (wrappingMul h2 2) 1)

/-- Optimal number of hash functions: `bits_per_key * ln 2`, rounded, between 1
and 30.  The constant is the `f64` value of `ln 2`, over `2^53`. -/
def optimalHashes (bitsPerKey : Nat) : Nat :=
  max 1 (min 30 ((2 * bitsPerKey * 6243314768165359 + 2 ^ 53) / 2 ^ 54))

/-- The bit that hash function `i` assigns to a key. -/
def bitIndex (key : Bytes) (numBits i : Nat) : Nat :=
  let (h1, h2) := doubleHash key
  wrappingAdd h1 (wrappingMul (i % u32Limit) h2) % numBits

/-- `bits[pos / 64] |= 1 << (pos % 64)` -/
def setBit (bits : List Nat) (pos : Nat) : Result (List Nat) := do
  let word ← orPanic bits[pos / 64]?
  .ok (bits.set (pos / 64) (word ||| 1 <<< (pos % 64)))

/-- `bits[pos / 64] & (1 << (pos % 64)) != 0` -/
def testBit (bits : List Nat) (pos : Nat) : Result Bool := do
  let word ← orPanic bits[pos / 64]?
  .ok (word &&& 1 <<< (pos % 64) != 0)

/-- Set the bits of one key for the hash functions `i, .., i + n - 1`. -/
def setKeyBits (key : Bytes) (numBits : Nat) : Nat → Nat → List Nat → Result (List Nat)
  | 0, _, bits => .ok bits
  | n + 1, i, bits => do
      let bits ← setBit bits (bitIndex key numBits i)
      setKeyBits key numBits n (i + 1) bits

/-- Set the bits of all keys. -/
def setAllBits (numHashes numBits : Nat) : List Bytes → List Nat → Result (List Nat)
  | [], bits => .ok bits
  | key :: keys, bits => do
      let bits ← setKeyBits key numBits numHashes 0 bits
      setAllBits numHashes numBits keys bits

/-- Build a Bloom filter from the given keys, for any number of hash functions that
`optimal_hashes` may choose. -/
def buildWith (numHashes : Nat) (keys : List Bytes) (bitsPerKey : Nat) : Result BloomFilter := do
  let numBits := max (keys.length * bitsPerKey) 64
  let numWords := (numBits + 63) / 64
  let bits ← setAllBits numHashes numBits keys (List.replicate numWords 0)
  .ok { bits, numHashes, numBits }

/-- Build a Bloom filter from the given keys. -/
def build (keys : List Bytes) (bitsPerKey : Nat) : Result BloomFilter :=
  buildWith (optimalHashes bitsPerKey) keys bitsPerKey

/-- Test the bits of the hash functions `i, .., i + n - 1`. -/
def testKeyBits (f : BloomFilter) (key : Bytes) : Nat → Nat → Result Bool
  | 0, _ => .ok true
  | n + 1, i => do
      if ← testBit f.bits (bitIndex key f.numBits i) then testKeyBits f key n (i + 1)
      else .ok false

/-- Test whether the key *may* be in the set. -/
def mayContain (f : BloomFilter) (key : Bytes) : Result Bool :=
  if f.numBits = 0 then .ok false else testKeyBits f key f.numHashes 0

/-- Serialize the bloom filter to bytes. -/
def encode (f : BloomFilter) : Bytes :=
  leBytes 4 f.numHashes ++ leBytes 4 f.numBits ++ leBytes 4 f.bits.length ++
    f.bits.flatMap (leBytes 8)

/-- Read `n` words from `offset` on. -/
def decodeWords (data : Bytes) : Nat → Nat → Result (List Nat)
  | 0, _ => .ok []
  | n + 1, offset => do
      let word ← u64At data offset
      let rest ← decodeWords data n (offset + 8)
      .ok (word :: rest)

/-- Deserialize a bloom filter from bytes. -/
def decode (data : Bytes) : Result BloomFilter :=
  if data.length < 12 then corruption "bloom filter too short"
  else do
    let numHashes ← u32At data 0
    let numBits ← u32At data 4
    let numWords ← u32At data 8
    if data.length < 12 + numWords * 8 then corruption "bloom filter data truncated"
    else do
      let bits ← decodeWords data numWords 12
      .ok { bits, numHashes, numBits }

/-! ## No false negatives -/

/-- The bit at `pos` is set. -/
def IsSet (bits : List Nat) (pos : Nat) : Prop :=
  ∃ word, bits[pos / 64]? = some word ∧ word.testBit (pos % 64) = true

/-- An array of 64-bit words with at least `numBits` bits. -/
def Words (numBits : Nat) (bits : List Nat) : Prop :=
  numBits ≤ 64 * bits.length ∧ ∀ word ∈ bits, word < 2 ^ 64

theorem testBit_eq {bits : List Nat} {pos word : Nat} (found : bits[pos / 64]? = some word) :
    testBit bits pos = .ok (word.testBit (pos % 64)) := by
  simp only [testBit, found, orPanic_some, Result.ok_bind, Nat.one_shiftLeft, Nat.and_two_pow]
  cases word.testBit (pos % 64) with
  | false => simp
  | true => simp

/-- Setting a bit sets it, keeps the others and keeps the words of an array. -/
theorem setBit_ok {bits : List Nat} {numBits pos : Nat} (words : Words numBits bits)
    (inside : pos < numBits) :
    ∃ bits', setBit bits pos = .ok bits' ∧ Words numBits bits' ∧ bits'.length = bits.length ∧
      IsSet bits' pos ∧ ∀ other, IsSet bits other → IsSet bits' other := by
  obtain ⟨enough, small⟩ := words
  have inside : pos / 64 < bits.length := by omega
  have found : bits[pos / 64]? = some bits[pos / 64] := List.getElem?_eq_getElem inside
  have fits : bits[pos / 64] ||| 1 <<< (pos % 64) < 2 ^ 64 := by
    refine Nat.or_lt_two_pow (small _ (List.getElem_mem inside)) ?_
    rw [Nat.one_shiftLeft]
    exact Nat.pow_lt_pow_right (by omega) (by omega)
  refine ⟨bits.set (pos / 64) (bits[pos / 64] ||| 1 <<< (pos % 64)), ?_, ⟨?_, ?_⟩, ?_, ?_, ?_⟩
  · simp only [setBit, found, orPanic_some, Result.ok_bind]
  · simpa using enough
  · intro word member
    rcases List.mem_or_eq_of_mem_set member with old | rfl
    · exact small word old
    · exact fits
  · simp
  · refine ⟨_, List.getElem?_set_self inside, ?_⟩
    rw [Nat.testBit_or, Nat.one_shiftLeft, Nat.testBit_two_pow_self, Bool.or_true]
  · rintro other ⟨word, present, set⟩
    by_cases here : pos / 64 = other / 64
    · rw [← here, found] at present
      cases present
      refine ⟨_, by rw [← here]; exact List.getElem?_set_self inside, ?_⟩
      rw [Nat.testBit_or, set, Bool.true_or]
    · exact ⟨word, by rw [List.getElem?_set_ne here, present], set⟩

theorem setKeyBits_ok (key : Bytes) {numBits n i : Nat} {bits : List Nat}
    (words : Words numBits bits) (positive : 0 < numBits) :
    ∃ bits', setKeyBits key numBits n i bits = .ok bits' ∧ Words numBits bits' ∧
      bits'.length = bits.length ∧
      (∀ j, i ≤ j → j < i + n → IsSet bits' (bitIndex key numBits j)) ∧
      ∀ other, IsSet bits other → IsSet bits' other := by
  induction n generalizing i bits with
  | zero => exact ⟨bits, rfl, words, rfl, fun j h₁ h₂ => absurd h₂ (by omega), fun _ h => h⟩
  | succ n inductionHypothesis =>
      have inside : bitIndex key numBits i < numBits := Nat.mod_lt _ positive
      obtain ⟨bits₁, first, words₁, length₁, set₁, keep₁⟩ := setBit_ok words inside
      obtain ⟨bits₂, rest, words₂, length₂, set₂, keep₂⟩ := inductionHypothesis (i := i + 1) words₁
      refine ⟨bits₂, ?_, words₂, length₂.trans length₁, fun j lower upper => ?_,
        fun other present => keep₂ other (keep₁ other present)⟩
      · rw [setKeyBits, first, Result.ok_bind, rest]
      · rcases Nat.eq_or_lt_of_le lower with rfl | above
        · exact keep₂ _ set₁
        · exact set₂ j above (by omega)

theorem setAllBits_ok (numHashes : Nat) (keys : List Bytes) {numBits : Nat} {bits : List Nat}
    (words : Words numBits bits) (positive : 0 < numBits) :
    ∃ bits', setAllBits numHashes numBits keys bits = .ok bits' ∧ Words numBits bits' ∧
      bits'.length = bits.length ∧
      (∀ key ∈ keys, ∀ j, j < numHashes → IsSet bits' (bitIndex key numBits j)) ∧
      ∀ other, IsSet bits other → IsSet bits' other := by
  induction keys generalizing bits with
  | nil => exact ⟨bits, rfl, words, rfl, by simp, fun _ h => h⟩
  | cons key keys inductionHypothesis =>
      obtain ⟨bits₁, first, words₁, length₁, set₁, keep₁⟩ :=
        setKeyBits_ok key (n := numHashes) (i := 0) words positive
      obtain ⟨bits₂, rest, words₂, length₂, set₂, keep₂⟩ := inductionHypothesis words₁
      refine ⟨bits₂, ?_, words₂, length₂.trans length₁, fun k member j small => ?_,
        fun other present => keep₂ other (keep₁ other present)⟩
      · rw [setAllBits, first, Result.ok_bind, rest]
      · rcases List.mem_cons.mp member with rfl | later
        · exact keep₂ _ (set₁ j (Nat.zero_le _) (by omega))
        · exact set₂ k later j small

/-- A filter whose array has all the bits it speaks about. -/
structure WellFormed (f : BloomFilter) : Prop where
  words : Words f.numBits f.bits
  positive : 0 < f.numBits

/-- Every bit a filter speaks about is inside its word array. -/
theorem WellFormed.bitIndex_inside {f : BloomFilter} (wellFormed : WellFormed f) (key : Bytes)
    (i : Nat) : bitIndex key f.numBits i / 64 < f.bits.length := by
  have inside : bitIndex key f.numBits i < f.numBits := Nat.mod_lt _ wellFormed.positive
  have enough := wellFormed.words.1
  omega

/-- The filter answers for every key, and positively when the key's bits are set. -/
theorem testKeyBits_ok {f : BloomFilter} (wellFormed : WellFormed f) (key : Bytes) (n i : Nat) :
    ∃ answer, f.testKeyBits key n i = .ok answer ∧
      ((∀ j, i ≤ j → j < i + n → IsSet f.bits (bitIndex key f.numBits j)) → answer = true) := by
  induction n generalizing i with
  | zero => exact ⟨true, rfl, fun _ => rfl⟩
  | succ n inductionHypothesis =>
      have reached := wellFormed.bitIndex_inside key i
      have found : f.bits[bitIndex key f.numBits i / 64]? =
          some f.bits[bitIndex key f.numBits i / 64] := List.getElem?_eq_getElem reached
      obtain ⟨answer, rest, complete⟩ := inductionHypothesis (i + 1)
      simp only [testKeyBits, testBit_eq found, Result.ok_bind]
      split
      · exact ⟨answer, rest, fun set => complete fun j lower upper => set j (by omega) (by omega)⟩
      · next clear =>
          refine ⟨false, rfl, fun set => ?_⟩
          obtain ⟨word, present, bit⟩ := set i le_rfl (by omega)
          rw [found] at present
          cases present
          exact absurd bit clear

theorem mayContain_ok {f : BloomFilter} (wellFormed : WellFormed f) (key : Bytes) :
    ∃ answer, f.mayContain key = .ok answer := by
  obtain ⟨answer, run, -⟩ := testKeyBits_ok wellFormed key f.numHashes 0
  exact ⟨answer, by rw [mayContain, if_neg wellFormed.positive.ne', run]⟩

/-- **No false negatives.** A filter built from keys may contain each of them. -/
theorem buildWith_ok (numHashes : Nat) (keys : List Bytes) (bitsPerKey : Nat) :
    ∃ f, buildWith numHashes keys bitsPerKey = .ok f ∧ WellFormed f ∧
      f.numHashes = numHashes ∧ f.numBits = max (keys.length * bitsPerKey) 64 ∧
      f.bits.length = (f.numBits + 63) / 64 ∧ ∀ key ∈ keys, f.mayContain key = .ok true := by
  have positive : 0 < max (keys.length * bitsPerKey) 64 := by omega
  have start : Words (max (keys.length * bitsPerKey) 64)
      (List.replicate ((max (keys.length * bitsPerKey) 64 + 63) / 64) 0) := by
    refine ⟨by rw [List.length_replicate]; omega, fun word member => ?_⟩
    rw [List.eq_of_mem_replicate member]
    exact Nat.two_pow_pos 64
  obtain ⟨bits, run, words, length, set, -⟩ := setAllBits_ok numHashes keys start positive
  refine ⟨⟨bits, numHashes, max (keys.length * bitsPerKey) 64⟩, ?_,
    ⟨words, positive⟩, rfl, rfl, by rw [length, List.length_replicate], fun key member => ?_⟩
  · simp only [buildWith, run, Result.ok_bind]
  · obtain ⟨answer, tested, complete⟩ := testKeyBits_ok
      (f := ⟨bits, numHashes, max (keys.length * bitsPerKey) 64⟩)
      ⟨words, positive⟩ key numHashes 0
    rw [mayContain, if_neg positive.ne', tested,
      complete fun j _ small => set key member j (by omega)]

theorem build_ok (keys : List Bytes) (bitsPerKey : Nat) :
    ∃ f, build keys bitsPerKey = .ok f ∧ WellFormed f ∧
      f.numHashes = optimalHashes bitsPerKey ∧ f.numBits = max (keys.length * bitsPerKey) 64 ∧
      f.bits.length = (f.numBits + 63) / 64 ∧ ∀ key ∈ keys, f.mayContain key = .ok true :=
  buildWith_ok (optimalHashes bitsPerKey) keys bitsPerKey

theorem optimalHashes_mem (bitsPerKey : Nat) :
    1 ≤ optimalHashes bitsPerKey ∧ optimalHashes bitsPerKey ≤ 30 := by
  unfold optimalHashes
  omega

/-! ## Round trip -/

theorem decodeWords_flatMap (data : Bytes) (words : List Nat) (before after : Bytes)
    (layout : data = before ++ (words.flatMap (leBytes 8) ++ after))
    (small : ∀ word ∈ words, word < 2 ^ 64) :
    decodeWords data words.length before.length = .ok words := by
  induction words generalizing before with
  | nil => rfl
  | cons word words inductionHypothesis =>
      rw [List.flatMap_cons, List.append_assoc] at layout
      have first : u64At data before.length = .ok word :=
        leAt_append _ _ layout rfl (small word List.mem_cons_self)
      have rest := inductionHypothesis (before ++ leBytes 8 word)
        (by rw [layout, List.append_assoc]) (fun w hw => small w (List.mem_cons_of_mem _ hw))
      rw [List.length_append, length_leBytes] at rest
      simp only [List.length_cons, decodeWords, first, Result.ok_bind, rest]

theorem length_flatMap_leBytes (n : Nat) (words : List Nat) :
    (words.flatMap (leBytes n)).length = words.length * n := by
  simp [List.length_flatMap]

/-- **Round trip.** A filter whose numbers fit their fields is read back. -/
theorem decode_encode {f : BloomFilter} (wellFormed : WellFormed f)
    (hashes : f.numHashes < 2 ^ 32) (bits : f.numBits < 2 ^ 32) (words : f.bits.length < 2 ^ 32) :
    decode f.encode = .ok f := by
  have readHashes : u32At f.encode 0 = .ok f.numHashes :=
    leAt_append [] (leBytes 4 f.numBits ++ (leBytes 4 f.bits.length ++ f.bits.flatMap (leBytes 8)))
      (by simp [encode]) rfl (by omega)
  have readBits : u32At f.encode 4 = .ok f.numBits :=
    leAt_append (leBytes 4 f.numHashes) (leBytes 4 f.bits.length ++ f.bits.flatMap (leBytes 8))
      (by simp [encode]) (by simp) (by omega)
  have readWords : u32At f.encode 8 = .ok f.bits.length :=
    leAt_append (leBytes 4 f.numHashes ++ leBytes 4 f.numBits) (f.bits.flatMap (leBytes 8))
      (by simp [encode]) (by simp) (by omega)
  have readArray := decodeWords_flatMap f.encode f.bits
    (leBytes 4 f.numHashes ++ leBytes 4 f.numBits ++ leBytes 4 f.bits.length) []
    (by simp [encode]) wellFormed.words.2
  simp only [List.length_append, length_leBytes] at readArray
  have length : f.encode.length = 12 + f.bits.length * 8 := by
    simp only [encode, List.length_append, length_leBytes, length_flatMap_leBytes]
  simp only [decode, if_neg (by omega : ¬ f.encode.length < 12), readHashes, Result.ok_bind,
    readBits, readWords, if_neg (by omega : ¬ f.encode.length < 12 + f.bits.length * 8), readArray]

/-- **A stored filter** has no false negatives either, however many hash functions it was built
with, and all its bit indices are inside the word array it was built with. -/
theorem stored_no_false_negatives (keys : List Bytes) (bitsPerKey numHashes : Nat)
    (small : keys.length * bitsPerKey < 2 ^ 32) (least : 1 ≤ numHashes) (most : numHashes ≤ 30) :
    ∃ f g, buildWith numHashes keys bitsPerKey = .ok f ∧ decode f.encode = .ok g ∧
      (∀ key ∈ keys, g.mayContain key = .ok true) ∧
      (∀ key, ∃ answer, g.mayContain key = .ok answer) ∧
      f.numBits = max (keys.length * bitsPerKey) 64 ∧ f.bits.length = (f.numBits + 63) / 64 ∧
      ∀ key i, bitIndex key f.numBits i / 64 < f.bits.length ∧
        bitIndex key g.numBits i / 64 < g.bits.length := by
  obtain ⟨f, run, wellFormed, hashes, bits, words, contained⟩ :=
    buildWith_ok numHashes keys bitsPerKey
  have stored : decode f.encode = .ok f :=
    decode_encode wellFormed (by omega) (by omega) (by omega)
  exact ⟨f, f, run, stored, contained, mayContain_ok wellFormed, bits, words, fun key i =>
    ⟨wellFormed.bitIndex_inside key i, wellFormed.bitIndex_inside key i⟩⟩

/-- The number of hash functions that `build` chooses is one of them. -/
theorem stored_no_false_negatives_two :
    ∃ f g, build [[1], [2]] 10 = .ok f ∧ decode f.encode = .ok g ∧
      g.mayContain [1] = .ok true := by
  obtain ⟨f, g, run, stored, contained, -⟩ := stored_no_false_negatives [[1], [2]] 10
    (optimalHashes 10) (by decide) (optimalHashes_mem 10).1 (optimalHashes_mem 10).2
  exact ⟨f, g, run, stored, contained [1] (by decide)⟩

end BloomFilter

end KvEngine
