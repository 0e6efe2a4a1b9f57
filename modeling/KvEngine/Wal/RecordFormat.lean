import KvEngine.Wal.Record

/-!
# The record format

`Record::decode` accepts exactly the buffers of at least 13 bytes that begin with
the checksum of the rest, where the rest begins with the payload of a record.
The checksum function is arbitrary.
-/

namespace KvEngine

open Foundations

variable {crc : Bytes → UInt32}

@[simp] theorem OpType.fromU8_toU8 (op : OpType) : OpType.fromU8 op.toU8 = .ok op := by
  cases op <;> rfl

theorem OpType.meets_fromU8 (b : UInt8) :
    Result.Meets (fun op => op.toU8 = b) KvError.IsCorruption (OpType.fromU8 b) := by
  unfold OpType.fromU8
  refine Result.Meets.ite (fun isPut => isPut.symm) (fun _ => ?_)
  exact Result.Meets.ite (fun isDelete => isDelete.symm) (fun _ => Result.meets_corruption _)

namespace Record

theorem length_crcPayload (r : Record) :
    r.crcPayload.length = 9 + r.key.length + r.value.length := by
  simp only [crcPayload, List.length_cons, List.length_append, length_leBytes]
  omega

/-- The first four bytes are the checksum of the others. -/
def Checksummed (crc : Bytes → UInt32) (buf : Bytes) : Prop :=
  buf.take 4 = leBytes 4 (crc (buf.drop 4)).toNat

/-- The lengths of the key and of the value fit their fields. -/
def LengthsFit (r : Record) : Prop := r.key.length < 2 ^ 32 ∧ r.value.length < 2 ^ 32

/-- What the checksum test compares. -/
theorem stored_eq_iff {buf : Bytes} (long : 4 ≤ buf.length) :
    leValue (buf.take 4) = (crc (buf.drop 4)).toNat ↔ Checksummed crc buf := by
  have size : (buf.take 4).length = 4 := by
    rw [List.length_take]
    omega
  have written := leBytes_leValue (buf.take 4)
  rw [size] at written
  unfold Checksummed
  constructor
  · intro same
    rw [← written, same]
  · intro same
    rw [same]
    exact leValue_leBytes_of_lt (UInt32.toNat_lt _)

/-- A wrong checksum is found before anything else is read. -/
theorem decode_mismatch {buf : Bytes} (long : 13 ≤ buf.length) (differs : ¬ Checksummed crc buf) :
    decode crc buf = .error (.err (.checksumMismatch (UInt32.ofNat (leValue (buf.take 4)))
      (crc (buf.drop 4)))) := by
  have read : u32At buf 0 = .ok (leValue (buf.take 4)) := leAt_ok (by omega)
  have unequal : leValue (buf.take 4) ≠ (crc (buf.drop 4)).toNat :=
    fun same => differs ((stored_eq_iff (by omega)).mp same)
  rw [decode, if_neg (by omega)]
  simp only [read, Result.ok_bind]
  rw [if_pos unequal]

/-- **Soundness.** Behind a right checksum, or in a short buffer, decoding returns
a record whose payload the rest begins with, or reports corruption. -/
theorem meets_decode {buf : Bytes} (checked : buf.length < 13 ∨ Checksummed crc buf) :
    Result.Meets
      (fun r => 13 ≤ buf.length ∧ r.crcPayload <+: buf.drop 4 ∧ r.LengthsFit)
      KvError.IsCorruption (decode crc buf) := by
  unfold decode
  refine Result.Meets.ite (fun _ => Result.meets_corruption _) (fun long => ?_)
  have read : u32At buf 0 = .ok (leValue (buf.take 4)) := leAt_ok (by omega)
  have same : leValue (buf.take 4) = (crc (buf.drop 4)).toNat :=
    (stored_eq_iff (by omega)).mpr (checked.resolve_left long)
  simp only [read, Result.ok_bind]
  rw [if_neg (not_not.mpr same)]
  refine (meets_byteAt _ (by omega)).bind ?_
  intro b opHere
  refine (OpType.meets_fromU8 b).bind ?_
  rintro op rfl
  refine (meets_leAt _ (by omega)).bind ?_
  rintro keyLen ⟨keyFits, keyLenHere⟩
  refine Result.Meets.ite (fun _ => Result.meets_corruption _) (fun roomKey => ?_)
  refine (meets_slice _ (by omega) (by omega)).bind ?_
  rintro key ⟨keySize, keyHere⟩
  have keySize : key.length = keyLen := by omega
  subst keySize
  refine (meets_leAt _ (by omega)).bind ?_
  rintro valLen ⟨valFits, valLenHere⟩
  refine Result.Meets.ite (fun _ => Result.meets_corruption _) (fun roomValue => ?_)
  refine (meets_slice _ (by omega) (by omega)).bind ?_
  rintro value ⟨valSize, valueHere⟩
  have valSize : value.length = valLen := by omega
  subst valSize
  -- The fields stand one behind the other from the fifth byte on.
  have fields : StandsAt buf 4
      ([op.toU8] ++ (leBytes 4 key.length ++ key ++ leBytes 4 value.length ++ value)) := by
    refine opHere.append (((keyLenHere.append ?_).append ?_).append ?_)
    · simpa using keyHere
    · simpa [Nat.add_assoc, Nat.add_comm] using valLenHere
    · simpa [Nat.add_assoc, Nat.add_comm] using valueHere
  exact ⟨by omega, fields, keyFits, valFits⟩

/-- **Completeness.** A record is decoded from its payload behind a right checksum. -/
theorem decode_payload {buf : Bytes} {r : Record} (long : 13 ≤ buf.length)
    (checked : Checksummed crc buf) (begins : r.crcPayload <+: buf.drop 4) (fits : r.LengthsFit) :
    decode crc buf = .ok r := by
  obtain ⟨keyFits, valueFits⟩ := fits
  obtain ⟨rest, split⟩ := begins
  have front : buf = buf.take 4 ++ (r.crcPayload ++ rest) := by
    rw [split, List.take_append_drop]
  have size : (buf.take 4).length = 4 := by
    rw [List.length_take]
    omega
  have total : buf.length = 13 + r.key.length + r.value.length + rest.length := by
    rw [front, List.length_append, List.length_append, size, length_crcPayload]
    omega
  have layout : buf = buf.take 4 ++ (r.op.toU8 ::
      (leBytes 4 r.key.length ++ (r.key ++ (leBytes 4 r.value.length ++ (r.value ++ rest))))) := by
    refine front.trans ?_
    simp [crcPayload]
  have same : leValue (buf.take 4) = (crc (buf.drop 4)).toNat :=
    (stored_eq_iff (by omega)).mpr checked
  have readCrc : u32At buf 0 = .ok (leValue (buf.take 4)) := leAt_ok (by omega)
  generalize buf.take 4 = stored at *
  have readOp : byteAt buf 4 = .ok r.op.toU8 := byteAt_append stored layout size.symm
  have readKeyLen : u32At buf 5 = .ok r.key.length :=
    leAt_append (stored ++ [r.op.toU8]) (r.key ++ (leBytes 4 r.value.length ++ (r.value ++ rest)))
      (by rw [layout]; simp) (by simp [size]) keyFits
  have readKey : slice buf 9 (9 + r.key.length) = .ok r.key :=
    slice_append (stored ++ r.op.toU8 :: leBytes 4 r.key.length)
      (leBytes 4 r.value.length ++ (r.value ++ rest)) (by rw [layout]; simp) (by simp [size]) rfl
  have readValueLen : u32At buf (9 + r.key.length) = .ok r.value.length :=
    leAt_append (stored ++ r.op.toU8 :: (leBytes 4 r.key.length ++ r.key)) (r.value ++ rest)
      (by rw [layout]; simp) (by simp [size]; omega) valueFits
  have readValue : slice buf (9 + r.key.length + 4) (9 + r.key.length + 4 + r.value.length) =
      .ok r.value :=
    slice_append (stored ++ r.op.toU8 :: (leBytes 4 r.key.length ++
        (r.key ++ leBytes 4 r.value.length))) rest
      (by rw [layout]; simp) (by simp [size]; omega) rfl
  rw [decode, if_neg (by omega)]
  simp only [readCrc, Result.ok_bind]
  rw [if_neg (not_not.mpr same)]
  simp only [readOp, Result.ok_bind, OpType.fromU8_toU8, readKeyLen]
  rw [if_neg (by omega)]
  simp only [readKey, Result.ok_bind, readValueLen]
  rw [if_neg (by omega)]
  simp only [readValue, Result.ok_bind]

/-- What an accepted buffer holds. -/
theorem accepted {buf : Bytes} {r : Record} (decoded : decode crc buf = .ok r) :
    13 ≤ buf.length ∧ r.crcPayload <+: buf.drop 4 ∧ r.LengthsFit := by
  by_cases mismatch : 13 ≤ buf.length ∧ ¬ Checksummed crc buf
  · rw [decode_mismatch mismatch.1 mismatch.2] at decoded
    cases decoded
  · refine (meets_decode ?_).of_ok decoded
    by_cases long : 13 ≤ buf.length
    · exact Or.inr (not_not.mp fun differs => mismatch ⟨long, differs⟩)
    · exact Or.inl (by omega)

/-- **The decoder accepts checksummed records and nothing else.**  A long enough
buffer with a wrong checksum is a checksum mismatch, and every other buffer that
is not accepted is corrupted.  In particular no index is out of bounds. -/
theorem decode_accepts_checksummed (crc : Bytes → UInt32) (buf : Bytes) :
    (∀ r, decode crc buf = .ok r ↔ 13 ≤ buf.length ∧ Checksummed crc buf ∧
        r.crcPayload <+: buf.drop 4 ∧ r.LengthsFit) ∧
      (13 ≤ buf.length ∧ ¬ Checksummed crc buf ↔
        ∃ stored actual, decode crc buf = .error (.err (.checksumMismatch stored actual))) ∧
      ((∃ r, decode crc buf = .ok r) ∨
        (∃ stored actual, decode crc buf = .error (.err (.checksumMismatch stored actual))) ∨
        ∃ msg, decode crc buf = corruption msg) := by
  by_cases mismatch : 13 ≤ buf.length ∧ ¬ Checksummed crc buf
  · obtain ⟨long, differs⟩ := mismatch
    have rejected := decode_mismatch long differs
    refine ⟨fun r => ⟨fun decoded => ?_, fun h => (differs h.2.1).elim⟩, ?_, ?_⟩
    · rw [rejected] at decoded
      cases decoded
    · exact ⟨fun _ => ⟨_, _, rejected⟩, fun _ => ⟨long, differs⟩⟩
    · exact Or.inr (Or.inl ⟨_, _, rejected⟩)
  · have checked : buf.length < 13 ∨ Checksummed crc buf := by
      by_cases long : 13 ≤ buf.length
      · exact Or.inr (not_not.mp fun differs => mismatch ⟨long, differs⟩)
      · exact Or.inl (by omega)
    refine ⟨fun r => ⟨fun decoded => ?_, ?_⟩, ⟨fun h => (mismatch h).elim, ?_⟩, ?_⟩
    · obtain ⟨long, begins, fits⟩ := (meets_decode checked).of_ok decoded
      exact ⟨long, checked.resolve_left (by omega), begins, fits⟩
    · rintro ⟨long, same, begins, fits⟩
      exact decode_payload long same begins fits
    · rintro ⟨stored, actual, decoded⟩
      obtain ⟨e, isErr, msg, isCorruption⟩ := (meets_decode checked).of_error decoded
      subst isCorruption
      cases isErr
    · cases decoded : decode crc buf with
      | ok r => exact Or.inl ⟨r, rfl⟩
      | error e =>
          obtain ⟨e', rfl, msg, rfl⟩ := (meets_decode checked).of_error decoded
          exact Or.inr (Or.inr ⟨msg, rfl⟩)

end Record

end KvEngine
