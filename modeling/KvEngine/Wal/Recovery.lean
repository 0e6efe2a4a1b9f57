import KvEngine.Wal.RecordFormat
import KvEngine.Wal.Writer

/-!
# Reading a log back

A log is a concatenation of encoded records, possibly followed by a part of one
more.  The reader yields the complete records and stops at the incomplete one,
provided that each record's length fits its `u32` field.
-/

namespace KvEngine

open Foundations

variable {crc : Bytes → UInt32}

namespace Record

/-- The record's length fits the length field. -/
def Fits (r : Record) : Prop := 4 + r.crcPayload.length < 2 ^ 32

/-- The part of the encoding behind the length prefix. -/
def body (crc : Bytes → UInt32) (r : Record) : Bytes :=
  leBytes 4 (crc r.crcPayload).toNat ++ r.crcPayload

theorem encode_eq (crc : Bytes → UInt32) (r : Record) :
    r.encode crc = leBytes 4 (4 + r.crcPayload.length) ++ r.body crc := by
  simp [encode, body]

@[simp] theorem length_body (crc : Bytes → UInt32) (r : Record) :
    (r.body crc).length = 4 + r.crcPayload.length := by
  simp [body]

theorem length_encode (crc : Bytes → UInt32) (r : Record) :
    (r.encode crc).length = 17 + r.key.length + r.value.length := by
  rw [encode_eq, List.length_append, length_leBytes, length_body, length_crcPayload]
  omega

/-- **Round trip.** A record whose length fits is decoded from its own bytes. -/
theorem decode_body {r : Record} (fits : r.Fits) : decode crc (r.body crc) = .ok r := by
  have length := length_crcPayload r
  unfold Fits at fits
  have payload : (r.body crc).drop 4 = r.crcPayload := by
    simp [body]
  refine decode_payload ?_ ?_ ?_ ⟨by omega, by omega⟩
  · rw [length_body, length]
    omega
  · unfold Checksummed
    rw [payload]
    simp [body]
  · exact ⟨[], by rw [List.append_nil, payload]⟩

/-- The operation follows the length prefix and the checksum. -/
theorem getElem_encode_op (crc : Bytes → UInt32) (r : Record) :
    (r.encode crc)[8]? = some r.op.toU8 := by
  have layout : r.encode crc =
      (leBytes 4 (4 + r.crcPayload.length) ++ leBytes 4 (crc r.crcPayload).toNat) ++ r.op.toU8 ::
        (leBytes 4 r.key.length ++ r.key ++ leBytes 4 r.value.length ++ r.value) := by
    simp [encode, crcPayload]
  rw [layout, List.getElem?_append_right (by simp)]
  simp

/-- Where a decoded record has its operation and the length of its key. -/
theorem decode_eq_ok {buf : Bytes} {r : Record} (decoded : decode crc buf = .ok r) :
    13 ≤ buf.length ∧ buf[4]? = some r.op.toU8 ∧
      leValue ((buf.drop 5).take 4) = r.key.length := by
  obtain ⟨long, begins, keyFits, -⟩ := accepted decoded
  obtain ⟨rest, split⟩ := begins
  have layout : buf = buf.take 4 ++ r.op.toU8 :: (leBytes 4 r.key.length ++ (r.key ++
      (leBytes 4 r.value.length ++ (r.value ++ rest)))) := by
    conv_lhs => rw [← List.take_append_drop 4 buf, ← split]
    simp [crcPayload]
  have size : (buf.take 4).length = 4 := by
    rw [List.length_take]
    omega
  generalize buf.take 4 = stored at layout size
  subst layout
  refine ⟨long, ?_, ?_⟩
  · rw [List.getElem?_append_right (by omega), size]
    rfl
  · have skip : 5 = stored.length + 1 := by omega
    rw [skip, List.drop_append, List.drop_of_length_le (by omega)]
    simpa using leValue_leBytes_of_lt (n := 4) keyFits

end Record

/-- The bytes of a log that holds the given records. -/
def encodeLog (crc : Bytes → UInt32) (rs : List Record) : Bytes := rs.flatMap (Record.encode crc)

theorem encodeLog_append (rs ts : List Record) :
    encodeLog crc (rs ++ ts) = encodeLog crc rs ++ encodeLog crc ts :=
  List.flatMap_append

theorem eq_nil_of_encodeLog {crc : Bytes → UInt32} {rs : List Record}
    (empty : encodeLog crc rs = []) : rs = [] := by
  cases rs with
  | nil => rfl
  | cons r rs =>
      have none : r.encode crc = [] := (List.append_eq_nil_iff.mp empty).1
      have short := congrArg List.length none
      rw [Record.encode_eq, List.length_append, length_leBytes] at short
      simp at short

namespace WALReader

/-- The reader takes a complete record off the front. -/
theorem next_encode_append {r : Record} (fits : r.Fits) (rest : Bytes) :
    next crc (r.encode crc ++ rest) = some (.ok r, rest) := by
  have prefixValue : leValue ((r.encode crc ++ rest).take 4) = 4 + r.crcPayload.length := by
    rw [Record.encode_eq, List.append_assoc, List.take_left' (length_leBytes _ _)]
    exact leValue_leBytes_of_lt fits
  have behind : (r.encode crc ++ rest).drop 4 = r.body crc ++ rest := by
    rw [Record.encode_eq, List.append_assoc, List.drop_left' (length_leBytes _ _)]
  have long : ¬ (r.encode crc ++ rest).length < 4 := by
    rw [List.length_append, Record.length_encode]
    omega
  have complete : ¬ (r.body crc ++ rest).length < 4 + r.crcPayload.length := by
    rw [List.length_append, Record.length_body]
    omega
  rw [next, if_neg long]
  simp only [prefixValue, behind, if_neg complete, List.take_left' (Record.length_body crc r),
    List.drop_left' (Record.length_body crc r), Record.decode_body fits]

/-- The reader stops at an incomplete record. -/
theorem next_torn {r : Record} (fits : r.Fits) {torn missing : Bytes}
    (cut : r.encode crc = torn ++ missing) (proper : missing ≠ []) : next crc torn = none := by
  have positive : 0 < missing.length := List.length_pos_iff.mpr proper
  have total := congrArg List.length cut
  rw [List.length_append, Record.encode_eq, List.length_append, length_leBytes,
    Record.length_body] at total
  unfold next
  split
  · rfl
  · next long =>
      have prefixValue : leValue (torn.take 4) = 4 + r.crcPayload.length := by
        have front := congrArg (List.take 4) cut
        rw [Record.encode_eq, List.take_left' (length_leBytes _ _),
          List.take_append_of_le_length (by omega)] at front
        rw [← front]
        exact leValue_leBytes_of_lt fits
      simp only [prefixValue]
      rw [if_pos (by rw [List.length_drop]; omega)]

/-- The reader consumes at least the length prefix of an item. -/
theorem next_length {data rest : Bytes} {item : Result Record}
    (step : next crc data = some (item, rest)) : rest.length < data.length := by
  unfold next at step
  split at step
  · cases step
  · simp only at step
    split at step
    · cases step
    · cases step
      simp only [List.length_drop]
      omega

/-- More fuel than bytes makes no difference. -/
theorem itemsFrom_congr {fuel fuel' : Nat} {data : Bytes} (enough : data.length ≤ fuel)
    (enough' : data.length ≤ fuel') : itemsFrom crc fuel data = itemsFrom crc fuel' data := by
  induction fuel generalizing data fuel' with
  | zero =>
      obtain rfl : data = [] := List.length_eq_zero_iff.mp (Nat.le_zero.mp enough)
      cases fuel' <;> rfl
  | succ fuel inductionHypothesis =>
      cases fuel' with
      | zero =>
          obtain rfl : data = [] := List.length_eq_zero_iff.mp (Nat.le_zero.mp enough')
          rfl
      | succ fuel' =>
          simp only [itemsFrom]
          cases step : next crc data with
          | none => rfl
          | some found =>
              have shorter := next_length step
              simp only
              rw [inductionHypothesis (by omega) (by omega : found.2.length ≤ fuel')]

/-- The items of a log, one step at a time. -/
theorem items_eq (data : Bytes) :
    items crc data =
      match next crc data with
      | none => []
      | some (item, rest) => item :: items crc rest := by
  unfold items
  cases length : data.length with
  | zero =>
      obtain rfl : data = [] := List.length_eq_zero_iff.mp length
      rfl
  | succ n =>
      rw [itemsFrom]
      cases step : next crc data with
      | none => rfl
      | some found =>
          have shorter := next_length step
          simp only
          rw [itemsFrom_congr (by omega) le_rfl]

theorem items_encode_append {r : Record} (fits : r.Fits) (rest : Bytes) :
    items crc (r.encode crc ++ rest) = .ok r :: items crc rest := by
  rw [items_eq, next_encode_append fits]

/-- Complete records come first, whatever follows them. -/
theorem items_encodeLog_append (crc : Bytes → UInt32) {rs : List Record}
    (fits : ∀ r ∈ rs, r.Fits) (rest : Bytes) :
    items crc (encodeLog crc rs ++ rest) = rs.map .ok ++ items crc rest := by
  induction rs with
  | nil => rfl
  | cons r rs inductionHypothesis =>
      rw [encodeLog, List.flatMap_cons, List.append_assoc,
        items_encode_append (fits r List.mem_cons_self), ← encodeLog,
        inductionHypothesis fun r hr => fits r (List.mem_cons_of_mem _ hr)]
      rfl

theorem items_nil : items crc [] = [] := rfl

/-- A torn tail yields nothing. -/
theorem items_torn {r : Record} (fits : r.Fits) {torn missing : Bytes}
    (cut : r.encode crc = torn ++ missing) (proper : missing ≠ []) : items crc torn = [] := by
  rw [items_eq, next_torn fits cut proper]

theorem collect_ok (rs : List Record) : collect (rs.map .ok) = .ok rs := by
  induction rs with
  | nil => rfl
  | cons r rs inductionHypothesis =>
      rw [List.map_cons, collect, inductionHypothesis, Result.ok_bind]

/-- When a replay succeeds, every item is a record. -/
theorem eq_of_collect {its : List (Result Record)} {rs : List Record}
    (collected : collect its = .ok rs) : its = rs.map .ok := by
  induction its generalizing rs with
  | nil =>
      cases collected
      rfl
  | cons item its inductionHypothesis =>
      cases item with
      | error e => cases collected
      | ok r =>
          obtain ⟨later, rest, same⟩ := Result.bind_eq_ok.mp collected
          cases same
          rw [inductionHypothesis rest, List.map_cons]

/-- **Replay of an intact log.** -/
theorem collect_encodeLog {rs : List Record} (fits : ∀ r ∈ rs, r.Fits) :
    collect (items crc (encodeLog crc rs)) = .ok rs := by
  have intact := items_encodeLog_append crc fits []
  rw [List.append_nil, items_nil, List.append_nil] at intact
  rw [intact, collect_ok]

/-- **Replay of a torn log**: the incomplete record at the end is ignored. -/
theorem collect_torn {rs : List Record} (fits : ∀ r ∈ rs, r.Fits) {r : Record} (fit : r.Fits)
    {torn missing : Bytes} (cut : r.encode crc = torn ++ missing) (proper : missing ≠ []) :
    collect (items crc (encodeLog crc rs ++ torn)) = .ok rs := by
  rw [items_encodeLog_append crc fits, items_torn fit cut proper, List.append_nil, collect_ok]

/-- Where an item that is a record has its operation and the length of its key. -/
theorem next_eq_ok {data rest : Bytes} {r : Record} (step : next crc data = some (.ok r, rest)) :
    data[8]? = some r.op.toU8 ∧ leValue ((data.drop 9).take 4) = r.key.length := by
  unfold next at step
  split at step
  · cases step
  · simp only at step
    split at step
    · cases step
    · next complete =>
        obtain ⟨decoded, -⟩ := Prod.mk.inj (Option.some.inj step)
        obtain ⟨long, op, keyLen⟩ := Record.decode_eq_ok decoded
        rw [List.length_take] at long
        rw [List.getElem?_take_of_lt (by omega), List.getElem?_drop] at op
        refine ⟨op, ?_⟩
        rw [← keyLen, List.drop_take, List.drop_drop, List.take_take,
          Nat.min_eq_left (by omega)]

/-! ## A log cut short -/

/-- The records whose encodings lie completely within the first `n` bytes of a log. -/
def completeWithin (crc : Bytes → UInt32) : Nat → List Record → List Record
  | _, [] => []
  | n, r :: rs =>
      if (r.encode crc).length ≤ n then r :: completeWithin crc (n - (r.encode crc).length) rs
      else []

/-- A cut log yields the records that lie completely before the cut. -/
theorem items_take (crc : Bytes → UInt32) {rs : List Record} (fits : ∀ r ∈ rs, r.Fits) (n : Nat) :
    items crc ((encodeLog crc rs).take n) = (completeWithin crc n rs).map .ok := by
  induction rs generalizing n with
  | nil => simp [encodeLog, completeWithin, items_nil]
  | cons r rs inductionHypothesis =>
      have fit := fits r List.mem_cons_self
      rw [encodeLog, List.flatMap_cons, ← encodeLog, List.take_append, completeWithin]
      split
      · next inside =>
          rw [List.take_of_length_le inside, items_encode_append fit,
            inductionHypothesis fun r hr => fits r (List.mem_cons_of_mem _ hr)]
          rfl
      · next outside =>
          have cut : r.encode crc = (r.encode crc).take n ++ (r.encode crc).drop n :=
            (List.take_append_drop _ _).symm
          have missing : (r.encode crc).drop n ≠ [] := by
            rw [Ne, List.drop_eq_nil_iff]
            omega
          rw [Nat.sub_eq_zero_of_le (by omega), List.take_zero, List.append_nil,
            items_torn fit cut missing]
          rfl

/-! ## A damaged record -/

/-- Behind a length prefix, the reader takes the announced number of bytes as a record. -/
theorem items_frame {body : Bytes} (fits : body.length < 2 ^ 32) (rest : Bytes) :
    items crc (leBytes 4 body.length ++ body ++ rest) =
      Record.decode crc body :: items crc rest := by
  have announced : leValue ((leBytes 4 body.length ++ (body ++ rest)).take 4) = body.length := by
    rw [List.take_left' (length_leBytes _ _)]
    exact leValue_leBytes_of_lt fits
  have long : ¬ (leBytes 4 body.length ++ (body ++ rest)).length < 4 := by simp
  rw [items_eq, List.append_assoc, next, if_neg long]
  simp only [announced, List.drop_left' (length_leBytes 4 _), List.length_append, List.take_left,
    List.drop_left]
  rw [if_neg (by omega)]

/-- The first item that is an error fails the whole replay. -/
theorem collect_error (rs : List Record) (e : Failure) (later : List (Result Record)) :
    collect (rs.map .ok ++ .error e :: later) = .error e := by
  induction rs with
  | nil => rfl
  | cons r rs inductionHypothesis =>
      rw [List.map_cons, List.cons_append, collect, inductionHypothesis]
      rfl

end WALReader

end KvEngine
