import KvEngine.Engine.Encoding

/-!
# What a stored value shows

`shown t v` is what the stored value `v` shows to a user whose clock reads `t`.
The decoding helpers of the engine compute it from the clock reading they take,
and change nothing but the number of clock readings.
-/

namespace KvEngine

open Foundations

/-- The inner value of a stored value. -/
def innerOf (v : Bytes) : Bytes := if v.length ≥ 8 then v.drop 8 else v

/-- The sequence number of a stored value. -/
def seqOf (v : Bytes) : Nat := if v.length ≥ 8 then leValue (v.take 8) else 0

theorem decodeWithSeq_eq (v : Bytes) : decodeWithSeq v = some (innerOf v, seqOf v) := by
  unfold decodeWithSeq innerOf seqOf
  split <;> rfl

@[simp] theorem innerOf_encodeWithSeq (value : Bytes) (seq : Nat) :
    innerOf (encodeWithSeq value seq) = value := by
  simp [innerOf, encodeWithSeq]

theorem seqOf_encodeWithSeq {seq : Nat} (value : Bytes) (fits : seq < u64Limit) :
    seqOf (encodeWithSeq value seq) = seq := by
  have long : (encodeWithSeq value seq).length ≥ 8 := by simp [encodeWithSeq]
  rw [seqOf, if_pos long, encodeWithSeq, List.take_left' (length_leBytes 8 seq)]
  exact leValue_leBytes_of_lt fits

/-- What an inner value shows at a clock reading. -/
def shownInner (t : Nat) (v : Bytes) : Option Bytes :=
  if v = tombstone then none
  else if isTtl v then (if t ≥ ttlExpiry v then none else some (v.drop 9))
  else some v

/-- What a stored value shows at a clock reading. -/
def shown (t : Nat) (v : Bytes) : Option Bytes := shownInner t (innerOf v)

/-- A user value that collides with none of the markers. -/
def Opaque (v : Bytes) : Prop := v ≠ tombstone ∧ isTtl v = false

instance (v : Bytes) : Decidable (Opaque v) := inferInstanceAs (Decidable (_ ∧ _))

theorem shownInner_of_opaque {v : Bytes} (plain : Opaque v) (t : Nat) : shownInner t v = some v := by
  rw [shownInner, if_neg plain.1, plain.2]
  rfl

theorem shown_encodeWithSeq {v : Bytes} (plain : Opaque v) (t seq : Nat) :
    shown t (encodeWithSeq v seq) = some v := by
  rw [shown, innerOf_encodeWithSeq, shownInner_of_opaque plain]

@[simp] theorem shownInner_tombstone (t : Nat) : shownInner t tombstone = none := if_pos rfl

@[simp] theorem shown_tombstone (t : Nat) : shown t tombstone = none := rfl

@[simp] theorem shown_encodeWithSeq_tombstone (t seq : Nat) :
    shown t (encodeWithSeq tombstone seq) = none := by
  rw [shown, innerOf_encodeWithSeq, shownInner_tombstone]

/-! ## The decoding helpers -/

namespace Sys

/-- The world after `n` more clock readings. -/
def later (s : Sys) (n : Nat) : Sys := { s with ticks := s.ticks + n }

@[simp] theorem later_dir (s : Sys) (n : Nat) : (s.later n).dir = s.dir := rfl
@[simp] theorem later_journal (s : Sys) (n : Nat) : (s.later n).journal = s.journal := rfl
@[simp] theorem later_env (s : Sys) (n : Nat) : (s.later n).env = s.env := rfl
@[simp] theorem later_ticks (s : Sys) (n : Nat) : (s.later n).ticks = s.ticks + n := rfl
@[simp] theorem later_ioCount (s : Sys) (n : Nat) : (s.later n).ioCount = s.ioCount := rfl
@[simp] theorem later_draws (s : Sys) (n : Nat) : (s.later n).draws = s.draws := rfl
@[simp] theorem later_zero (s : Sys) : s.later 0 = s := rfl

@[simp] theorem later_later (s : Sys) (m n : Nat) : (s.later m).later n = s.later (m + n) := by
  simp [later, Nat.add_assoc]

/-- The next clock reading. -/
def time (s : Sys) : Nat := s.env.clock s.ticks

/-- The clock reads `t` now or later. -/
def Reads (s : Sys) (t : Nat) : Prop := ∃ n, s.ticks ≤ n ∧ t = s.env.clock n

theorem reads_time (s : Sys) : s.Reads s.time := ⟨s.ticks, le_rfl, rfl⟩

theorem Reads.of_later {s : Sys} {n t : Nat} (reads : (s.later n).Reads t) : s.Reads t := by
  obtain ⟨i, notBefore, read⟩ := reads
  exact ⟨i, (Nat.le_add_right _ _).trans notBefore, read⟩

/-- From now on the clock stands still at `t`. -/
def ClockAt (s : Sys) (t : Nat) : Prop := ∀ n, s.ticks ≤ n → s.env.clock n = t

theorem ClockAt.time {s : Sys} {t : Nat} (still : s.ClockAt t) : s.time = t := still _ le_rfl

theorem ClockAt.eq_of_reads {s : Sys} {t t' : Nat} (still : s.ClockAt t) (reads : s.Reads t') :
    t' = t := by
  obtain ⟨n, notBefore, rfl⟩ := reads
  exact still n notBefore

end Sys

section Helpers

variable (s : Sys)

theorem now_run : now s = .ok s.time (s.later 1) := rfl

theorem unwrapTtl_reads (v : Bytes) (notTombstone : v ≠ tombstone) :
    unwrapTtl v s = .ok (shownInner s.time v) (s.later (if isTtl v then 1 else 0)) := by
  unfold unwrapTtl shownInner
  rw [if_neg notTombstone]
  cases ttl : isTtl v with
  | false => rfl
  | true =>
      simp only [if_true]
      rw [bind_apply_ok (now_run s)]
      by_cases expired : s.time ≥ ttlExpiry v
      · rw [if_pos expired, if_pos expired]
        rfl
      · rw [if_neg expired, if_neg expired]
        rfl

theorem unwrapTtl_run (v : Bytes) (notTombstone : v ≠ tombstone) :
    ∃ n, unwrapTtl v s = .ok (shownInner s.time v) (s.later n) :=
  ⟨_, unwrapTtl_reads s v notTombstone⟩

theorem unpackInner_run (v : Bytes) :
    ∃ n, unpackInner v s = .ok (shownInner s.time v) (s.later n) := by
  unfold unpackInner
  split
  · next dead => exact ⟨0, by rw [dead, shownInner_tombstone]; rfl⟩
  · next notTombstone => exact unwrapTtl_run s v notTombstone

theorem unpackValue_run (v : Bytes) :
    ∃ n, unpackValue v s = .ok (shown s.time v) (s.later n) := by
  simp only [unpackValue, decodeWithSeq_eq]
  exact unpackInner_run s (innerOf v)

/-- How often a look at a stored value reads the clock. -/
def clockReads (v : Bytes) : Nat := if isTtl (innerOf v) then 1 else 0

/-- `scan` and compaction keep the entries that show something. -/
theorem isVisible_reads (undecodable : Bool) (v : Bytes) :
    isVisible undecodable v s = .ok (shown s.time v).isSome (s.later (clockReads v)) := by
  simp only [isVisible, decodeWithSeq_eq, shown, clockReads]
  split
  · next dead =>
      rw [dead, shownInner_tombstone]
      rfl
  · next notTombstone =>
      rw [bind_apply_ok (unwrapTtl_reads s (innerOf v) notTombstone)]
      rfl

theorem isVisible_run (undecodable : Bool) (v : Bytes) :
    ∃ n, isVisible undecodable v s = .ok (shown s.time v).isSome (s.later n) :=
  ⟨_, isVisible_reads s undecodable v⟩

end Helpers

end KvEngine
