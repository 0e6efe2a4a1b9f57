import KvEngine.Error

/-!
# Reading from byte slices

Indexing and slicing as Rust does it: an index out of bounds panics.  The
lemmas give the three facts the codecs need: when a read is in bounds, what it
returns inside a concatenation, and how little-endian fields are read back.
-/

namespace KvEngine

open Foundations

/-- `buf[i]` -/
def byteAt (buf : Bytes) (i : Nat) : Result UInt8 := orPanic buf[i]?

/-- `buf[a..b]` -/
def slice (buf : Bytes) (a b : Nat) : Result Bytes :=
  if a ≤ b ∧ b ≤ buf.length then .ok ((buf.drop a).take (b - a)) else .error .panic

/-- `uN::from_le_bytes` of the `n` bytes at `buf[pos..]`, read one by one. -/
def leAt (n : Nat) (buf : Bytes) (pos : Nat) : Result Nat :=
  if pos + n ≤ buf.length then .ok (leValue ((buf.drop pos).take n)) else .error .panic

/-- `u16::from_le_bytes([buf[pos], buf[pos + 1]])` -/
abbrev u16At := leAt 2

/-- `u32::from_le_bytes([buf[pos], .., buf[pos + 3]])` -/
abbrev u32At := leAt 4

/-- `u64::from_le_bytes([buf[pos], .., buf[pos + 7]])` -/
abbrev u64At := leAt 8

theorem slice_ok {buf : Bytes} {a b : Nat} (ordered : a ≤ b) (inside : b ≤ buf.length) :
    slice buf a b = .ok ((buf.drop a).take (b - a)) := by
  rw [slice, if_pos ⟨ordered, inside⟩]

theorem leAt_ok {n pos : Nat} {buf : Bytes} (inside : pos + n ≤ buf.length) :
    leAt n buf pos = .ok (leValue ((buf.drop pos).take n)) := by
  rw [leAt, if_pos inside]

/-- A slice that starts after `before` and ends after `part` is `part`. -/
theorem slice_append (before after : Bytes) {buf part : Bytes} {a b : Nat}
    (layout : buf = before ++ (part ++ after)) (start : a = before.length)
    (stop : b = a + part.length) : slice buf a b = .ok part := by
  subst layout start stop
  rw [slice_ok (by omega) (by simp only [List.length_append]; omega)]
  simp

/-- A little-endian field is read back from behind `before`, up to what it can hold. -/
theorem leAt_append_mod (before after : Bytes) {buf : Bytes} {n v pos : Nat}
    (layout : buf = before ++ (leBytes n v ++ after)) (start : pos = before.length) :
    leAt n buf pos = .ok (v % 256 ^ n) := by
  subst layout start
  rw [leAt_ok (by simp only [List.length_append, length_leBytes]; omega)]
  simp [leValue_leBytes]

theorem leAt_append (before after : Bytes) {buf : Bytes} {n v pos : Nat}
    (layout : buf = before ++ (leBytes n v ++ after)) (start : pos = before.length)
    (fits : v < 256 ^ n) : leAt n buf pos = .ok v := by
  rw [leAt_append_mod before after layout start, Nat.mod_eq_of_lt fits]

theorem byteAt_append (before : Bytes) {buf after : Bytes} {b : UInt8} {i : Nat}
    (layout : buf = before ++ b :: after) (start : i = before.length) :
    byteAt buf i = .ok b := by
  subst layout start
  simp [byteAt]

/-! ## What stands at a position -/

/-- `part` stands in `buf` from `pos` on. -/
def StandsAt (buf : Bytes) (pos : Nat) (part : Bytes) : Prop := part <+: buf.drop pos

namespace StandsAt

variable {buf a b : Bytes} {pos : Nat}

theorem nil (buf : Bytes) (pos : Nat) : StandsAt buf pos [] := List.nil_prefix

theorem append (first : StandsAt buf pos a) (second : StandsAt buf (pos + a.length) b) :
    StandsAt buf pos (a ++ b) := by
  obtain ⟨rest, split⟩ := first
  unfold StandsAt at second ⊢
  rw [← List.drop_drop, ← split, List.drop_left] at second
  rw [← split]
  exact (List.prefix_append_right_inj a).mpr second

end StandsAt

theorem leValue_take_lt (n : Nat) (bs : Bytes) : leValue (bs.take n) < 256 ^ n :=
  (leValue_lt _).trans_le (Nat.pow_le_pow_right (by omega) (List.length_take_le n bs))

/-- The field that is read stands where it is read. -/
theorem meets_leAt {n pos : Nat} {buf : Bytes} (E : KvError → Prop) (inside : pos + n ≤ buf.length) :
    Result.Meets (fun v => v < 256 ^ n ∧ StandsAt buf pos (leBytes n v)) E (leAt n buf pos) := by
  have size : ((buf.drop pos).take n).length = n := by
    rw [List.length_take, List.length_drop]
    omega
  have written := leBytes_leValue ((buf.drop pos).take n)
  rw [size] at written
  rw [leAt_ok inside]
  refine ⟨leValue_take_lt n _, ?_⟩
  show leBytes n (leValue ((buf.drop pos).take n)) <+: buf.drop pos
  rw [written]
  exact List.take_prefix n _

/-- So does the slice that is taken. -/
theorem meets_slice {a b : Nat} {buf : Bytes} (E : KvError → Prop) (ordered : a ≤ b)
    (inside : b ≤ buf.length) :
    Result.Meets (fun part => part.length = b - a ∧ StandsAt buf a part) E (slice buf a b) := by
  rw [slice_ok ordered inside]
  refine ⟨?_, List.take_prefix _ _⟩
  rw [List.length_take, List.length_drop]
  omega

theorem meets_byteAt {i : Nat} {buf : Bytes} (E : KvError → Prop) (inside : i < buf.length) :
    Result.Meets (fun b => StandsAt buf i [b]) E (byteAt buf i) := by
  rw [byteAt, List.getElem?_eq_getElem inside]
  show [buf[i]] <+: buf.drop i
  rw [List.drop_eq_getElem_cons inside]
  exact List.prefix_append [buf[i]] _

end KvEngine
