import Mathlib.Data.List.Lex
import Mathlib.Order.Defs.LinearOrder
import Mathlib.Tactic.Ring

/-!
# Byte strings

Byte strings are lists of `UInt8`, ordered lexicographically with a proper
prefix below its extensions.  `leBytes n v` is the `n`-byte little-endian image
of `v` (of `v mod 256^n`, as a narrowing cast leaves it), `leValue` reads any
number of little-endian bytes back.
-/

namespace Foundations

/-- A byte string. -/
abbrev Bytes := List UInt8

instance instLinearOrderUInt8 : LinearOrder UInt8 where
  le_refl := UInt8.le_refl
  le_trans _ _ _ := UInt8.le_trans
  le_antisymm _ _ := UInt8.le_antisymm
  le_total := UInt8.le_total
  lt_iff_le_not_ge a b := by
    rw [UInt8.not_le]
    exact ⟨fun h => ⟨UInt8.le_of_lt h, h⟩, fun h => h.2⟩
  toDecidableLE := inferInstance
  toDecidableLT := inferInstance
  toDecidableEq := inferInstance

/-- The `n` little-endian bytes of `v`, truncating what does not fit. -/
def leBytes : Nat → Nat → Bytes
  | 0, _ => []
  | n + 1, v => UInt8.ofNat (v % 256) :: leBytes n (v / 256)

/-- The number that little-endian bytes stand for. -/
def leValue : Bytes → Nat
  | [] => 0
  | b :: bs => b.toNat + 256 * leValue bs

@[simp] theorem length_leBytes (n v : Nat) : (leBytes n v).length = n := by
  induction n generalizing v with
  | zero => rfl
  | succ n inductionHypothesis => simp [leBytes, inductionHypothesis]

@[simp] theorem leValue_nil : leValue [] = 0 := rfl

theorem leValue_leBytes (n v : Nat) : leValue (leBytes n v) = v % 256 ^ n := by
  induction n generalizing v with
  | zero => simp [leBytes, Nat.mod_one]
  | succ n inductionHypothesis =>
      have head : (UInt8.ofNat (v % 256)).toNat = v % 256 := by
        simp [UInt8.toNat_ofNat']
      rw [leBytes, leValue, inductionHypothesis, head, Nat.pow_succ',
        Nat.mod_mul]

/-- A number that fits is read back unchanged. -/
theorem leValue_leBytes_of_lt {n v : Nat} (fits : v < 256 ^ n) :
    leValue (leBytes n v) = v := by
  rw [leValue_leBytes, Nat.mod_eq_of_lt fits]

theorem leValue_lt (bs : Bytes) : leValue bs < 256 ^ bs.length := by
  induction bs with
  | nil => simp
  | cons b bs inductionHypothesis =>
      have byte : b.toNat < 256 := b.toNat_lt
      simp only [leValue, List.length_cons, Nat.pow_succ']
      omega

/-- Only zeros stand for zero. -/
theorem eq_zero_of_leValue {bs : Bytes} (zero : leValue bs = 0) : ∀ b ∈ bs, b = 0 := by
  induction bs with
  | nil => simp
  | cons b bs inductionHypothesis =>
      simp only [leValue, Nat.add_eq_zero_iff] at zero
      intro c hc
      rcases List.mem_cons.mp hc with rfl | later
      · exact UInt8.toNat_inj.mp zero.1
      · exact inductionHypothesis (by omega) c later

/-- Reading and writing back gives the bytes themselves. -/
theorem leBytes_leValue (bs : Bytes) : leBytes bs.length (leValue bs) = bs := by
  induction bs with
  | nil => rfl
  | cons b bs inductionHypothesis =>
      have byte : b.toNat < 256 := b.toNat_lt
      have low : (b.toNat + 256 * leValue bs) % 256 = b.toNat := by omega
      have high : (b.toNat + 256 * leValue bs) / 256 = leValue bs := by omega
      simp only [List.length_cons, leBytes, leValue, low, high, inductionHypothesis,
        UInt8.ofNat_toNat]

end Foundations
