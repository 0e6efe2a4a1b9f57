import KvEngine.Foundations.PrefixRange
import KvEngine.Engine.Reached

/-!
# Prefix scans

The bound of a prefix scan raises the last byte below 0xFF but keeps the bytes 0xFF
behind it, and it puts a zero behind a prefix of bytes 0xFF alone.  In the first case
the range goes on behind the keys with the prefix, in the second it ends before most
of them.
-/

namespace KvEngine

open Foundations Engine

variable {w : World}

/-! ## The bound -/

theorem isTop_byte : IsTop (0xFF : UInt8) := by
  intro b
  show b.toNat ≤ 255
  have byte := b.toNat_lt
  omega

theorem toNat_raised {b : UInt8} (low : b < 0xFF) : (b + 1).toNat = b.toNat + 1 := by
  have below : b.toNat < 255 := low
  rw [UInt8.toNat_add]
  show (b.toNat + 1) % 256 = b.toNat + 1
  omega

theorem covBy_raised {b : UInt8} (low : b < 0xFF) : b ⋖ b + 1 := by
  have raised := toNat_raised low
  constructor
  · show b.toNat < (b + 1).toNat
    omega
  · intro c above below
    have above : b.toNat < c.toNat := above
    have below : c.toNat < (b + 1).toNat := below
    omega

/-- From anywhere in the bytes 0xFF the loop comes down to the byte before them. -/
theorem raiseLast_stem (q : Bytes) {b : UInt8} (low : b < 0xFF) {m n : Nat} (within : m ≤ n) :
    raiseLast (q ++ b :: List.replicate n 0xFF) (q.length + 1 + m) =
      some (q ++ (b + 1) :: List.replicate n 0xFF) := by
  induction m with
  | zero => simp [raiseLast, low]
  | succ m inductionHypothesis =>
      have top : (q ++ b :: List.replicate n 0xFF)[q.length + 1 + m]? = some 0xFF := by
        rw [List.getElem?_append_right (by omega), show q.length + 1 + m - q.length = m + 1 by omega,
          List.getElem?_cons_succ, List.getElem?_replicate, if_pos (by omega)]
      show raiseLast _ (q.length + 1 + m + 1) = _
      simp only [raiseLast, top, lt_irrefl, if_false]
      exact inductionHypothesis (by omega)

theorem raiseLast_replicate {m n : Nat} (within : m ≤ n) :
    raiseLast (List.replicate n 0xFF) m = none := by
  induction m with
  | zero => rfl
  | succ m inductionHypothesis =>
      have top : (List.replicate n (0xFF : UInt8))[m]? = some 0xFF := by
        rw [List.getElem?_replicate, if_pos (by omega)]
      simp only [raiseLast, top, lt_irrefl, if_false]
      exact inductionHypothesis (by omega)

/-- The bytes 0xFF behind the raised byte stay. -/
theorem nextKey_stem (q : Bytes) {b : UInt8} (low : b < 0xFF) (n : Nat) :
    nextKey (q ++ b :: List.replicate n 0xFF) = q ++ (b + 1) :: List.replicate n 0xFF := by
  have length : (q ++ b :: List.replicate n (0xFF : UInt8)).length = q.length + 1 + n := by
    simp
    omega
  rw [nextKey, length, raiseLast_stem q low le_rfl]

theorem nextKey_replicate (n : Nat) :
    nextKey (List.replicate n 0xFF) = List.replicate n 0xFF ++ [0x00] := by
  rw [nextKey, raiseLast_replicate List.length_replicate.le]

/-! ## Keys on the wrong side -/

/-- The keys that the bounds of a prefix scan get wrong: those from the least upper
bound of the prefix on, up to the bound with its bytes 0xFF, and the proper extensions
of a prefix that has no upper bound. -/
inductive Misplaced : Bytes → Bytes → Prop
  | beyond {q : Bytes} {b : UInt8} {n : Nat} {key : Bytes} (low : b < 0xFF)
      (above : q ++ [b + 1] ≤ key) (below : key < q ++ (b + 1) :: List.replicate n 0xFF) :
      Misplaced (q ++ b :: List.replicate n 0xFF) key
  | cut {n : Nat} {key : Bytes} (begins : List.replicate n 0xFF <+: key)
      (longer : key ≠ List.replicate n 0xFF) : Misplaced (List.replicate n 0xFF) key

/-- Behind the keys with the prefix the range goes on. -/
theorem mem_range_stem (q : Bytes) {b : UInt8} (low : b < 0xFF) (n : Nat) (key : Bytes) :
    q ++ b :: List.replicate n 0xFF ≤ key ∧ key < q ++ (b + 1) :: List.replicate n 0xFF ↔
      q ++ b :: List.replicate n 0xFF <+: key ∨
        q ++ [b + 1] ≤ key ∧ key < q ++ (b + 1) :: List.replicate n 0xFF := by
  have range := le_and_lt_iff_isPrefix isTop_byte (covBy_raised low) q n key
  have bound : q ++ [b + 1] ≤ q ++ (b + 1) :: List.replicate n 0xFF :=
    le_of_isPrefix ⟨List.replicate n 0xFF, by simp⟩
  have start : q ++ b :: List.replicate n 0xFF < q ++ [b + 1] :=
    (append_lt_append_iff _ _ _).mpr (List.cons_lt_cons_iff.mpr (.inl (covBy_raised low).1))
  constructor
  · rintro ⟨above, below⟩
    rcases lt_or_ge key (q ++ [b + 1]) with within | beyond
    · exact .inl (range.mp ⟨above, within⟩)
    · exact .inr ⟨beyond, below⟩
  · rintro (begins | ⟨beyond, below⟩)
    · exact ⟨le_of_isPrefix begins, (range.mpr begins).2.trans_le bound⟩
    · exact ⟨start.le.trans beyond, below⟩

/-- A zero behind the prefix leaves room for the prefix alone. -/
theorem mem_range_zero (p key : Bytes) : p ≤ key ∧ key < p ++ [0x00] ↔ key = p := by
  constructor
  · rintro ⟨above, below⟩
    obtain ⟨rest, rfl, -, none⟩ := between_appends (a := []) (by rwa [List.append_nil]) below
    cases rest with
    | nil => exact List.append_nil p
    | cons d rest =>
        rcases List.cons_lt_cons_iff.mp none with lower | ⟨-, shorter⟩
        · exact absurd (show d.toNat < 0 from lower) (Nat.not_lt_zero _)
        · exact absurd shorter (List.not_lt_nil rest)
  · rintro rfl
    refine ⟨le_rfl, ?_⟩
    have longer : key ++ [] < key ++ [0x00] :=
      (append_lt_append_iff _ _ _).mpr (List.nil_lt_cons _ _)
    rwa [List.append_nil] at longer

/-- The misplaced keys are those on which the range and the prefix disagree. -/
theorem misplaced_iff (p key : Bytes) :
    Misplaced p key ↔ ¬ (p ≤ key ∧ key < nextKey p ↔ p <+: key) := by
  constructor
  · intro misplaced
    cases misplaced with
    | @beyond q b n _ low above below =>
        rw [nextKey_stem q low, mem_range_stem q low]
        intro agree
        have begins := agree.mp (.inr ⟨above, below⟩)
        have range := le_and_lt_iff_isPrefix isTop_byte (covBy_raised low) q n key
        exact absurd (range.mpr begins).2 (not_lt.mpr above)
    | @cut n _ begins longer =>
        rw [nextKey_replicate, mem_range_zero]
        intro agree
        exact longer (agree.mpr begins)
  · intro differ
    rcases eq_replicate_or_stem isTop_byte p with ⟨n, rfl⟩ | ⟨q, b, n, low, rfl⟩
    · rw [nextKey_replicate, mem_range_zero] at differ
      have ne : key ≠ List.replicate n 0xFF := by
        rintro rfl
        exact differ (iff_of_true rfl (List.prefix_refl _))
      have begins : List.replicate n 0xFF <+: key := by
        by_contra other
        exact differ (iff_of_false ne other)
      exact .cut begins ne
    · rw [nextKey_stem q low, mem_range_stem q low] at differ
      have beyond : q ++ [b + 1] ≤ key ∧ key < q ++ (b + 1) :: List.replicate n 0xFF := by
        by_contra inside
        exact differ (or_iff_left inside)
      exact .beyond low beyond.1 beyond.2

/-- Nothing is misplaced where the last byte of the prefix is below 0xFF. -/
theorem not_misplaced_low (q : Bytes) {b : UInt8} (low : b < 0xFF) (key : Bytes) :
    ¬ Misplaced (q ++ [b]) key := by
  have range := le_and_lt_iff_isPrefix isTop_byte (covBy_raised low) q 0 key
  have bound := nextKey_stem q low 0
  rw [List.replicate_zero] at range bound
  rw [misplaced_iff, not_not, bound]
  exact range

/-! ## Prefix scans -/

/-- The prefix scan lists, in ascending order, just the live keys with the prefix. -/
def PrefixScanExact (w : World) (p : Bytes) : Prop :=
  ∃ entries, answer (prefixScan p) w = .ok entries ∧
    entries.Pairwise (fun a b => a.1 < b.1) ∧
    ∀ k v, (k, v) ∈ entries ↔ p <+: k ∧ answer (get k) w = .ok (some v)

theorem exact_iff_of_inv (inv : Inv w) {t : Nat} (still : w.sys.ClockAt t) (p : Bytes) :
    PrefixScanExact w p ↔ ∀ k, Misplaced p k → answer (get k) w = .ok none := by
  obtain ⟨map, scans, lookups⟩ := answer_scan inv still p (nextKey p)
  have live : ∀ k, answer (get k) w = .ok (w.eng.visible t k) := by
    intro k
    rw [answer_get inv, still.time]
  have listed : ∀ k v, (k, v) ∈ map.entries ↔
      (p ≤ k ∧ k < nextKey p) ∧ w.eng.visible t k = some v := by
    intro k v
    rw [SortedMap.mem_entries, lookups, inRange]
    by_cases within : p ≤ k ∧ k < nextKey p
    · simp [within]
    · simp [within]
  constructor
  · rintro ⟨entries, found, -, agree⟩ k misplaced
    obtain rfl : map.entries = entries := Except.ok.inj (scans.symm.trans found)
    rw [live]
    cases isLive : w.eng.visible t k with
    | none => rfl
    | some v =>
        have same := agree k v
        rw [listed, live, isLive] at same
        simp only [and_true] at same
        exact absurd same ((misplaced_iff p k).mp misplaced)
  · intro placed
    refine ⟨map.entries, scans, map.ascending, fun k v => ?_⟩
    rw [listed, live, Except.ok.injEq]
    refine and_congr_left fun isLive => ?_
    by_contra differ
    have hidden := placed k ((misplaced_iff p k).mpr differ)
    rw [live, isLive] at hidden
    cases hidden

/-- **When a prefix scan is exact**: if and only if no misplaced key is live. -/
theorem prefixScan_exact_iff {env : Env} (reached : Reached env w) (fits : FilesFit w.sys) {t : Nat}
    (still : w.sys.ClockAt t) (p : Bytes) :
    PrefixScanExact w p ↔ ∀ k, Misplaced p k → answer (get k) w = .ok none :=
  exact_iff_of_inv (reached.resting fits).inv still p

/-- The state after one write and a reopening, with what a lookup and a prefix scan
answer there. -/
theorem exists_listed (p k v : Bytes) (listed : List (Bytes × Bytes)) (keys : k.length < 2 ^ 16)
    (passed : reopenPasses {} {} .steady [.put k v] (fun w =>
      passes (get k) w (fun found _ => found == some v) &&
        passes (prefixScan p) w (fun entries _ => entries == listed)) = true) :
    ∃ w, Reached .steady w ∧ FilesFit w.sys ∧ w.sys.ClockAt 1700000000 ∧
      answer (get k) w = .ok (some v) ∧ answer (prefixScan p) w = .ok listed := by
  obtain ⟨w, reached, fits, tested⟩ := exists_reached {} {} .steady [.put k v] _
    (by simpa [Call.KeysFit, Call.keys] using keys) passed
  obtain ⟨live, lists⟩ := Bool.and_eq_true_iff.mp tested
  obtain ⟨found, w₁, gets, isLive⟩ := ends_of_passes live
  obtain ⟨entries, w₂, scans, same⟩ := ends_of_passes lists
  have still : w.sys.ClockAt 1700000000 := fun n _ => by
    rw [reached.env_eq]
    rfl
  refine ⟨w, reached, fits, still, ?_, ?_⟩
  · rw [answer_of_ok gets, eq_of_beq isLive]
  · rw [answer_of_ok scans, eq_of_beq same]

/-- With the key `[2]` in the store, the scan of `[1]` is exact and that of `[1, 0xFF]`
is not. -/
theorem prefixScan_exact_iff_raised :
    ∃ w, Reached .steady w ∧ PrefixScanExact w [1] ∧ ¬ PrefixScanExact w [1, 0xFF] := by
  obtain ⟨w, reached, fits, still, live, -⟩ :=
    exists_listed [1, 0xFF] [2] [7] [([2], [7])] (by decide) (by decide +kernel)
  refine ⟨w, reached, ?_, fun isExact => ?_⟩
  · refine (prefixScan_exact_iff reached fits still [1]).mpr fun k misplaced => ?_
    exact absurd misplaced (not_misplaced_low [] (by decide) k)
  · have misplaced : Misplaced [1, 0xFF] [2] :=
      Misplaced.beyond (q := []) (b := 1) (n := 1) (by decide) (by decide) (by decide)
    have hidden := (prefixScan_exact_iff reached fits still [1, 0xFF]).mp isExact [2] misplaced
    rw [live] at hidden
    cases hidden

/-- Every prefix scan of every reachable state is exact. -/
def PrefixScansAlwaysExact : Prop :=
  ∀ env w t p, Reached env w → FilesFit w.sys → w.sys.ClockAt t → PrefixScanExact w p

/-- **Behind a raised byte** the bytes 0xFF stay in the bound: the scan of `[1, 0xFF]`
goes up to `[2, 0xFF]` and lists the key `[2]`. -/
theorem not_prefixScansAlwaysExact : ¬ PrefixScansAlwaysExact := by
  intro always
  obtain ⟨w, reached, fits, still, -, scans⟩ :=
    exists_listed [1, 0xFF] [2] [7] [([2], [7])] (by decide) (by decide +kernel)
  obtain ⟨entries, found, -, agree⟩ := always _ w _ [1, 0xFF] reached fits still
  obtain rfl : [([2], [7])] = entries := Except.ok.inj (scans.symm.trans found)
  have begins := ((agree [2] [7]).mp List.mem_cons_self).1
  exact absurd begins (by decide)

end KvEngine
