import KvEngine.Engine.Reached

/-!
# Range reads and lookups agree

A lookup stops at the first source that knows the key, a range read lays all
sources over each other; both show the newest version of the key.
-/

namespace KvEngine

open Foundations Engine

variable {w : World}

/-- **`scan` and `get` agree** in every reachable state: the range read lists, in
ascending order, just the pairs that lookups in the range find. -/
theorem scan_agrees_with_get {env : Env} (reached : Reached env w) (fits : FilesFit w.sys) {t : Nat}
    (still : w.sys.ClockAt t) (start stop : Bytes) :
    ∃ entries, answer (scan start stop) w = .ok entries ∧
      entries.Pairwise (fun a b => a.1 < b.1) ∧
      ∀ k v, (k, v) ∈ entries ↔ (start ≤ k ∧ k < stop) ∧ answer (get k) w = .ok (some v) := by
  have resting := reached.resting fits
  obtain ⟨map, scans, lookups⟩ := answer_scan resting.inv still start stop
  refine ⟨map.entries, scans, map.ascending, fun k v => ?_⟩
  rw [answer_get resting.inv, still.time]
  calc (k, v) ∈ map.entries
      ↔ map.lookup k = some v := SortedMap.mem_entries
    _ ↔ (start ≤ k ∧ k < stop) ∧ w.eng.visible t k = some v := by
        rw [lookups, inRange]
        by_cases within : start ≤ k ∧ k < stop
        · simp [within]
        · simp [within]
    _ ↔ _ := by simp only [Except.ok.injEq]

/-- A state with a flushed, a compacted, an expiring and a deleted key, after reopening
with other options. -/
theorem scan_agrees_with_get_reopened :
    ∃ w, Reached .steady w ∧ ∃ entries, answer (scan [1] [9]) w = .ok entries ∧
      entries.Pairwise (fun a b => a.1 < b.1) ∧
      ∀ k v, (k, v) ∈ entries ↔ ([1] ≤ k ∧ k < [9]) ∧ answer (get k) w = .ok (some v) := by
  obtain ⟨w, reached, fits, -⟩ := exists_reached
    { memtableSize := 0, l0CompactionThreshold := 2, maxLevels := 3 } {} .steady
    [.put [1] [7], .delete [2], .putWithTtl [3] [5] 60, .writeBatch ⟨[.put [1] [8], .delete [3]]⟩]
    (fun _ => true) (by unfold Call.KeysFit; decide) (by decide +kernel)
  have still : w.sys.ClockAt 1700000000 := fun n _ => by
    rw [reached.env_eq]
    rfl
  exact ⟨w, reached, scan_agrees_with_get reached fits still [1] [9]⟩

end KvEngine
