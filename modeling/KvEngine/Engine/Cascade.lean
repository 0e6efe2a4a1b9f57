import KvEngine.Engine.CompactionSpec

/-!
# The cascade of compactions

After a flush `maybeCompact` goes through the levels.  As long as every level
below the first one was settled before, it compacts the levels from 0 on without
a gap and then stops: whenever a level is compacted, nothing is listed above it.
-/

namespace KvEngine

open Foundations

namespace Engine

/-- Compactions of `level`, `level + 1` and so on, each with nothing above it. -/
inductive Cascade : Nat → World → World → Prop
  | done (level : Nat) (w : World) : Cascade level w w
  | step {level : Nat} {w w₁ w' : World} {time : Bytes → Nat} {added : Option Table} (inv : Inv w)
      (topmost : Topmost w.eng.manifest level) (compaction : Compaction w level time added w₁)
      (rest : Cascade (level + 1) w₁ w') : Cascade level w w'

/-- Every level that may be compacted is settled. -/
def AllSettled (e : Engine) : Prop :=
  ∀ level < e.opts.maxLevels - 1, Settled e.opts e.manifest level

/-- What holds in the loop before `level`, as long as it compacted every level so far:
nothing is listed above, and the levels below are settled. -/
def Carried (e : Engine) (level : Nat) : Prop :=
  Topmost e.manifest level ∧
    ∀ l, level < l → l < e.opts.maxLevels - 1 → Settled e.opts e.manifest l

variable {w w₁ w' : World} {u : Unit} {level : Nat}

namespace Compaction

variable {time : Bytes → Nat} {added : Option Table}

theorem opts_eq (compaction : Compaction w level time added w') : w'.eng.opts = w.eng.opts := by
  obtain ⟨nextSstId, blockCache, metrics, eng⟩ := compaction.eng
  rw [eng]

/-- The compacted level is empty afterwards, and so are the levels above it. -/
theorem topmost_succ (compaction : Compaction w level time added w') (inv : Inv w)
    (topmost : Topmost w.eng.manifest level) : Topmost w'.eng.manifest (level + 1) := by
  intro l above
  rw [compaction.sstsAtLevel_eq inv, if_neg (by omega), List.append_nil, List.filter_eq_nil_iff]
  intro sst member
  rcases Nat.lt_or_ge l level with less | notLess
  · rw [topmost l less] at member
    cases member
  · obtain rfl : l = level := by omega
    have taken : sst ∈ inputs w.eng.manifest l := List.mem_append_left _ member
    simpa using taken

/-- The levels beyond the next one stay as they are. -/
theorem sstsAtLevel_beyond (compaction : Compaction w level time added w') (inv : Inv w) {l : Nat}
    (beyond : level + 1 < l) : w'.eng.manifest.sstsAtLevel l = w.eng.manifest.sstsAtLevel l := by
  rw [compaction.sstsAtLevel_eq inv, if_neg (by omega), List.append_nil, List.filter_eq_self]
  intro sst member
  refine decide_eq_true fun taken => ?_
  rcases inputs_listed taken with source | next
  · have := inv.listed.level_unique member source
    omega
  · have := inv.listed.level_unique member next
    omega

end Compaction

theorem ends_compactIfFull (run : Ends (compactIfFull level) w u w') :
    ∃ threshold, levelThreshold w.eng.opts level = .ok threshold ∧
      (((w.eng.manifest.sstsAtLevel level).length < threshold ∧ w' = w) ∨
        (threshold ≤ (w.eng.manifest.sstsAtLevel level).length ∧
          Ends (compactLevel level) w u w')) := by
  simp only [compactIfFull, ends_bind, ends_self, ends_liftResult] at run
  obtain ⟨e, w₁, ⟨rfl, rfl⟩, threshold, w₂, ⟨found, rfl⟩, rest⟩ := run
  refine ⟨threshold, found, ?_⟩
  split at rest
  · next below => exact Or.inl ⟨below, (ends_pure.mp rest).2.symm⟩
  · next notBelow => exact Or.inr ⟨not_lt.mp notBelow, rest⟩

/-- A level that is compacted is not empty. -/
theorem ends_compactLevel_nonempty (run : Ends (compactLevel level) w u w') :
    w.eng.manifest.sstsAtLevel level ≠ [] := by
  simp only [compactLevel, ends_bind, ends_self, ends_liftResult] at run
  obtain ⟨e, w₁, ⟨rfl, rfl⟩, dst, w₂, ⟨overlap, rfl⟩, rest⟩ := run
  exact (overlapping_ok overlap).1

/-- A settled level is left alone: an empty one cannot be compacted. -/
theorem ends_compactIfFull_settled (settled : Settled w.eng.opts w.eng.manifest level)
    (run : Ends (compactIfFull level) w u w') : w' = w := by
  obtain ⟨threshold, found, ⟨-, same⟩ | ⟨notBelow, compacts⟩⟩ := ends_compactIfFull run
  · exact same
  · rcases settled with empty | below
    · exact absurd empty (ends_compactLevel_nonempty compacts)
    · exact absurd (below threshold found) (not_lt.mpr notBelow)

theorem Cascade.opts_eq (cascade : Cascade level w w') : w'.eng.opts = w.eng.opts := by
  induction cascade with
  | done => rfl
  | step _ _ compaction _ inductionHypothesis => exact inductionHypothesis.trans compaction.opts_eq

theorem Carried.allSettled {e : Engine} (carried : Carried e (e.opts.maxLevels - 1)) :
    AllSettled e := fun l within => Or.inl (carried.1 l within)

theorem Carried.allSettled_of_settled {e : Engine} (carried : Carried e level)
    (settled : Settled e.opts e.manifest level) : AllSettled e := by
  intro l within
  rcases Nat.lt_trichotomy l level with above | rfl | beyond
  · exact Or.inl (carried.1 l above)
  · exact settled
  · exact carried.2 l beyond within

/-- A compaction carries the loop on to the next level. -/
theorem Compaction.carried {time : Bytes → Nat} {added : Option Table}
    (compaction : Compaction w level time added w') (inv : Inv w) (carried : Carried w.eng level) :
    Carried w'.eng (level + 1) := by
  refine ⟨compaction.topmost_succ inv carried.1, fun l beyond within => ?_⟩
  rw [compaction.opts_eq] at within ⊢
  have before := carried.2 l (by omega) within
  unfold Settled at before ⊢
  rwa [compaction.sstsAtLevel_beyond inv beyond]

/-- Once everything is settled the rest of the loop does nothing. -/
theorem ends_compactFrom_settled {n : Nat} (inRange : level + n ≤ w.eng.opts.maxLevels - 1)
    (settled : AllSettled w.eng) (run : Ends (compactFrom n level) w u w') : w' = w := by
  induction n generalizing level with
  | zero => exact (ends_pure.mp run).2.symm
  | succ n inductionHypothesis =>
      obtain ⟨u₁, w₁, first, rest⟩ := ends_bind.mp run
      obtain rfl := ends_compactIfFull_settled (settled level (by omega)) first
      exact inductionHypothesis (by omega) rest

/-- The loop in two parts. -/
theorem ends_compactFrom_add {m n : Nat} :
    Ends (compactFrom (m + n) level) w u w' ↔
      ∃ w₁, Ends (compactFrom m level) w () w₁ ∧ Ends (compactFrom n (level + m)) w₁ u w' := by
  induction m generalizing w level with
  | zero =>
      rw [Nat.zero_add]
      constructor
      · exact fun run => ⟨w, ends_pure.mpr ⟨rfl, rfl⟩, run⟩
      · rintro ⟨w₁, first, rest⟩
        obtain ⟨-, rfl⟩ := ends_pure.mp first
        exact rest
  | succ m inductionHypothesis =>
      rw [show m + 1 + n = m + n + 1 by omega, show level + (m + 1) = level + 1 + m by omega]
      simp only [compactFrom, ends_bind, inductionHypothesis]
      constructor
      · rintro ⟨u₁, w₁, first, w₂, middle, rest⟩
        exact ⟨w₂, ⟨u₁, w₁, first, middle⟩, rest⟩
      · rintro ⟨w₂, ⟨u₁, w₁, first, middle⟩, rest⟩
        exact ⟨u₁, w₁, first, w₂, middle, rest⟩

/-- The loop may be continued at its end. -/
theorem ends_compactFrom_succ {n : Nat} (before : Ends (compactFrom n level) w () w₁)
    (run : Ends (compactIfFull (level + n)) w₁ u w') : Ends (compactFrom (n + 1) level) w () w' :=
  ends_compactFrom_add.mpr ⟨w₁, before, ends_bind.mpr ⟨u, w', run, ends_pure.mpr ⟨rfl, rfl⟩⟩⟩

/-- **A part of the loop** compacts the levels it goes through until one is settled. -/
theorem ends_compactFrom {n : Nat} (inRange : level + n ≤ w.eng.opts.maxLevels - 1) (inv : Inv w)
    (carried : Carried w.eng level) (limits : WithinLimits w'.sys)
    (run : Ends (compactFrom n level) w u w') :
    Cascade level w w' ∧ (Carried w'.eng (level + n) ∨ AllSettled w'.eng) := by
  induction n generalizing w level with
  | zero =>
      obtain ⟨-, rfl⟩ := ends_pure.mp run
      exact ⟨.done level w, Or.inl carried⟩
  | succ n inductionHypothesis =>
      obtain ⟨u₁, w₁, first, rest⟩ := ends_bind.mp run
      obtain ⟨threshold, found, ⟨below, rfl⟩ | ⟨-, compacts⟩⟩ := ends_compactIfFull first
      · -- this level is settled too, so nothing more happens
        have all : AllSettled w₁.eng := carried.allSettled_of_settled (Or.inr fun other found' => by
          rw [found] at found'
          cases found'
          exact below)
        obtain rfl := ends_compactFrom_settled (by omega) all rest
        exact ⟨.done level _, Or.inr all⟩
      · have later : WithinLimits w₁.sys :=
          limits.of_extends (extending_compactFrom _ _ _ _ _ rest).sys
        obtain ⟨time, added, compaction⟩ := ends_compactLevel inv later compacts
        obtain ⟨cascade, after⟩ := inductionHypothesis
          (by rw [compaction.opts_eq]; omega) (compaction.inv inv)
          (compaction.carried inv carried) rest
        refine ⟨.step inv carried.1 compaction cascade, ?_⟩
        rwa [show level + (n + 1) = level + 1 + n by omega]

/-- **What `maybeCompact` does** when only level 0 may be unsettled. -/
theorem ends_maybeCompact (inv : Inv w) (carried : Carried w.eng 0) (limits : WithinLimits w'.sys)
    (run : Ends maybeCompact w u w') : Cascade 0 w w' ∧ AllSettled w'.eng := by
  simp only [maybeCompact, ends_bind, ends_self] at run
  obtain ⟨e, w₁, ⟨rfl, rfl⟩, rest⟩ := run
  obtain ⟨cascade, after⟩ := ends_compactFrom (by omega) inv carried limits rest
  refine ⟨cascade, ?_⟩
  rcases after with carried' | all
  · rw [Nat.zero_add, ← cascade.opts_eq] at carried'
    exact carried'.allSettled
  · exact all

/-! ## Compactions in any state

When the levels were not settled before, as on a directory opened with other options,
the loop may skip a level and compact a deeper one. -/

/-- Compactions of any levels, one after the other. -/
inductive Compactions : World → World → Prop
  | done (w : World) : Compactions w w
  | step {level : Nat} {w w₁ w' : World} {time : Bytes → Nat} {added : Option Table} (inv : Inv w)
      (compaction : Compaction w level time added w₁) (rest : Compactions w₁ w') : Compactions w w'

theorem Cascade.compactions (cascade : Cascade level w w') : Compactions w w' := by
  induction cascade with
  | done => exact .done _
  | step inv _ compaction _ inductionHypothesis => exact .step inv compaction inductionHypothesis

/-- Whatever the levels hold, the loop only compacts. -/
theorem compactions_of_compactFrom {n : Nat} (inv : Inv w) (limits : WithinLimits w'.sys)
    (run : Ends (compactFrom n level) w u w') : Compactions w w' := by
  induction n generalizing w level with
  | zero =>
      obtain ⟨-, rfl⟩ := ends_pure.mp run
      exact .done _
  | succ n inductionHypothesis =>
      obtain ⟨u₁, w₁, first, rest⟩ := ends_bind.mp run
      obtain ⟨threshold, -, ⟨-, rfl⟩ | ⟨-, compacts⟩⟩ := ends_compactIfFull first
      · exact inductionHypothesis inv rest
      · have later : WithinLimits w₁.sys :=
          limits.of_extends (extending_compactFrom _ _ _ _ _ rest).sys
        obtain ⟨time, added, compaction⟩ := ends_compactLevel inv later compacts
        exact .step inv compaction (inductionHypothesis (compaction.inv inv) rest)

theorem compactions_of_maybeCompact (inv : Inv w) (limits : WithinLimits w'.sys)
    (run : Ends maybeCompact w u w') : Compactions w w' := by
  simp only [maybeCompact, ends_bind, ends_self] at run
  obtain ⟨e, w₁, ⟨rfl, rfl⟩, rest⟩ := run
  exact compactions_of_compactFrom inv limits rest

namespace Compactions

theorem inv (compactions : Compactions w w') (inv : Inv w) : Inv w' := by
  induction compactions with
  | done => exact inv
  | step _ compaction _ inductionHypothesis => exact inductionHypothesis (compaction.inv inv)

/-- What compactions leave alone. -/
theorem kept (compactions : Compactions w w') :
    w'.eng.memtable = w.eng.memtable ∧ w'.eng.nextSeq = w.eng.nextSeq ∧
      w'.eng.wal = w.eng.wal ∧ w'.eng.opts = w.eng.opts := by
  induction compactions with
  | done => exact ⟨rfl, rfl, rfl, rfl⟩
  | step _ compaction _ inductionHypothesis =>
      obtain ⟨memtable, nextSeq, wal, opts⟩ := inductionHypothesis
      obtain ⟨nextSstId, blockCache, metrics, eng⟩ := compaction.eng
      rw [eng] at memtable nextSeq wal opts
      exact ⟨memtable, nextSeq, wal, opts⟩

end Compactions

namespace Cascade

theorem inv (cascade : Cascade level w w') (inv : Inv w) : Inv w' := cascade.compactions.inv inv

theorem ordered (cascade : Cascade level w w')
    (ordered : Ordered w.eng.manifest w.eng.sstReaders) :
    Ordered w'.eng.manifest w'.eng.sstReaders := by
  induction cascade with
  | done => exact ordered
  | step inv topmost compaction _ inductionHypothesis =>
      exact inductionHypothesis (compaction.ordered inv ordered topmost)

end Cascade

end Engine

end KvEngine
