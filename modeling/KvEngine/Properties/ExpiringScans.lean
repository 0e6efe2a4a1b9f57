import KvEngine.Engine.Origins
import KvEngine.Properties.Expiry

/-!
# Range reads while keys expire

`scan` reads the clock twice for an entry with a lifetime: once to decide whether it is
listed, and again to take its value.  An entry whose lifetime ends in between is listed
with the empty value in the place of its own.  A listed value is the one that was given
exactly if it was put and does not read as having a lifetime, or its lifetime has not
ended at the second reading, or it was put by a batch and is too short to read as
having a sequence number.
-/

namespace KvEngine

open Foundations Engine

variable {env : Env} {given : List (Bytes × Origin)} {w : World}

/-- Every value that a range read lists was given to the write that stored the newest
entry of its key. -/
def ListsGiven (given : List (Bytes × Origin)) (w : World) (start stop : Bytes) : Prop :=
  ∀ entries, answer (scan start stop) w = .ok entries → ∀ k v, (k, v) ∈ entries →
    ∃ origin, (k, origin) ∈ given ∧ (w.eng.versionsOf k).head? = some origin.stored ∧
      origin.value = v

/-- The map holds the newest entries of the keys in the range. -/
structure HoldsNewest (e : Engine) (start stop : Bytes) (map : SortedMap Bytes Bytes) : Prop where
  lookup_eq : ∀ key, map.lookup key =
    if inRange start stop key then (e.versionsOf key).head? else none

/-- A listed value is the one that was given if it is taken when the clock reads `t`. -/
def Origin.Survives (t : Nat) : Origin → Prop
  | .put value _ => isTtl value = false
  | .putWithTtl value expiry _ => t < expiry ∨ value = []
  | .batchPut value => value.length < 8

/-- Every entry that is shown at its first reading was given and survives until its
second one. -/
def AllSurvive (given : List (Bytes × Origin)) (w : World) (start stop : Bytes) : Prop :=
  ∀ map, HoldsNewest w.eng start stop map →
    ∀ r ∈ readings w.sys.env.clock w.sys.ticks map.entries, (shown r.2.1 r.1.2).isSome →
      ∃ origin, (r.1.1, origin) ∈ given ∧ origin.stored = r.1.2 ∧ origin.Survives r.2.2

/-! ## Single values -/

/-- A value that reads as a lifetime is not what is displayed for it. -/
theorem getD_shownInner_ne {value : Bytes} (marked : isTtl value = true) (t : Nat) :
    (shownInner t value).getD [] ≠ value := by
  have long : 9 ≤ value.length := by
    unfold isTtl at marked
    simp only [decide_eq_true_eq, ge_iff_le] at marked
    omega
  intro same
  have length := congrArg List.length same
  unfold shownInner at length
  split at length
  · simp only [Option.getD_none, List.length_nil] at length
    omega
  · split at length
    · simp only [Option.getD_none, List.length_nil] at length
      omega
    · simp only [Option.getD_some, List.length_drop] at length
      omega

/-- What is displayed is no longer than the inner value. -/
theorem length_getD_shownInner (t : Nat) (v : Bytes) :
    ((shownInner t v).getD []).length ≤ v.length := by
  unfold shownInner
  split
  · exact Nat.zero_le _
  · split
    · split
      · exact Nat.zero_le _
      · rw [Option.getD_some, List.length_drop]
        exact Nat.sub_le _ _
    · exact le_rfl

/-- **What survives is displayed as it was given**, and nothing else is. -/
theorem Origin.displayed_iff (origin : Origin) (fits : origin.Fits) {t : Nat} (t' : Nat)
    (visible : (shown t origin.stored).isSome) :
    (shown t' origin.stored).getD [] = origin.value ↔ origin.Survives t' := by
  have alive : innerOf origin.stored ≠ tombstone := by
    intro dead
    rw [shown, dead, shownInner_tombstone] at visible
    cases visible
  cases origin with
  | put value seq =>
      rw [stored, innerOf_encodeWithSeq] at alive
      rw [stored, shown, innerOf_encodeWithSeq]
      change (shownInner t' value).getD [] = value ↔ isTtl value = false
      constructor
      · intro same
        by_contra marked
        exact getD_shownInner_ne (Bool.eq_true_of_not_eq_false marked) t' same
      · intro plain
        have shows := shownInner_of_opaque ⟨alive, plain⟩ t'
        rw [shows, Option.getD_some]
  | putWithTtl value expiry seq =>
      rw [stored, shown_encodeTtl fits]
      change _ = value ↔ t' < expiry ∨ value = []
      by_cases early : t' < expiry
      · rw [if_pos early]
        exact ⟨fun _ => Or.inl early, fun _ => rfl⟩
      · rw [if_neg early]
        exact ⟨fun empty => Or.inr empty.symm, fun survives => (survives.resolve_left early).symm⟩
  | batchPut value =>
      rw [stored] at alive
      rw [stored, shown]
      change (shownInner t' (innerOf value)).getD [] = value ↔ value.length < 8
      constructor
      · intro same
        by_contra long
        have shorter : (innerOf value).length = value.length - 8 := by
          rw [innerOf, if_pos (not_lt.mp long), List.length_drop]
        have length := length_getD_shownInner t' (innerOf value)
        rw [same, shorter] at length
        omega
      · intro short
        have whole : innerOf value = value := if_neg (not_le.mpr short)
        have plain : isTtl value = false := by
          unfold isTtl
          simp only [decide_eq_false_iff_not, ge_iff_le]
          omega
        rw [whole] at alive ⊢
        have shows := shownInner_of_opaque ⟨alive, plain⟩ t'
        rw [shows, Option.getD_some]

/-! ## Range reads -/

theorem mem_of_mem_readings {clock : Nat → Nat} {n : Nat} {entries : List (Bytes × Bytes)}
    {r : (Bytes × Bytes) × Nat × Nat} (member : r ∈ readings clock n entries) : r.1 ∈ entries := by
  induction entries generalizing n with
  | nil => cases member
  | cons b rest inductionHypothesis =>
      rcases List.mem_cons.mp member with rfl | later
      · exact List.mem_cons_self
      · exact List.mem_cons_of_mem _ (inductionHypothesis later)

/-- Its second reading is one of the clock. -/
theorem exists_reading {clock : Nat → Nat} {n : Nat} {entries : List (Bytes × Bytes)}
    {r : (Bytes × Bytes) × Nat × Nat} (member : r ∈ readings clock n entries) :
    ∃ m, r.2.2 = clock m := by
  induction entries generalizing n with
  | nil => cases member
  | cons b rest inductionHypothesis =>
      rcases List.mem_cons.mp member with rfl | later
      · exact ⟨_, rfl⟩
      · exact inductionHypothesis later

/-- The entry of a reading is the newest one of its key. -/
theorem HoldsNewest.newest {start stop : Bytes} {map : SortedMap Bytes Bytes}
    (holds : HoldsNewest w.eng start stop map) {clock : Nat → Nat} {n : Nat}
    {r : (Bytes × Bytes) × Nat × Nat} (member : r ∈ readings clock n map.entries) :
    (w.eng.versionsOf r.1.1).head? = some r.1.2 := by
  have found : map.lookup r.1.1 = some r.1.2 :=
    SortedMap.mem_entries.mp (mem_of_mem_readings member)
  rw [holds.lookup_eq] at found
  split at found
  · exact found
  · cases found

/-- **A range read lists only values that were given** if and only if every entry that is
shown at its first reading was given and survives until its second one. -/
theorem scan_lists_given_iff (told : Told env given w) (fits : FilesFit w.sys)
    (start stop : Bytes) : ListsGiven given w start stop ↔ AllSurvive given w start stop := by
  have resting := (reached_iff_told.mpr ⟨given, told⟩).resting fits
  obtain ⟨map, lookups, scans⟩ := answer_scan_reads resting.inv start stop
  have holds : HoldsNewest w.eng start stop map := ⟨lookups⟩
  constructor
  · intro lists map' holds' r member visible
    obtain rfl : map' = map := SortedMap.ext fun key => by
      rw [holds'.lookup_eq, holds.lookup_eq]
    have listed : (r.1.1, (shown r.2.2 r.1.2).getD []) ∈
        (readings w.sys.env.clock w.sys.ticks map'.entries).filterMap
          (fun r => displayed r.2.1 r.2.2 r.1) :=
      List.mem_filterMap.mpr ⟨r, member, if_pos visible⟩
    obtain ⟨origin, isGiven, newest, value⟩ := lists _ scans _ _ listed
    have stored : origin.stored = r.1.2 :=
      Option.some.inj (newest.symm.trans (holds'.newest member))
    rw [← stored] at visible value
    exact ⟨origin, isGiven, stored,
      (origin.displayed_iff (told.fits _ isGiven) _ visible).mp value.symm⟩
  · intro survive entries answered k v member
    obtain rfl := Except.ok.inj (scans.symm.trans answered)
    obtain ⟨r, hr, shows⟩ := List.mem_filterMap.mp member
    unfold displayed at shows
    split at shows
    · next visible =>
        cases shows
        obtain ⟨origin, isGiven, stored, survives⟩ := survive map holds r hr visible
        refine ⟨origin, isGiven, ?_, ?_⟩
        · rw [stored]
          exact holds.newest hr
        · rw [← stored] at visible ⊢
          exact ((origin.displayed_iff (told.fits _ isGiven) _ visible).mpr survives).symm
    · cases shows

/-- As long as no file operation fails, a run whose values survive every reading of its clock has
range reads that list only values that were given. -/
theorem Told.allSurvive (told : Told env given w) (faultless : env.Faultless)
    (fits : FilesFit w.sys) (survive : ∀ g ∈ given, ∀ n, g.2.Survives (w.sys.env.clock n))
    (start stop : Bytes) : AllSurvive given w start stop := by
  have all := told.allGiven faultless fits
  intro map holds r member visible
  have version : r.1.2 ∈ w.eng.versionsOf r.1.1 := List.mem_of_mem_head? (holds.newest member)
  rcases all.entries.of_mem_versionsOf version with dead | ⟨origin, isGiven, stored⟩
  · have dead' : innerOf r.1.2 = tombstone := dead
    rw [shown, dead', shownInner_tombstone] at visible
    cases visible
  · obtain ⟨n, reads⟩ := exists_reading member
    exact ⟨origin, isGiven, stored, reads ▸ survive _ isGiven n⟩

/-- The state after a first call, with what a range read lists there. -/
theorem exists_first_scan (env : Env) (call : Call) (entries : List (Bytes × Bytes))
    (keys : call.KeysFit) (passed : sessionPasses {} env [] (fun w => w.eng.nextSeq == 1 &&
      passes call.run w (fun _ w' => passes (scan [0] [2]) w' (fun found _ => found == entries) &&
        decide ((w'.sys.journal.map FsOp.added).sum < 2 ^ 32))) = true) :
    ∃ n w, Told env (call.gives 1 (env.clock n)) w ∧ FilesFit w.sys ∧ w.sys.env = env ∧
      answer (scan [0] [2]) w = .ok entries := by
  obtain ⟨e, s, w, opened, ran, -, tested⟩ := exists_session _ _ _ _ passed
  obtain ⟨-, rfl⟩ := ends_pure.mp ran
  obtain ⟨first, calling⟩ := Bool.and_eq_true_iff.mp tested
  obtain ⟨u, w', called, rest⟩ := ends_of_passes calling
  obtain ⟨scans, few⟩ := Bool.and_eq_true_iff.mp rest
  obtain ⟨found, w'', scanned, same⟩ := ends_of_passes scans
  have told : Told env ([] ++ Request.gives ⟨e, s⟩ (.write call)) w' :=
    (Told.opened opened).served keys (ends_write called)
  have opened_env : s.env = env := (ends_openWithOptions opened).2.env
  rw [List.nil_append, Request.gives, eq_of_beq first, Sys.time, opened_env] at told
  refine ⟨_, w', told, filesFit_of_added (of_decide_eq_true few),
    (extending_call _ _ _ _ called).sys.env.trans opened_env, ?_⟩
  rw [answer_of_ok scanned, eq_of_beq same]

theorem keysFit_singleton {call : Call} (keys : call.keys = [[1]]) : call.KeysFit := by
  intro key member
  rw [keys, List.mem_singleton] at member
  rw [member]
  decide

/-- The value `[7]` is listed as it was given, since its lifetime has ended at neither reading. -/
theorem scan_lists_given_living : ∃ w,
    ListsGiven [([1], .putWithTtl [7] 1700000060 1)] w [0] [2] ∧
      answer (scan [0] [2]) w = .ok [([1], [7])] := by
  obtain ⟨n, w, told, fits, env, scans⟩ := exists_first_scan .steady (.putWithTtl [1] [7] 60)
    [([1], [7])] (keysFit_singleton rfl) (by decide +kernel)
  refine ⟨w, (scan_lists_given_iff told fits [0] [2]).mpr ?_, scans⟩
  refine told.allSurvive (fun _ => rfl) fits (fun g hg m => ?_) _ _
  rw [List.mem_singleton.mp hg, env]
  exact Or.inl (by decide : 1700000000 < 1700000060)

/-- Range reads list only values that were given, whatever the clock does. -/
def ScansListGiven : Prop :=
  ∀ (env : Env) (given : List (Bytes × Origin)) (w : World) (start stop : Bytes),
    Monotone env.clock → Told env given w → FilesFit w.sys → ListsGiven given w start stop

/-- **An empty value is listed** for `[7]`, whose lifetime of 60 seconds ends between the
two readings. -/
theorem not_scansListGiven : ¬ ScansListGiven := by
  intro always
  obtain ⟨t, w, told, fits, -, scans⟩ := exists_first_scan .ticking (.putWithTtl [1] [7] 60)
    [([1], [])] (keysFit_singleton rfl) (by decide +kernel)
  obtain ⟨origin, isGiven, -, value⟩ :=
    always .ticking _ w [0] [2] Env.monotone_ticking told fits _ scans [1] [] (List.mem_singleton_self _)
  have same := (Prod.mk.inj (List.mem_singleton.mp isGiven)).2
  rw [same] at value
  cases value

end KvEngine
