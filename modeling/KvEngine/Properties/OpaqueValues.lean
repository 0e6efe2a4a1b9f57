import KvEngine.Properties.SparedKeys

/-!
# Opaque values

The tombstone and the mark of a lifetime are stored in the place of a value.  A value
that reads as one of them is not found again, however soon it is asked for; every other
value is, as long as no compaction puts another version before it.
-/

namespace KvEngine

open Foundations Engine

variable {w w' : World} {key value : Bytes}

/-- The same world with another clock. -/
def World.withClock (w : World) (clock : Nat → Nat) : World :=
  { w with sys := { w.sys with env := { w.sys.env with clock } } }

/-- Whatever the clock reads, a lookup finds the value, and a range read over the key
lists the key once, with this value. -/
def ReadsAs (w : World) (key value : Bytes) : Prop :=
  ∀ clock : Nat → Nat, answer (get key) (w.withClock clock) = .ok (some value) ∧
    ∀ start stop, start ≤ key → key < stop → ∃ entries,
      answer (scan start stop) (w.withClock clock) = .ok entries ∧
      entries.Pairwise (fun a b => a.1 < b.1) ∧ ∀ v, (key, v) ∈ entries ↔ v = value

theorem Inv.withClock (inv : Inv w) (clock : Nat → Nat) : Inv (w.withClock clock) :=
  { inv with }

/-- A stored value that always shows the same is opaque. -/
theorem opaque_of_shown {x : Bytes} (always : ∀ t, shown t x = some value) :
    innerOf x = value ∧ Opaque value := by
  have atExpiry := always (ttlExpiry (innerOf x))
  unfold shown shownInner at atExpiry
  split at atExpiry
  · cases atExpiry
  · next alive =>
      split at atExpiry
      · rw [if_pos le_rfl] at atExpiry
        cases atExpiry
      · next plain =>
          cases atExpiry
          exact ⟨rfl, alive, Bool.eq_false_iff.mpr plain⟩

theorem shown_of_plain {x : Bytes} (inner : innerOf x = value) (plain : Opaque value) (t : Nat) :
    shown t x = some value := by
  rw [shown, inner, shownInner_of_opaque plain]

/-- A range read displays an opaque value at every clock reading. -/
theorem displayed_of_plain {x : Bytes} (inner : innerOf x = value) (plain : Opaque value)
    (t t' : Nat) (k : Bytes) : displayed t t' (k, x) = some (k, value) := by
  rw [displayed]
  simp only [shown_of_plain inner plain, Option.isSome_some, if_true, Option.getD_some]

theorem key_of_displayed {t t' : Nat} {b c : Bytes × Bytes} (shows : displayed t t' b = some c) :
    c.1 = b.1 := by
  unfold displayed at shows
  split at shows
  · cases shows
    rfl
  · cases shows

/-- **What reads as it was written** has an opaque value as its newest version. -/
theorem readsAs_iff (inv : Inv w) (key value : Bytes) :
    ReadsAs w key value ↔
      ∃ x, (w.eng.versionsOf key).head? = some x ∧ innerOf x = value ∧ Opaque value := by
  constructor
  · intro reads
    have found : ∀ t, (w.eng.versionsOf key).head?.bind (shown t) = some value := by
      intro t
      have answered := (reads fun _ => t).1
      rw [answer_get (inv.withClock _)] at answered
      exact Except.ok.inj answered
    cases newest : (w.eng.versionsOf key).head? with
    | none =>
        have missing := found 0
        rw [newest] at missing
        cases missing
    | some x =>
        rw [newest] at found
        exact ⟨x, rfl, opaque_of_shown found⟩
  · rintro ⟨x, newest, inner, plain⟩ clock
    have invHere := inv.withClock clock
    constructor
    · rw [answer_get invHere]
      show Except.ok ((w.eng.versionsOf key).head?.bind (shown _)) = _
      rw [newest, Option.bind_some, shown_of_plain inner plain]
    · intro start stop above below
      obtain ⟨w', map, t, t', -, lookups, -, run⟩ := scan_run invHere start stop
      have bound : map.lookup key = some x := by
        rw [lookups, if_pos (by simp [inRange, above, below])]
        exact newest
      refine ⟨_, answer_of_ok run, ?_, fun v => ?_⟩
      · refine map.ascending.filterMap _ fun a b less c hc d hd => ?_
        rw [key_of_displayed hc, key_of_displayed hd]
        exact less
      · rw [List.mem_filterMap]
        constructor
        · rintro ⟨⟨k, y⟩, member, shows⟩
          obtain rfl : key = k := key_of_displayed shows
          have here := SortedMap.mem_entries.mp member
          rw [bound] at here
          cases here
          rw [displayed_of_plain inner plain] at shows
          cases shows
          rfl
        · rintro rfl
          exact ⟨(key, x), SortedMap.mem_entries.mpr bound, displayed_of_plain inner plain _ _ _⟩

/-- A `put` of an opaque value makes it the newest version, and it stays so if the
compactions spare the key. -/
theorem newest_after_put (resting : Resting w) (short : key.length < 2 ^ 16)
    (limits : WithinLimits w'.sys) (run : Ends (put key value) w () w')
    (spared : SparedBy w (.put key value) key) (plain : Opaque value) :
    (w'.eng.versionsOf key).head? = some (encodeWithSeq value w.eng.nextSeq) := by
  have ran : Ends (Call.put key value).run w () w' := run
  have keys : (Call.put key value).KeysFit := by
    intro k member
    obtain rfl := List.mem_singleton.mp member
    exact short
  refine resting.inv.call_keeps keys limits ran
    (P := fun w₁ => (w₁.eng.versionsOf key).head? = some (encodeWithSeq value w.eng.nextSeq)) ?_ ?_ ?_
  · intro w₁ accepted _
    have first : w₁.eng.versionsOf key = encodeWithSeq value w.eng.nextSeq :: _ :=
      accepted.versionsOf_single resting.inv resting.free
    rw [first, List.head?_cons]
  · intro w₁ imm p w₂ isFrozen flush map newest
    rw [flush.versionsOf_eq isFrozen map key]
    exact newest
  · intro level w₁ w₂ point inv limits₂ compacts newest
    obtain ⟨added, compaction, -⟩ := ends_compactLevel_examined inv limits₂ compacts
    refine compaction.newest_of_spares (spared level w₁ point) newest fun t => ?_
    rw [shown_encodeWithSeq plain]
    rfl

/-- **Values are opaque** if and only if they read as no mark, provided that the
compactions of the `put` leave the new version before the others. -/
theorem put_readsAs_iff {env : Env} (reached : Reached env w) (short : key.length < 2 ^ 16)
    (run : Ends (put key value) w () w') (fits : FilesFit w'.sys) :
    (ReadsAs w' key value → Opaque value) ∧
      (SparedBy w (.put key value) key → Opaque value → ReadsAs w' key value) := by
  have ran : Ends (Call.put key value).run w () w' := run
  have goesOn := (extending_call (.put key value) _ _ _ ran).sys
  have resting := reached.resting (fits.of_extends goesOn)
  have keys : (Call.put key value).KeysFit := by
    intro k member
    obtain rfl := List.mem_singleton.mp member
    exact short
  have inv := (resting.ends_call keys fits.withinLimits ran).1.inv
  constructor
  · intro reads
    obtain ⟨x, -, -, plain⟩ := (readsAs_iff inv key value).mp reads
    exact plain
  · intro spared plain
    exact (readsAs_iff inv key value).mpr
      ⟨_, newest_after_put resting short fits.withinLimits run spared plain,
        innerOf_encodeWithSeq _ _, plain⟩

/-- The state after a first `put`, with what a lookup answers there. -/
theorem exists_first_put (key value : Bytes) (found : Option Bytes)
    (passed : sessionPasses {} .steady [] (fun w =>
      passes (Call.put key value).store w (fun _ w₁ => w₁.eng.memtable.immutable.isNone) &&
        passes (put key value) w (fun _ w' =>
          passes (get key) w' (fun v _ => v == found) &&
            decide ((w'.sys.journal.map FsOp.added).sum < 2 ^ 32))) = true) :
    ∃ w w', Reached .steady w ∧ SparedBy w (.put key value) key ∧
      Ends (put key value) w () w' ∧ FilesFit w'.sys ∧ answer (get key) w' = .ok found := by
  obtain ⟨e, s, w, opened, ran, -, tested⟩ := exists_session _ _ _ _ passed
  obtain ⟨storing, putting⟩ := Bool.and_eq_true_iff.mp tested
  obtain ⟨u, w₁, stored, free⟩ := ends_of_passes storing
  obtain ⟨u', w', run, rest⟩ := ends_of_passes putting
  obtain ⟨gets, few⟩ := Bool.and_eq_true_iff.mp rest
  obtain ⟨v, w₂, got, same⟩ := ends_of_passes gets
  have reached : Reached .steady w := (ReachedBy.opened opened).runCalls
    (List.forall_mem_nil _) (List.forall_mem_nil _) ran
  refine ⟨w, w', reached, sparedBy_of_unfrozen stored (Option.isNone_iff_eq_none.mp free) key, run,
    filesFit_of_added (of_decide_eq_true few), ?_⟩
  rw [answer_of_ok got, eq_of_beq same]

/-- The value `[7]` reads as it was written, over a value that was compacted, and after one more
compaction. -/
theorem put_readsAs_iff_overwritten : ∃ w w', answer (get [1]) w = .ok (some [8]) ∧
    Ends (put [1] [7]) w () w' ∧ w.eng.metrics.compactions = 2 ∧
      w'.eng.metrics.compactions = 3 ∧ ReadsAs w' [1] [7] := by
  obtain ⟨w, w', reached, -, -, -, run, fits, spared, tested⟩ := exists_spared
    { memtableSize := 0, l0CompactionThreshold := 1, maxLevels := 2 } .steady
    [.put [1] [8], .put [2] [5]] (.put [1] [7])
    (fun w w' => passes (get [1]) w (fun x _ => x == some [8]) &&
      decide (w.eng.metrics.compactions = 2 ∧ w'.eng.metrics.compactions = 3))
    (by decide) (by unfold Call.KeysFit; decide) (by decide +kernel)
  obtain ⟨before, counted⟩ := Bool.and_eq_true_iff.mp tested
  obtain ⟨two, three⟩ := of_decide_eq_true counted
  exact ⟨w, w', answer_of_passes before, run, two, three,
    (put_readsAs_iff reached (by decide) run fits).2 (spared [1]) (by decide)⟩

/-- Every value reads as it was written. -/
def ValuesOpaque : Prop :=
  ∀ (env : Env) (w w' : World) (key value : Bytes), Reached env w → key.length < 2 ^ 16 →
    Ends (put key value) w () w' → FilesFit w'.sys → ReadsAs w' key value

/-- **The value `[0]`** is the tombstone: it is gone as soon as it is put. -/
theorem not_valuesOpaque : ¬ ValuesOpaque := by
  intro always
  obtain ⟨w, w', reached, -, run, fits, missed⟩ :=
    exists_first_put [1] [0] none (by decide +kernel)
  have found := (always _ w w' [1] [0] reached (by decide) run fits w'.sys.env.clock).1
  rw [show w'.withClock w'.sys.env.clock = w' from rfl, missed] at found
  cases found

end KvEngine
