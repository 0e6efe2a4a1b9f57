import KvEngine.Engine.History
import KvEngine.Properties.BatchEquivalence
import KvEngine.Properties.Expiry

/-!
# Sessions with two levels

With two levels every compaction spares every key.  A session then acts as the map of everything
that was stored in it.
-/

namespace KvEngine

open Foundations Engine

variable {w w' : World} {stores : List Store}

/-- What is visible from now on is what the stores leave. -/
def MirrorsNow (stores : List Store) (w : World) : Prop :=
  ∀ t, w.sys.time ≤ t → ∀ key, w.eng.visible t key = ((ledger stores).lookup key).bind (shown t)

/-! ## One call -/

/-- The state between the requests of a session with two levels. -/
structure TwoLevels (stores : List Store) (w : World) : Prop where
  session : InSession w
  shallow : Shallow w.eng.manifest
  mirrors : MirrorsNow stores w

/-- **One call** is mirrored by what it stores. -/
theorem TwoLevels.call (two : TwoLevels stores w) (resting : Resting w) {call : Call}
    (levels : w.eng.opts.maxLevels ≤ 2) (forward : Monotone w.sys.env.clock)
    (keys : call.KeysFit) (limits : WithinLimits w'.sys) (run : Ends call.run w () w') :
    TwoLevels (stores ++ call.stores w.eng.nextSeq w.sys.time) w' := by
  let all := stores ++ call.stores w.eng.nextSeq w.sys.time
  have spared := two.session.sparedBy two.shallow levels keys limits run
  have held : w'.sys.env = w.sys.env ∧ MirrorsNow all w' := by
    refine resting.inv.call_keeps keys limits run
      (P := fun w₁ => w₁.sys.env = w.sys.env ∧ MirrorsNow all w₁) ?_ ?_ ?_
    · intro w₁ accepted goesOn
      have newest := accepted.head?_versionsOf resting.inv
      refine ⟨goesOn.env, fun t later key => ?_⟩
      rw [visible, newest, lookup_ledger_append]
      show ((lookupList key _).or _).bind _ = ((lookupList key _).or _).bind _
      cases lookupList key
          ((call.stores w.eng.nextSeq w.sys.time).map Store.binding).reverse with
      | some v => rfl
      | none =>
          rw [Option.none_or, Option.none_or]
          exact two.mirrors t ((goesOn.time_le forward).trans later) key
    · intro w₁ imm p w₂ isFrozen flush map before
      obtain ⟨env, mirrors⟩ := before
      have goesOn : w₁.sys.Extends w₂.sys := flush.did
      refine ⟨goesOn.env.trans env, fun t later key => ?_⟩
      rw [visible, flush.versionsOf_eq isFrozen map]
      exact mirrors t ((goesOn.time_le (env ▸ forward)).trans later) key
    · intro level w₁ w₂ point inv limits₂ compacts before
      obtain ⟨env, mirrors⟩ := before
      have goesOn := (extending_compactLevel level _ _ _ compacts).sys
      obtain ⟨added, compaction, ticks⟩ := ends_compactLevel_examined inv limits₂ compacts
      refine ⟨goesOn.env.trans env, fun t later key => ?_⟩
      have forward₁ : Monotone w₁.sys.env.clock := env ▸ forward
      have examined : examinedAt w₁ level key ≤ t := by
        refine le_trans ?_ later
        show w₁.sys.env.clock _ ≤ w₂.sys.env.clock w₂.sys.ticks
        rw [goesOn.env]
        exact forward₁ (ticks key)
      rw [compaction.visible_of_spares (spared key level w₁ point) examined]
      exact mirrors t ((goesOn.time_le forward₁).trans later) key
  exact ⟨two.session.ends_call keys limits run,
    two.session.shallow_call two.shallow levels keys limits run, held.2⟩

theorem TwoLevels.observed (two : TwoLevels stores w) (observed : Observed w w')
    (forward : Monotone w.sys.env.clock) : TwoLevels stores w' := by
  have same := observed.versionsOf_eq
  have inv := observed.inv
  obtain ⟨c, m, n, rfl⟩ := observed.world
  refine ⟨⟨⟨inv, two.session.idle.free, two.session.idle.settled⟩, two.session.ordered⟩,
    two.shallow, fun t later key => ?_⟩
  rw [visible, same]
  exact two.mirrors t (le_trans (forward (Nat.le_add_right _ n)) later) key

/-! ## Sessions -/

theorem two_levels {env : Env} (forward : Monotone env.clock)
    (history : History env (fun opts => opts.maxLevels ≤ 2) stores w) (fits : FilesFit w.sys) :
    TwoLevels stores w := by
  refine history.induct (P := TwoLevels) fits (fun opts e s _ run => ?_)
    (fun stores w request response w' before resting fits keys run two => ?_)
  · have begun := started run
    refine ⟨begun.inSession, fun level _ => ?_, fun t _ key => ?_⟩
    · rw [begun.manifest, Manifest.sstsAtLevel]
      rfl
    · rw [visible, begun.versions]
      rfl
  · have levels := before.allowed
    have clock : Monotone w.sys.env.clock := before.reached.env_eq ▸ forward
    rcases resting.ends_request_stores run with ⟨call, rfl, ran⟩ | ⟨none, observed⟩
    · exact two.call resting levels clock keys fits.withinLimits ran
    · rw [none, List.append_nil]
      exact two.observed observed clock

/-- **A session with two levels is a map**: every lookup, and every range read at a still clock,
answers with what was stored last, deletions and lifetimes included, whatever is flushed and
compacted. -/
theorem two_levels_act_as_map {env : Env} (forward : Monotone env.clock)
    (history : History env (fun opts => opts.maxLevels ≤ 2) stores w) (fits : FilesFit w.sys) :
    ActsAs w stores :=
  actsAs_of_visible (history.reached.resting fits).inv (two_levels forward history fits).mirrors

/-- Every call is flushed and compacted at once, and the deletion holds. -/
theorem two_levels_act_as_map_deleted :
    ∃ w stores, History .steady (fun opts => opts.maxLevels ≤ 2) stores w ∧ ActsAs w stores ∧
      0 < w.eng.metrics.compactions ∧
      answer (get [1]) w = .ok none ∧ answer (get [2]) w = .ok (some [8]) := by
  let opts : Options := { memtableSize := 0, l0CompactionThreshold := 1, maxLevels := 2 }
  obtain ⟨e, s, w, opened, ran, -, tested⟩ := exists_session opts .steady
    [.put [1] [7], .put [2] [8], .delete [1]]
    (fun w => decide ((w.sys.journal.map FsOp.added).sum < 2 ^ 32) &&
      (decide (0 < w.eng.metrics.compactions) &&
        (passes (get [1]) w (fun x _ => x == none) &&
          passes (get [2]) w (fun x _ => x == some [8])))) (by decide +kernel)
  obtain ⟨few, tested⟩ := Bool.and_eq_true_iff.mp tested
  obtain ⟨compacted, reads⟩ := Bool.and_eq_true_iff.mp tested
  obtain ⟨first, second⟩ := Bool.and_eq_true_iff.mp reads
  have begun : History .steady (fun opts => opts.maxLevels ≤ 2) [] ⟨e, s⟩ :=
    .opened (by decide) opened
  obtain ⟨new, history⟩ := begun.runCalls (by unfold Call.KeysFit; decide) ran
  exact ⟨w, _, history, two_levels_act_as_map (fun _ _ _ => le_rfl) history
    (filesFit_of_added (of_decide_eq_true few)), of_decide_eq_true compacted,
    answer_of_passes first, answer_of_passes second⟩

end KvEngine
