import KvEngine.Engine.Entries
import KvEngine.Engine.Room
import KvEngine.Properties.Availability

/-!
# The schedule of compactions

After a flush `maybe_compact` goes through the levels and compacts each one that holds as many
tables as its threshold asks for.  The threshold of a level may overflow; and one of zero asks for
no table at all, so that an empty level is compacted, of which `compact_level` unwraps the least
key.  Both panic.
-/

namespace KvEngine

open Foundations Engine

variable {w₀ w₁ w w' : World} {u : Unit} {opts : Options}

/-- A call, or closing, that began in `w₀` has come to where it flushes what is frozen. -/
inductive AtFlush (w₀ : World) : World → Prop
  | stored {call : Call} {w : World} (keys : call.KeysFit) (run : Ends call.store w₀ () w) :
      AtFlush w₀ w
  | closing : AtFlush w₀ w₀
  | frozen {w : World} (run : Ends maybeFlush w₀ () w) : AtFlush w₀ (frozen w)

/-- What was frozen in `w₁` is in a table now, and `maybe_compact` is called in `w`. -/
structure AtMaybeCompact (w₁ w : World) : Prop where
  flushed : ∃ imm sstId w₂ entries, w₁.eng.memtable.immutable = some imm ∧
    Ends takeSstId (thawed w₁) sstId w₂ ∧ imm.iter = .ok entries ∧ entries ≠ [] ∧
    Ends (flushEntries sstId entries) w₂ () w

theorem AtFlush.extends (point : AtFlush w₀ w₁) : w₀.sys.Extends w₁.sys := by
  cases point with
  | stored _ run => exact (extending_store _ _ _ _ run).sys
  | closing => exact .refl _
  | frozen run => exact (extending_maybeFlush _ _ _ run).sys

theorem AtFlush.opts_eq (point : AtFlush w₀ w₁) : w₁.eng.opts = w₀.eng.opts := by
  cases point with
  | stored _ run => exact (extending_store _ _ _ _ run).opts
  | closing => rfl
  | frozen run => exact (extending_maybeFlush _ _ _ run).opts

theorem AtFlush.inv (point : AtFlush w₀ w₁) (resting : Resting w₀)
    (limits : WithinLimits w₁.sys) : Inv w₁ := by
  cases point with
  | stored keys run =>
      obtain ⟨accepted, -⟩ := ends_store_now run
      exact accepted.inv resting.inv fun s hs => keys _ (Call.key_mem_keys hs)
  | closing => exact resting.inv
  | @frozen w run =>
      have limits : WithinLimits w.sys := limits
      rcases ends_maybeFlush_cases resting.inv limits run with
        ⟨-, rfl⟩ | ⟨imm, p, w₂, isFrozen, -⟩
      · exact resting.inv_frozen
      · rw [resting.free] at isFrozen
        cases isFrozen

theorem AtMaybeCompact.extends (point : AtMaybeCompact w₁ w) : w₁.sys.Extends w.sys := by
  obtain ⟨imm, sstId, w₂, entries, -, took, -, -, wrote⟩ := point.flushed
  have taken : w₁.sys.Extends w₂.sys := (extending_takeSstId _ _ _ took).sys
  exact taken.trans (extending_flushEntries _ _ _ _ _ wrote).sys

theorem AtMaybeCompact.opts_eq (point : AtMaybeCompact w₁ w) : w.eng.opts = w₁.eng.opts := by
  obtain ⟨imm, sstId, w₂, entries, -, took, -, -, wrote⟩ := point.flushed
  have taken : w₂.eng.opts = w₁.eng.opts := (extending_takeSstId _ _ _ took).opts
  rw [(extending_flushEntries _ _ _ _ _ wrote).opts, taken]

/-- A flush has just brought a table to level 0. -/
theorem AtMaybeCompact.flush (point : AtMaybeCompact w₁ w) (inv : Inv w₁)
    (limits : WithinLimits w.sys) : ∃ imm p, w₁.eng.memtable.immutable = some imm ∧
      Flush (thawed w₁) p w ∧ p.map = imm.contents := by
  obtain ⟨imm, sstId, w₂, entries, isFrozen, took, iterates, -, wrote⟩ := point.flushed
  rw [(inv.memtable.immutable imm isFrozen).iter_eq] at iterates
  cases iterates
  obtain ⟨p, flush, map⟩ := ends_flushEntries
    (inv.memKeys imm.contents (by simp [MemTable.layers, isFrozen])) (inv_thawed inv).history
    limits took wrote
  exact ⟨imm, p, isFrozen, flush, map⟩

example : passes (openWithOptions { memtableSize := 0, l0CompactionThreshold := 0, maxLevels := 3 })
    (Sys.initial .steady) (fun e s =>
      failsWith (Call.delete [1]).run ⟨e, s⟩ fun failure _ => decide (failure = .panic)) = true := by
  decide +kernel

end KvEngine
