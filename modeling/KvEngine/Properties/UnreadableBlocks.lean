import KvEngine.Engine.Failures
import KvEngine.Engine.Session

/-!
# Unreadable blocks

The iterator of a table ends at the first block that it cannot load, and its callers
cannot tell that end from the end of the table.  So neither a range read nor a
compaction reports an unreadable block, and the compaction goes on to delete the file.
-/

namespace KvEngine

open Foundations Engine

variable {w w' : World}

/-- `Block::decode` fails on the bytes of a block of the table. -/
def Unreadable (r : SSTableReader) (i : Nat) : Prop :=
  i < r.index.length ∧ ∃ k, r.decodeBlock i = .error (.err k)

/-- The range read reports an error. -/
def ScanReports (w : World) (start stop : Bytes) : Prop :=
  ∃ k w', Fails (scan start stop) w (.err k) w'

/-- The compaction reports an error and leaves everything as it was. -/
def CompactionReports (w : World) (level : Nat) : Prop :=
  ∃ k w', Fails (compactLevel level) w (.err k) w' ∧ w'.eng.manifest = w.eng.manifest ∧
    w'.eng.sstReaders = w.eng.sstReaders ∧
    ∀ id, w'.sys.dir.lookup (.sst id) = w.sys.dir.lookup (.sst id)

/-- The table is one of those that the compaction of the level merges. -/
def IsInput (m : Manifest) (level : Nat) (sst : SSTMeta) : Prop :=
  sst ∈ m.sstsAtLevel level ∨
    ∃ dst, overlapping (m.sstsAtLevel level) (m.sstsAtLevel (level + 1)) = .ok dst ∧ sst ∈ dst

/-- An unreadable block of an open table is always reported. -/
def UnreadableReported : Prop :=
  ∀ (w : World) (p : Table) (i : Nat), p ∈ w.eng.sstReaders → Unreadable p.2 i →
    (∀ start stop, start ≤ p.1.minKey → p.1.maxKey < stop → ScanReports w start stop) ∧
      ∀ level, IsInput w.eng.manifest level p.1 → CompactionReports w level

/-- **The code never reports an unreadable block.** No range read returns an error; and
unless a file operation fails, no compaction does that leaves the files as they were. -/
theorem unreadable_never_reported (w : World) :
    (∀ start stop, ¬ ScanReports w start stop) ∧
      (w.sys.env.Faultless → w.sys.dir.lookup (.sst w.eng.nextSstId) = none →
        ∀ level, ¬ CompactionReports w level) := by
  constructor
  · rintro start stop ⟨k, w', failed⟩
    exact scan_notErr start stop failed
  · rintro faultless fresh level ⟨k, w', failed, -, -, same⟩
    have written := fails_compactLevel faultless failed
    rw [same, fresh] at written
    cases written

/-! ## A damaged table -/

/-- The directory with the number of entries in the first block of a file overwritten. -/
def Sys.damage (s : Sys) (id : Nat) : Sys :=
  match s.dir.lookup (.sst id) with
  | some data => { s with dir := s.dir.insert (.sst id) (255 :: data.drop 1) }
  | none => s

/-- The block can be found but not decoded. -/
def isUnreadable (r : SSTableReader) (i : Nat) : Bool :=
  decide (i < r.index.length) &&
    (match r.decodeBlock i with
      | .error (.err _) => true
      | _ => false)

theorem unreadable_of_isUnreadable {r : SSTableReader} {i : Nat} (bad : isUnreadable r i = true) :
    Unreadable r i := by
  obtain ⟨inside, fails⟩ := Bool.and_eq_true_iff.mp bad
  refine ⟨of_decide_eq_true inside, ?_⟩
  split at fails
  · next k found => exact ⟨k, found⟩
  · cases fails

/-- An engine is opened on a directory in which the only block of a table was damaged. -/
theorem exists_unreadable : ∃ w : World, w.sys.env.Faultless ∧
    w.sys.dir.lookup (.sst w.eng.nextSstId) = none ∧ ∃ p ∈ w.eng.sstReaders,
      Unreadable p.2 0 ∧ p.1.maxKey = [1] := by
  obtain ⟨e, s, w, opened, ran, -, reopens⟩ := exists_session { memtableSize := 0 } .steady
    [.put [1] [7]]
    (fun w => passes (openWithOptions {}) (w.sys.damage 1) (fun e s =>
      (s.dir.lookup (.sst e.nextSstId)).isNone &&
        e.sstReaders.any (fun p => isUnreadable p.2 0 && p.1.maxKey == [1])))
    (by decide +kernel)
  obtain ⟨e', s', reopened, found⟩ := ends_of_passes reopens
  obtain ⟨fresh, found⟩ := Bool.and_eq_true_iff.mp found
  obtain ⟨p, isOpen, found⟩ := List.any_eq_true.mp found
  obtain ⟨bad, lastKey⟩ := Bool.and_eq_true_iff.mp found
  refine ⟨⟨e', s'⟩, ?_, Option.isNone_iff_eq_none.mp fresh, p, isOpen,
    unreadable_of_isUnreadable bad, eq_of_beq lastKey⟩
  have env₁ : s.env = .steady := (ends_openWithOptions opened).2.env
  have env₂ : w.sys.env = s.env := (extending_runCalls _ _ _ _ ran).sys.env
  have env₃ : (w.sys.damage 1).env = w.sys.env := by
    unfold Sys.damage
    split <;> rfl
  intro n
  rw [(ends_openWithOptions reopened).2.env, env₃, env₂, env₁]
  rfl

/-- There, neither reads nor compactions report it. -/
theorem unreadable_not_reported : ∃ w : World, (∃ p ∈ w.eng.sstReaders, Unreadable p.2 0) ∧
    (∀ start stop, ¬ ScanReports w start stop) ∧ ∀ level, ¬ CompactionReports w level := by
  obtain ⟨w, faultless, fresh, p, isOpen, unreadable, -⟩ := exists_unreadable
  obtain ⟨noScan, noCompaction⟩ := unreadable_never_reported w
  exact ⟨w, ⟨p, isOpen, unreadable⟩, noScan, noCompaction faultless fresh⟩

/-- A range read passes over the damaged table. -/
theorem not_unreadableReported : ¬ UnreadableReported := by
  intro reported
  obtain ⟨w, -, -, p, isOpen, unreadable, lastKey⟩ := exists_unreadable
  obtain ⟨k, w', failed⟩ := (reported w p 0 isOpen unreadable).1 p.1.minKey [2] le_rfl
    (by rw [lastKey]; decide)
  exact scan_notErr _ _ failed

end KvEngine
