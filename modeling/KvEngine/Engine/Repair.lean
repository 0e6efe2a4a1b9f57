import KvEngine.Engine.Open

/-!
# Repairing a directory

`repair` forgets the manifest and lists every SSTable file of the directory that can
be opened at level 0, in the order in which the operating system enumerates them.
That order is not fixed, so it is a parameter here.
-/

namespace KvEngine

open Foundations

/-- What a repair did. -/
structure RepairReport where
  corruptedFiles : Nat
  recoveredSsts : Nat
  deriving DecidableEq, Repr

namespace Engine

/-- Run `x` for its `Result`.  A panic is not caught. -/
def attempt {α : Type} (x : SysM α) : SysM (Except KvError α) := fun s =>
  match x s with
  | .ok a s' => .ok (.ok a) s'
  | .error (.err e) s' => .ok (.error e) s'
  | .error e s' => .error e s'

/-- List an SSTable file that can be opened, with empty keys as placeholders, and
remove one that cannot. -/
def repairSst (id : Nat) (manifest : Manifest) (report : RepairReport) :
    SysM (Manifest × RepairReport) := do
  match ← attempt (SSTableReader.openWithCache (.sst id) 0) with
  | .ok _ =>
      pure (manifest.addSst 0 { id, level := 0, minKey := [], maxKey := [] },
        { report with recoveredSsts := report.recoveredSsts + 1 })
  | .error _ => do
      ignoring (removeFile (.sst id))
      pure (manifest, { report with corruptedFiles := report.corruptedFiles + 1 })

/-- Go through the entries of the directory; only SSTable files are looked at.
Reading an entry may fail. -/
def repairEntries : List FileName → Manifest → RepairReport → SysM (Manifest × RepairReport)
  | [], manifest, report => pure (manifest, report)
  | entry :: entries, manifest, report => do
      syncFile
      match entry with
      | .sst id => do
          let (manifest, report) ← repairSst id manifest report
          repairEntries entries manifest report
      | _ => repairEntries entries manifest report

/-- Truncate the WAL so that the next open starts fresh. -/
def truncateWal : SysM Unit := do
  if ← fileExists (.wal 1) then ignoring (createTruncate (.wal 1)) else pure ()

/-- Repair a corrupted database directory whose entries are enumerated in the given
order: rebuild the manifest from all SSTable files and truncate the WAL. -/
def repair (entries : List FileName) : SysM RepairReport := do
  syncFile
  let (manifest, report) ← repairEntries entries Manifest.new ⟨0, 0⟩
  manifest.save .manifest
  truncateWal
  pure report

end Engine

end KvEngine
