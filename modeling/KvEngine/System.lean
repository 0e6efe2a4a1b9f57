import Mathlib.Data.List.AList
import KvEngine.Error

/-!
# What the engine runs on

The database directory, the clock, the random tower heights of the skip list
and the CRC of the `crc32fast` crate are outside the engine.  `Env` fixes the
parts that do not change during a run, `Sys` adds the state the operating
system keeps.

* Every change of the directory is one `FsOp`, and `Sys.journal` lists the ones
  performed so far: the directory a crash leaves is the replay of a prefix.
* `Env.ioFault n = some m` makes the `n`-th file operation fail, a write after
  `m` bytes.
* `Env.clock` and `Env.towers` are the streams of clock readings (seconds since
  the epoch) and of draws (trailing zeros of the generator's state).
-/

namespace KvEngine

open Foundations

/-- The files of a database directory. -/
inductive FileName
  /-- `MANIFEST` -/
  | manifest
  /-- `{:06}.wal` -/
  | wal (n : Nat)
  /-- `{:06}.sst` -/
  | sst (id : Nat)
  deriving DecidableEq, Repr

/-- A directory: the contents of each file in it. -/
abbrev Dir := AList (fun _ : FileName => Bytes)

/-- A change of the directory. -/
inductive FsOp
  /-- Create the file, or cut it down to no bytes if it is there. -/
  | truncate (f : FileName)
  /-- Write at the end of an open file. -/
  | append (f : FileName) (data : Bytes)
  /-- Delete the file. -/
  | remove (f : FileName)
  deriving DecidableEq, Repr

/-- The file a change is made to. -/
def FsOp.file : FsOp → FileName
  | .truncate f => f
  | .append f _ => f
  | .remove f => f

/-- The directory after a change.  Bytes written to a deleted file are lost. -/
def FsOp.apply : FsOp → Dir → Dir
  | .truncate f, d => d.insert f []
  | .append f data, d =>
      match d.lookup f with
      | some old => d.insert f (old ++ data)
      | none => d
  | .remove f, d => d.erase f

/-- The directory after a list of changes, the first one first. -/
def applyOps (ops : List FsOp) (d : Dir) : Dir :=
  ops.foldl (fun acc op => op.apply acc) d

/-- The parts of the outside world that a run does not change. -/
structure Env where
  /-- `crc32fast::hash` -/
  crc : Bytes → UInt32
  /-- The successive readings of `SystemTime::now()`, in seconds since the epoch. -/
  clock : Nat → Nat
  /-- The successive draws of `random_level`, before the cap. -/
  towers : Nat → Nat
  /-- Which file operations fail, and after how many bytes. -/
  ioFault : Nat → Option Nat

/-- The outside world. -/
structure Sys where
  dir : Dir
  /-- All changes of the directory so far, oldest first. -/
  journal : List FsOp
  env : Env
  /-- Number of file operations so far. -/
  ioCount : Nat
  /-- Number of clock readings so far. -/
  ticks : Nat
  /-- Number of random draws so far. -/
  draws : Nat

/-- A computation on the outside world. -/
abbrev SysM := EStateM Failure Sys

/-- `Err(KvError::Io(_))` of a failed operation. -/
def ioError : Failure := .err (.io .other)

namespace Sys

/-- Perform a change and record it. -/
def perform (s : Sys) (op : FsOp) : Sys :=
  { s with dir := op.apply s.dir, journal := s.journal ++ [op] }

end Sys

/-- Ask whether the next file operation fails. -/
def nextFault : SysM (Option Nat) := fun s =>
  .ok (s.env.ioFault s.ioCount) { s with ioCount := s.ioCount + 1 }

/-- `SystemTime::now().duration_since(UNIX_EPOCH).as_secs()` -/
def now : SysM Nat := fun s =>
  .ok (s.env.clock s.ticks) { s with ticks := s.ticks + 1 }

/-- The trailing zeros of the next state of the generator. -/
def drawTrailing : SysM Nat := fun s =>
  .ok (s.env.towers s.draws) { s with draws := s.draws + 1 }

/-- `create(true).write(true).truncate(true).open(f)`, also `File::create(f)`. -/
def createTruncate (f : FileName) : SysM Unit := do
  match ← nextFault with
  | some _ => throw ioError
  | none => modify (fun s => s.perform (.truncate f))

/-- `create(true).append(true).open(f)`: create the file if it is missing. -/
def openAppend (f : FileName) : SysM Unit := do
  match ← nextFault with
  | some _ => throw ioError
  | none =>
      let s ← get
      if (s.dir.lookup f).isSome then pure ()
      else modify (fun s => s.perform (.truncate f))

/-- `file.write_all(data)` on an open file. -/
def writeFile (f : FileName) (data : Bytes) : SysM Unit := do
  match ← nextFault with
  | some written => do
      modify (fun s => s.perform (.append f (data.take written)))
      throw ioError
  | none => modify (fun s => s.perform (.append f data))

/-- `fs::read(f)` -/
def readFile (f : FileName) : SysM Bytes := do
  match ← nextFault with
  | some _ => throw ioError
  | none =>
      match (← get).dir.lookup f with
      | some data => pure data
      | none => throw (.err (.io .notFound))

/-- `fs::remove_file(f)` -/
def removeFile (f : FileName) : SysM Unit := do
  match ← nextFault with
  | some _ => throw ioError
  | none =>
      if ((← get).dir.lookup f).isSome then modify (fun s => s.perform (.remove f))
      else throw (.err (.io .notFound))

/-- `f.exists()` -/
def fileExists (f : FileName) : SysM Bool := do
  return ((← get).dir.lookup f).isSome

/-- `file.sync_data()`, `file.sync_all()`, `create_dir_all(path)`: an operation
that can fail but changes no file contents. -/
def syncFile : SysM Unit := do
  match ← nextFault with
  | some _ => throw ioError
  | none => pure ()

/-! ## Buffered writing

`BufWriter<File>` of the standard library with its default capacity: data that
fits the spare room is buffered, otherwise the buffer is written out first, and
data as large as the whole buffer bypasses it. -/

/-- A buffered writer on an open file. -/
structure BufWriter where
  path : FileName
  buf : Bytes
  deriving DecidableEq, Repr

namespace BufWriter

/-- The default capacity of `BufWriter::new`. -/
def capacity : Nat := 8192

/-- A method of the writer. -/
abbrev M := EStateM Failure (BufWriter × Sys)

/-- Write out the buffer; what a failed write did not get out stays buffered. -/
def flushBuf : M Unit := fun (w, s) =>
  if w.buf = [] then .ok () (w, s)
  else
    match nextFault s with
    | .ok (some written) s' =>
        .error ioError
          ({ w with buf := w.buf.drop written },
            s'.perform (.append w.path (w.buf.take written)))
    | .ok none s' => .ok () ({ w with buf := [] }, s'.perform (.append w.path w.buf))
    | .error e s' => .error e (w, s')

/-- The first half of `write_all`: make room when the data exceeds the spare room. -/
def makeRoom (data : Bytes) : M Unit := do
  let (w, _) ← get
  if data.length > capacity - w.buf.length then flushBuf else pure ()

/-- The second half: data as large as the whole buffer bypasses it. -/
def bufferOrWrite (data : Bytes) : M Unit := do
  let (w, _) ← get
  if data.length ≥ capacity then
    zoom Prod.snd (fun s p => (p.1, s)) (writeFile w.path data)
  else
    modify (fun p => ({ p.1 with buf := p.1.buf ++ data }, p.2))

/-- `write_all(data)` -/
def writeAll (data : Bytes) : M Unit := do
  makeRoom data
  bufferOrWrite data

/-- `drop`: write out the buffer, ignoring a failure. -/
def drop (w : BufWriter) (s : Sys) : Sys :=
  match flushBuf (w, s) with
  | .ok _ (_, s') => s'
  | .error _ (_, s') => s'

end BufWriter

/-! ## What a computation does to the directory -/

@[simp] theorem applyOps_nil (d : Dir) : applyOps [] d = d := rfl

@[simp] theorem applyOps_cons (op : FsOp) (ops : List FsOp) (d : Dir) :
    applyOps (op :: ops) d = applyOps ops (op.apply d) := rfl

theorem applyOps_append (ops₁ ops₂ : List FsOp) (d : Dir) :
    applyOps (ops₁ ++ ops₂) d = applyOps ops₂ (applyOps ops₁ d) := by
  simp [applyOps, List.foldl_append]

/-- A change of one file leaves the others alone. -/
theorem FsOp.lookup_apply_of_ne {op : FsOp} {f : FileName} (other : op.file ≠ f) (d : Dir) :
    (op.apply d).lookup f = d.lookup f := by
  cases op with
  | truncate g => exact AList.lookup_insert_ne (Ne.symm other)
  | append g data =>
      simp only [FsOp.apply]
      split
      · exact AList.lookup_insert_ne (Ne.symm other)
      · rfl
  | remove g => exact AList.lookup_erase_ne (Ne.symm other)

theorem lookup_applyOps_of_ne {ops : List FsOp} {f : FileName} (d : Dir)
    (others : ∀ op ∈ ops, op.file ≠ f) : (applyOps ops d).lookup f = d.lookup f := by
  induction ops generalizing d with
  | nil => rfl
  | cons op ops inductionHypothesis =>
      rw [applyOps_cons, inductionHypothesis _ (fun o ho => others o (List.mem_cons_of_mem _ ho)),
        FsOp.lookup_apply_of_ne (others op List.mem_cons_self)]

@[simp] theorem FsOp.lookup_truncate (f : FileName) (d : Dir) :
    ((FsOp.truncate f).apply d).lookup f = some [] :=
  AList.lookup_insert d

theorem FsOp.lookup_append {f : FileName} {d : Dir} {old : Bytes} (present : d.lookup f = some old)
    (data : Bytes) : ((FsOp.append f data).apply d).lookup f = some (old ++ data) := by
  simp only [FsOp.apply, present]
  exact AList.lookup_insert d

@[simp] theorem FsOp.lookup_remove (f : FileName) (d : Dir) :
    ((FsOp.remove f).apply d).lookup f = none :=
  AList.lookup_erase f d

namespace Sys

/-- From `s` to `s'` exactly the changes `ops` were made to the directory, the
clock was not turned back, and the environment stayed the same. -/
structure Did (s : Sys) (ops : List FsOp) (s' : Sys) : Prop where
  env : s'.env = s.env
  journal : s'.journal = s.journal ++ ops
  dir : s'.dir = applyOps ops s.dir
  ticks : s.ticks ≤ s'.ticks

namespace Did

variable {s s' s'' : Sys} {ops ops₁ ops₂ : List FsOp}

theorem refl (s : Sys) : Did s [] s := ⟨rfl, by simp, rfl, le_rfl⟩

theorem trans (h₁ : Did s ops₁ s') (h₂ : Did s' ops₂ s'') : Did s (ops₁ ++ ops₂) s'' where
  env := h₂.env.trans h₁.env
  journal := by rw [h₂.journal, h₁.journal, List.append_assoc]
  dir := by rw [h₂.dir, h₁.dir, applyOps_append]
  ticks := h₁.ticks.trans h₂.ticks

/-- A file none of the changes was made to is as it was. -/
theorem lookup_of_ne (h : Did s ops s') {f : FileName} (others : ∀ op ∈ ops, op.file ≠ f) :
    s'.dir.lookup f = s.dir.lookup f := by
  rw [h.dir, lookup_applyOps_of_ne _ others]

end Did

end Sys

theorem ends_nextFault {s s' : Sys} {r : Option Nat} :
    Ends nextFault s r s' ↔
      r = s.env.ioFault s.ioCount ∧ s' = { s with ioCount := s.ioCount + 1 } := by
  simp [Ends, nextFault, eq_comm]

theorem ends_createTruncate {s s' : Sys} {f : FileName} {u : Unit}
    (run : Ends (createTruncate f) s u s') : s.Did [.truncate f] s' := by
  simp only [createTruncate, ends_bind, ends_nextFault] at run
  obtain ⟨r, s₁, ⟨rfl, rfl⟩, rest⟩ := run
  split at rest
  · simp at rest
  · simp only [ends_modify] at rest
    subst rest
    exact ⟨rfl, rfl, rfl, le_rfl⟩

theorem ends_openAppend {s s' : Sys} {f : FileName} {u : Unit} (run : Ends (openAppend f) s u s') :
    ((s.dir.lookup f).isSome ∧ s.Did [] s') ∨
      (s.dir.lookup f = none ∧ s.Did [.truncate f] s') := by
  simp only [openAppend, ends_bind, ends_nextFault] at run
  obtain ⟨r, s₁, ⟨rfl, rfl⟩, rest⟩ := run
  split at rest
  · simp at rest
  · simp only [ends_bind, ends_get] at rest
    obtain ⟨a, s₂, ⟨rfl, rfl⟩, rest⟩ := rest
    split at rest
    · next present =>
        simp only [ends_pure] at rest
        exact Or.inl ⟨present, rest.2 ▸ ⟨rfl, by simp, rfl, le_rfl⟩⟩
    · next missing =>
        simp only [ends_modify] at rest
        subst rest
        exact Or.inr ⟨by simpa using missing, ⟨rfl, rfl, rfl, le_rfl⟩⟩

theorem ends_writeFile {s s' : Sys} {f : FileName} {data : Bytes} {u : Unit}
    (run : Ends (writeFile f data) s u s') : s.Did [.append f data] s' := by
  simp only [writeFile, ends_bind, ends_nextFault] at run
  obtain ⟨r, s₁, ⟨rfl, rfl⟩, rest⟩ := run
  split at rest
  · simp [ends_bind] at rest
  · simp only [ends_modify] at rest
    subst rest
    exact ⟨rfl, rfl, rfl, le_rfl⟩

theorem ends_readFile {s s' : Sys} {f : FileName} {data : Bytes}
    (run : Ends (readFile f) s data s') : s.dir.lookup f = some data ∧ s.Did [] s' := by
  simp only [readFile, ends_bind, ends_nextFault] at run
  obtain ⟨r, s₁, ⟨rfl, rfl⟩, rest⟩ := run
  split at rest
  · simp at rest
  · simp only [ends_bind, ends_get] at rest
    obtain ⟨a, s₂, ⟨rfl, rfl⟩, rest⟩ := rest
    split at rest
    · next found =>
        simp only [ends_pure] at rest
        obtain ⟨rfl, rfl⟩ := rest
        exact ⟨found, ⟨rfl, by simp, rfl, le_rfl⟩⟩
    · simp at rest

/-- No file operation fails. -/
def Env.Faultless (env : Env) : Prop := ∀ n, env.ioFault n = none

theorem nextFault_run {s : Sys} (faultless : s.env.Faultless) :
    nextFault s = .ok none { s with ioCount := s.ioCount + 1 } := by
  rw [nextFault, faultless]

theorem readFile_run {s : Sys} (faultless : s.env.Faultless) {f : FileName} {data : Bytes}
    (present : s.dir.lookup f = some data) : ∃ s', readFile f s = .ok data s' := by
  refine ⟨{ s with ioCount := s.ioCount + 1 }, ?_⟩
  rw [readFile, bind_apply_ok (nextFault_run faultless)]
  simp only
  rw [bind_apply_ok (rfl : get (m := SysM) _ = _)]
  simp only [present]
  rfl

theorem writeFile_run {s : Sys} (faultless : s.env.Faultless) (f : FileName) (data : Bytes) :
    ∃ s', writeFile f data s = .ok () s' := by
  rw [writeFile, bind_apply_ok (nextFault_run faultless)]
  exact ⟨_, rfl⟩

theorem createTruncate_run {s : Sys} (faultless : s.env.Faultless) (f : FileName) :
    ∃ s', createTruncate f s = .ok () s' := by
  rw [createTruncate, bind_apply_ok (nextFault_run faultless)]
  exact ⟨_, rfl⟩

theorem syncFile_run {s : Sys} (faultless : s.env.Faultless) : ∃ s', syncFile s = .ok () s' := by
  refine ⟨{ s with ioCount := s.ioCount + 1 }, ?_⟩
  rw [syncFile, bind_apply_ok (nextFault_run faultless)]
  rfl

theorem openAppend_run {s : Sys} (faultless : s.env.Faultless) (f : FileName) :
    ∃ s', openAppend f s = .ok () s' := by
  rw [openAppend, bind_apply_ok (nextFault_run faultless)]
  simp only
  rw [bind_apply_ok (rfl : get (m := SysM) _ = _)]
  split
  · exact ⟨_, rfl⟩
  · exact ⟨_, rfl⟩

/-- `remove_file` removes the file or leaves the directory alone. -/
theorem removeFile_outcome (f : FileName) (s : Sys) :
    ∃ s', (removeFile f s = .ok () s' ∧ s.Did [.remove f] s') ∨
      (∃ e, removeFile f s = .error e s' ∧ s.Did [] s') := by
  unfold removeFile
  rw [bind_apply_ok (rfl : nextFault s = _)]
  cases s.env.ioFault s.ioCount with
  | some n => exact ⟨_, Or.inr ⟨_, rfl, ⟨rfl, by simp, rfl, le_rfl⟩⟩⟩
  | none =>
      simp only
      rw [bind_apply_ok (rfl : get (m := SysM) _ = _)]
      split
      · exact ⟨_, Or.inl ⟨rfl, ⟨rfl, rfl, rfl, le_rfl⟩⟩⟩
      · exact ⟨_, Or.inr ⟨_, rfl, ⟨rfl, by simp, rfl, le_rfl⟩⟩⟩

/-- So does `let _ = fs::remove_file(f)`, which goes on in both cases. -/
theorem ends_ignoring_removeFile {s s' : Sys} {f : FileName} {u : Unit}
    (run : Ends (ignoring (removeFile f)) s u s') : s.Did [.remove f] s' ∨ s.Did [] s' := by
  obtain ⟨t, ⟨outcome, did⟩ | ⟨e, outcome, did⟩⟩ := removeFile_outcome f s
  all_goals
    simp only [Ends, ignoring, outcome] at run
    cases run
  · exact Or.inl did
  · exact Or.inr did

theorem ends_syncFile {s s' : Sys} {u : Unit} (run : Ends syncFile s u s') : s.Did [] s' := by
  simp only [syncFile, ends_bind, ends_nextFault] at run
  obtain ⟨r, s₁, ⟨rfl, rfl⟩, rest⟩ := run
  split at rest
  · simp at rest
  · simp only [ends_pure] at rest
    exact rest.2 ▸ ⟨rfl, by simp, rfl, le_rfl⟩

/-! ### Buffered writes -/

namespace BufWriter

/-- From `p` to `p'` the writer accepted `data`: the file and the buffer
together grew by `data`, by writing to the end of the file only. -/
structure Wrote (p : BufWriter × Sys) (data : Bytes) (p' : BufWriter × Sys) : Prop where
  path : p'.1.path = p.1.path
  did : ∃ ops, p.2.Did ops p'.2 ∧ ∀ op ∈ ops, ∃ d, op = .append p.1.path d
  content : ∀ old, p.2.dir.lookup p.1.path = some old →
    ∃ new, p'.2.dir.lookup p.1.path = some new ∧ new ++ p'.1.buf = old ++ p.1.buf ++ data

theorem Wrote.refl (p : BufWriter × Sys) : Wrote p [] p where
  path := rfl
  did := ⟨[], .refl _, by simp⟩
  content old present := ⟨old, present, by simp⟩

theorem Wrote.trans {p p' p'' : BufWriter × Sys} {data₁ data₂ : Bytes}
    (h₁ : Wrote p data₁ p') (h₂ : Wrote p' data₂ p'') : Wrote p (data₁ ++ data₂) p'' := by
  refine ⟨h₂.path.trans h₁.path, ?_, fun old present => ?_⟩
  · obtain ⟨ops₁, did₁, appends₁⟩ := h₁.did
    obtain ⟨ops₂, did₂, appends₂⟩ := h₂.did
    refine ⟨ops₁ ++ ops₂, did₁.trans did₂, fun op hop => ?_⟩
    rcases List.mem_append.mp hop with first | second
    · exact appends₁ op first
    · exact h₁.path ▸ appends₂ op second
  · obtain ⟨middle, presentMiddle, contentMiddle⟩ := h₁.content old present
    obtain ⟨new, presentNew, contentNew⟩ := h₂.content middle (h₁.path ▸ presentMiddle)
    refine ⟨new, h₁.path ▸ presentNew, ?_⟩
    rw [contentNew, contentMiddle, List.append_assoc]

theorem ends_flushBuf {p p' : BufWriter × Sys} {u : Unit} (run : Ends flushBuf p u p') :
    p'.1 = { p.1 with buf := [] } ∧
      ((p.1.buf = [] ∧ p.2.Did [] p'.2) ∨
        (p.1.buf ≠ [] ∧ p.2.Did [.append p.1.path p.1.buf] p'.2)) := by
  obtain ⟨w, s⟩ := p
  unfold Ends flushBuf at run
  simp only [nextFault] at run
  split at run
  · next none =>
      cases run
      exact ⟨by cases w; simp_all, Or.inl ⟨none, .refl _⟩⟩
  · next some =>
      cases fault : s.env.ioFault s.ioCount with
      | some n => simp [fault] at run
      | none =>
          simp only [fault] at run
          cases run
          exact ⟨rfl, Or.inr ⟨some, ⟨rfl, rfl, rfl, le_rfl⟩⟩⟩

theorem wrote_flushBuf {p p' : BufWriter × Sys} {u : Unit} (run : Ends flushBuf p u p') :
    Wrote p [] p' ∧ p'.1.buf = [] := by
  obtain ⟨w, s⟩ := p
  obtain ⟨w', s'⟩ := p'
  obtain ⟨rfl, ⟨none, did⟩ | ⟨-, did⟩⟩ := ends_flushBuf run
  · refine ⟨⟨rfl, ⟨[], did, by simp⟩, fun old present => ⟨old, ?_, ?_⟩⟩, rfl⟩
    · rw [did.lookup_of_ne (by simp)]
      exact present
    · simp_all
  · refine ⟨⟨rfl, ⟨_, did, by simp⟩, fun old present => ⟨old ++ w.buf, ?_, ?_⟩⟩, rfl⟩
    · rw [did.dir]
      exact FsOp.lookup_append present _
    · simp

theorem wrote_makeRoom {p p' : BufWriter × Sys} {data : Bytes} {u : Unit}
    (run : Ends (makeRoom data) p u p') :
    Wrote p [] p' ∧ (capacity ≤ data.length → p'.1.buf = []) := by
  simp only [makeRoom, ends_bind, ends_get] at run
  obtain ⟨a, s', ⟨rfl, rfl⟩, run⟩ := run
  split at run
  · obtain ⟨wrote, empty⟩ := wrote_flushBuf run
    exact ⟨wrote, fun _ => empty⟩
  · next fits =>
      simp only [ends_pure] at run
      obtain ⟨-, rfl⟩ := run
      refine ⟨.refl _, fun large => ?_⟩
      have room : capacity - s'.1.buf.length = capacity := by omega
      have positive : 0 < capacity := by decide
      exact List.length_eq_zero_iff.mp (by omega)

theorem wrote_bufferOrWrite {p p' : BufWriter × Sys} {data : Bytes} {u : Unit}
    (empty : capacity ≤ data.length → p.1.buf = [])
    (run : Ends (bufferOrWrite data) p u p') : Wrote p data p' := by
  simp only [bufferOrWrite, ends_bind, ends_get] at run
  obtain ⟨a, s', ⟨rfl, rfl⟩, run⟩ := run
  split at run
  · next large =>
      rw [ends_zoom] at run
      obtain ⟨s, write, rfl⟩ := run
      have did := ends_writeFile write
      refine ⟨rfl, ⟨_, did, by simp⟩, fun old present => ⟨old ++ data, ?_, ?_⟩⟩
      · simp only [did.dir, applyOps_cons, applyOps_nil]
        exact FsOp.lookup_append present data
      · simp [empty large]
  · rw [ends_modify] at run
    subst run
    exact ⟨rfl, ⟨[], .refl _, by simp⟩, fun old present => ⟨old, present, by simp⟩⟩

theorem wrote_writeAll {p p' : BufWriter × Sys} {data : Bytes} {u : Unit}
    (run : Ends (writeAll data) p u p') : Wrote p data p' := by
  simp only [writeAll, ends_bind] at run
  obtain ⟨_, middle, room, rest⟩ := run
  obtain ⟨wroteRoom, empty⟩ := wrote_makeRoom room
  exact wroteRoom.trans (wrote_bufferOrWrite empty rest)

/-- Where accepted data goes: a whole write stays in the buffer or reaches the file. -/
inductive Placed (old buf data : Bytes) : Bytes → Bytes → Prop
  /-- The buffer had room. -/
  | buffered : Placed old buf data old (buf ++ data)
  /-- The buffer was written out first. -/
  | flushed : Placed old buf data (old ++ buf) data
  /-- The data went to the file, too. -/
  | written : Placed old buf data (old ++ buf ++ data) []

theorem placed_writeAll {p p' : BufWriter × Sys} {data old : Bytes} {u : Unit}
    (run : Ends (writeAll data) p u p') (present : p.2.dir.lookup p.1.path = some old) :
    (∃ new, p'.2.dir.lookup p.1.path = some new ∧ Placed old p.1.buf data new p'.1.buf) ∧
      (p.1.buf.length ≤ capacity → p'.1.buf.length ≤ capacity) := by
  simp only [writeAll, ends_bind] at run
  obtain ⟨_, p₁, room, rest⟩ := run
  have empty := (wrote_makeRoom room).2
  simp only [makeRoom, ends_bind, ends_get] at room
  obtain ⟨q, q', ⟨seen, seen'⟩, room⟩ := room
  rw [seen, seen'] at room
  simp only [bufferOrWrite, ends_bind, ends_get] at rest
  obtain ⟨r, r', ⟨seen, seen'⟩, rest⟩ := rest
  rw [seen, seen'] at rest
  -- what is in file and buffer once there is room
  have middle : p₁.1.path = p.1.path ∧
      ((p₁.2.dir.lookup p.1.path = some old ∧ p₁.1.buf = p.1.buf ∧
          data.length ≤ capacity - p.1.buf.length) ∨
        (p₁.2.dir.lookup p.1.path = some (old ++ p.1.buf) ∧ p₁.1.buf = [])) := by
    split at room
    · obtain ⟨wrote, cleared⟩ := wrote_flushBuf room
      obtain ⟨new, presentNew, content⟩ := wrote.content old present
      rw [cleared, List.append_nil, List.append_nil] at content
      exact ⟨wrote.path, Or.inr ⟨content ▸ presentNew, cleared⟩⟩
    · next fits =>
        obtain ⟨-, rfl⟩ := ends_pure.mp room
        exact ⟨rfl, Or.inl ⟨present, rfl, not_lt.mp fits⟩⟩
  obtain ⟨path, middle⟩ := middle
  split at rest
  · next large =>
      rw [ends_zoom] at rest
      obtain ⟨s, write, rfl⟩ := rest
      have did := ends_writeFile write
      have cleared := empty large
      refine ⟨⟨old ++ p.1.buf ++ data, ?_, ?_⟩, fun _ => ?_⟩
      · have before : p₁.2.dir.lookup p₁.1.path = some (old ++ p.1.buf) := by
          rw [path]
          rcases middle with ⟨found, same, -⟩ | ⟨found, -⟩
          · rw [found, ← same, cleared, List.append_nil]
          · exact found
        simp only [did.dir, applyOps_cons, applyOps_nil]
        rw [← path]
        exact FsOp.lookup_append before data
      · simp only [cleared]
        exact .written
      · simp [cleared]
  · next small =>
      rw [ends_modify] at rest
      subst rest
      simp only
      rcases middle with ⟨found, same, fits⟩ | ⟨found, cleared⟩
      · refine ⟨⟨old, found, by rw [same]; exact .buffered⟩, fun within => ?_⟩
        rw [same, List.length_append]
        omega
      · refine ⟨⟨old ++ p.1.buf, found, by rw [cleared]; exact .flushed⟩, fun _ => ?_⟩
        rw [cleared, List.nil_append]
        exact (not_le.mp small).le

/-- The environment does not change while writing. -/
theorem Wrote.env {p p' : BufWriter × Sys} {data : Bytes} (wrote : Wrote p data p') :
    p'.2.env = p.2.env := by
  obtain ⟨ops, did, -⟩ := wrote.did
  exact did.env

theorem flushBuf_run {p : BufWriter × Sys} (faultless : p.2.env.Faultless) :
    ∃ p', flushBuf p = .ok () p' := by
  obtain ⟨w, s⟩ := p
  unfold flushBuf
  by_cases empty : w.buf = []
  · exact ⟨_, if_pos empty⟩
  · simp only [if_neg empty, nextFault_run faultless]
    exact ⟨_, rfl⟩

theorem writeAll_run {p : BufWriter × Sys} (faultless : p.2.env.Faultless) (data : Bytes) :
    ∃ p', writeAll data p = .ok () p' := by
  obtain ⟨p₁, room⟩ : ∃ p₁, makeRoom data p = .ok () p₁ := by
    rw [makeRoom, bind_apply_ok (rfl : get (m := M) p = _)]
    simp only
    split
    · exact flushBuf_run faultless
    · exact ⟨p, rfl⟩
  have same := (wrote_makeRoom room).1.env
  rw [writeAll, bind_apply_ok room, bufferOrWrite, bind_apply_ok (rfl : get (m := M) p₁ = _)]
  simp only
  split
  · obtain ⟨s, write⟩ := writeFile_run (by rw [same]; exact faultless) p₁.1.path data
    exact ⟨(p₁.1, s), by simp only [zoom, write]⟩
  · exact ⟨_, rfl⟩

theorem drop_of_empty {w : BufWriter} {s : Sys} (empty : w.buf = []) : w.drop s = s := by
  simp [drop, flushBuf, empty]

/-- What dropping a writer does: its buffer goes to the end of its file, as far as
the write gets. -/
def Leftover (w : BufWriter) (s : Sys) (ops : List FsOp) : Prop :=
  (w.buf = [] ∧ ops = []) ∨
    ∃ data, ops = [.append w.path data] ∧ data <+: w.buf ∧
      ((∀ n, s.env.ioFault n = none) → data = w.buf)

theorem drop_did (w : BufWriter) (s : Sys) :
    ∃ ops, s.Did ops (w.drop s) ∧ Leftover w s ops := by
  unfold drop flushBuf
  simp only [nextFault]
  by_cases empty : w.buf = []
  · simp only [if_pos empty]
    exact ⟨[], .refl _, Or.inl ⟨empty, rfl⟩⟩
  · simp only [if_neg empty]
    cases fault : s.env.ioFault s.ioCount with
    | none =>
        exact ⟨_, ⟨rfl, rfl, rfl, le_rfl⟩, Or.inr ⟨_, rfl, List.prefix_refl _, fun _ => rfl⟩⟩
    | some n =>
        refine ⟨_, ⟨rfl, rfl, rfl, le_rfl⟩, Or.inr ⟨_, rfl, List.take_prefix _ _, fun faultless => ?_⟩⟩
        rw [faultless] at fault
        cases fault

end BufWriter

/-! ### Clock and random draws -/

theorem ends_now {s s' : Sys} {t : Nat} (run : Ends now s t s') :
    (∃ i, t = s.env.clock i) ∧ s.Did [] s' := by
  cases run
  exact ⟨⟨_, rfl⟩, ⟨rfl, by simp, rfl, Nat.le_succ _⟩⟩

theorem ends_drawTrailing {s s' : Sys} {n : Nat} (run : Ends drawTrailing s n s') : s.Did [] s' := by
  cases run
  exact ⟨rfl, by simp, rfl, le_rfl⟩

end KvEngine
