import KvEngine.Engine.Logged

/-!
# Runs that are cut short

A process that is killed leaves the directory as the file operations have made it by
then.  `KilledBetween` cuts a run between two of them; `Torn` allows the last one, too, to
have written a part of its bytes only.

What a write does to the log is known operation by operation (`Took`): each one writes
whole records behind the others.
-/

namespace KvEngine

open Foundations Engine

/-- The process is killed on the way from `s` to `s'`, between two file operations. -/
def KilledBetween (s s' killed : Sys) : Prop :=
  ∃ ops before, s.Did ops s' ∧ before <+: ops ∧ s.Did before killed

/-- The state that a process leaves when it is killed after these changes. -/
def Sys.killedAfter (s : Sys) (ops : List FsOp) : Sys :=
  { s with dir := applyOps ops s.dir, journal := s.journal ++ ops }

theorem Sys.did_killedAfter (s : Sys) (ops : List FsOp) : s.Did ops (s.killedAfter ops) :=
  ⟨rfl, rfl, rfl, le_rfl⟩

/-- The changes on the way from `s` to `s'`. -/
def Sys.changes (s s' : Sys) : List FsOp := s'.journal.drop s.journal.length

theorem Sys.Did.changes {s s' : Sys} {ops : List FsOp} (did : s.Did ops s') : s.changes s' = ops := by
  rw [Sys.changes, did.journal, List.drop_left]

theorem killedBetween_take {s s' : Sys} (goesOn : s.Extends s') (n : Nat) :
    KilledBetween s s' (s.killedAfter ((s.changes s').take n)) := by
  obtain ⟨ops, did⟩ := goesOn
  refine ⟨ops, _, did, ?_, s.did_killedAfter _⟩
  rw [did.changes]
  exact List.take_prefix n ops

/-- The first changes of a list; of the last one only a part may have been written. -/
inductive Torn : List FsOp → List FsOp → Prop
  | stop {ops : List FsOp} : Torn [] ops
  | cut {f : FileName} {data part : Bytes} {ops : List FsOp} (begins : part <+: data) :
      Torn [.append f part] (.append f data :: ops)
  | next {op : FsOp} {before ops : List FsOp} (rest : Torn before ops) : Torn (op :: before) (op :: ops)

/-- The process is killed on the way from `s` to `s'`, perhaps in the middle of a write. -/
def KilledWithin (s s' killed : Sys) : Prop :=
  ∃ ops before, s.Did ops s' ∧ Torn before ops ∧ s.Did before killed

namespace Torn

variable {before ops ops' : List FsOp}

theorem of_begins (begins : before <+: ops) : Torn before ops := by
  obtain ⟨rest, rfl⟩ := begins
  induction before with
  | nil => exact .stop
  | cons op before inductionHypothesis => exact .next inductionHypothesis

/-- The cut is in the first part, or the first part is complete. -/
theorem append_cases (torn : Torn before (ops ++ ops')) :
    Torn before ops ∨ ∃ after, before = ops ++ after ∧ Torn after ops' := by
  induction ops generalizing before with
  | nil => exact Or.inr ⟨before, rfl, torn⟩
  | cons op ops inductionHypothesis =>
      cases torn with
      | stop => exact Or.inl .stop
      | cut begins => exact Or.inl (.cut begins)
      | next rest =>
          rcases inductionHypothesis rest with first | ⟨after, rfl, second⟩
          · exact Or.inl (.next first)
          · exact Or.inr ⟨after, rfl, second⟩

/-- No other file is touched. -/
theorem file (torn : Torn before ops) {P : FileName → Prop} (only : ∀ op ∈ ops, P op.file) :
    ∀ op ∈ before, P op.file := by
  induction torn with
  | stop => simp
  | @cut f data part ops =>
      intro op member
      rw [List.mem_singleton.mp member]
      exact only (.append f data) List.mem_cons_self
  | next _ inductionHypothesis =>
      intro op member
      rcases List.mem_cons.mp member with rfl | later
      · exact only _ List.mem_cons_self
      · exact inductionHypothesis (fun op member => only op (List.mem_cons_of_mem _ member)) op later

/-- Changes that leave an empty file empty. -/
theorem silent (torn : Torn before ops) {f : FileName}
    (nothing : ∀ op ∈ ops, op = .truncate f ∨ op = .append f []) :
    ∀ op ∈ before, op = .truncate f ∨ op = .append f [] := by
  induction torn with
  | stop => simp
  | @cut g data part ops begins =>
      intro op member
      rw [List.mem_singleton.mp member]
      rcases nothing (.append g data) List.mem_cons_self with impossible | same
      · cases impossible
      · cases same
        rw [List.prefix_nil.mp begins]
        exact Or.inr rfl
  | next _ inductionHypothesis =>
      intro op member
      rcases List.mem_cons.mp member with rfl | later
      · exact nothing _ List.mem_cons_self
      · exact inductionHypothesis (fun op member => nothing op (List.mem_cons_of_mem _ member)) op
          later

end Torn

theorem lookup_silent {ops : List FsOp} {f : FileName} {d : Dir}
    (nothing : ∀ op ∈ ops, op = .truncate f ∨ op = .append f []) (empty : d.lookup f = some []) :
    (applyOps ops d).lookup f = some [] := by
  induction ops generalizing d with
  | nil => exact empty
  | cons op ops inductionHypothesis =>
      refine inductionHypothesis (fun op member => nothing op (List.mem_cons_of_mem _ member)) ?_
      rcases nothing op List.mem_cons_self with rfl | rfl
      · exact FsOp.lookup_truncate f d
      · exact FsOp.lookup_append empty []

/-- The changes of a run are determined. -/
theorem Sys.Did.unique {s s' : Sys} {ops ops' : List FsOp} (did : s.Did ops s')
    (did' : s.Did ops' s') : ops = ops' :=
  List.append_cancel_left (did.journal.symm.trans did'.journal)

/-! ## Writing to the log, operation by operation -/

/-- Writing these groups of records to a file, each one in one operation. -/
def logWrites (crc : Bytes → UInt32) (f : FileName) (groups : List (List Record)) : List FsOp :=
  groups.map (fun ts => .append f (encodeLog crc ts))

theorem logWrites_append (crc : Bytes → UInt32) (f : FileName) (groups groups' : List (List Record)) :
    logWrites crc f (groups ++ groups') = logWrites crc f groups ++ logWrites crc f groups' :=
  List.map_append

theorem applyOps_logWrites {crc : Bytes → UInt32} {f : FileName} {d : Dir} {old : Bytes}
    (present : d.lookup f = some old) (groups : List (List Record)) :
    (applyOps (logWrites crc f groups) d).lookup f = some (old ++ encodeLog crc groups.flatten) := by
  induction groups generalizing d old with
  | nil => simpa [logWrites, encodeLog] using present
  | cons ts groups inductionHypothesis =>
      have written := FsOp.lookup_append present (encodeLog crc ts)
      show (applyOps (logWrites crc f groups) _).lookup f = _
      rw [inductionHypothesis written, List.flatten_cons, encodeLog_append, List.append_assoc]

/-- **A log that was being written** holds whole records and then a part of the next ones;
between two operations there is no such part. -/
theorem Torn.logWrites {crc : Bytes → UInt32} {f : FileName} {d : Dir} {old : Bytes}
    {before : List FsOp} {groups : List (List Record)}
    (torn : Torn before (logWrites crc f groups)) (present : d.lookup f = some old) :
    ∃ data, (applyOps before d).lookup f = some (old ++ data) ∧
      data <+: encodeLog crc groups.flatten ∧
      (before <+: KvEngine.logWrites crc f groups →
        ∃ us, us <+: groups.flatten ∧ data = encodeLog crc us) := by
  induction groups generalizing before d old with
  | nil =>
      cases torn
      exact ⟨[], by simpa using present, List.nil_prefix, fun _ => ⟨[], List.nil_prefix, rfl⟩⟩
  | cons ts groups inductionHypothesis =>
      cases torn with
      | stop => exact ⟨[], by simpa using present, List.nil_prefix, fun _ => ⟨[], List.nil_prefix, rfl⟩⟩
      | @cut _ _ part _ begins =>
          refine ⟨part, FsOp.lookup_append present part, ?_, fun whole => ?_⟩
          · rw [List.flatten_cons, encodeLog_append]
            exact begins.trans (List.prefix_append _ _)
          · obtain ⟨rest, same⟩ := whole
            obtain ⟨head, -⟩ := List.cons_eq_cons.mp same
            exact ⟨ts, List.prefix_append _ _, (FsOp.append.inj head).2⟩
      | @next _ before _ rest =>
          obtain ⟨data, written, begins, whole⟩ :=
            inductionHypothesis rest (FsOp.lookup_append present (encodeLog crc ts))
          refine ⟨encodeLog crc ts ++ data, by rw [← List.append_assoc]; exact written, ?_,
            fun all => ?_⟩
          · rw [List.flatten_cons, encodeLog_append]
            exact (List.prefix_append_right_inj _).mpr begins
          · obtain ⟨us, first, rfl⟩ := whole ((List.cons_prefix_cons.mp all).2)
            refine ⟨ts ++ us, ?_, (encodeLog_append _ _).symm⟩
            rw [List.flatten_cons]
            exact (List.prefix_append_right_inj _).mpr first

/-- Writing records to the log with `bs` in its buffer left `bs'` there; every operation on
the way wrote whole records. -/
structure Took (w : World) (bs new bs' : List Record) (w' : World) : Prop where
  path : w'.eng.wal.file.path = w.eng.wal.file.path
  buf : w'.eng.wal.file.buf = encodeLog w.sys.env.crc bs'
  did : ∃ groups, groups.flatten ++ bs' = bs ++ new ∧
    w.sys.Did (logWrites w.sys.env.crc w.eng.wal.file.path groups) w'.sys

namespace BufWriter

variable {crc : Bytes → UInt32} {p p' : BufWriter × Sys} {bs : List Record} {u : Unit}

theorem flushBuf_groups (run : Ends flushBuf p u p') (buffered : p.1.buf = encodeLog crc bs) :
    p'.1 = ⟨p.1.path, []⟩ ∧
      ∃ groups, groups.flatten = bs ∧ p.2.Did (logWrites crc p.1.path groups) p'.2 := by
  obtain ⟨same, ⟨empty, did⟩ | ⟨-, did⟩⟩ := ends_flushBuf run
  · refine ⟨same, [], ?_, did⟩
    rw [empty] at buffered
    exact (eq_nil_of_encodeLog buffered.symm).symm
  · exact ⟨same, [bs], List.append_nil bs, by rw [logWrites, List.map_singleton, ← buffered]; exact did⟩

/-- Where a record goes that is written. -/
theorem writeAll_groups {r : Record} (run : Ends (writeAll (r.encode crc)) p u p')
    (buffered : p.1.buf = encodeLog crc bs) :
    ∃ groups bs', p'.1 = ⟨p.1.path, encodeLog crc bs'⟩ ∧ groups.flatten ++ bs' = bs ++ [r] ∧
      p.2.Did (logWrites crc p.1.path groups) p'.2 := by
  obtain ⟨u₁, p₁, room, rest⟩ := ends_bind.mp run
  have empty := (wrote_makeRoom room).2
  -- what is in the buffer, and what was written to make room for the record
  obtain ⟨bs₁, first, path, buffered₁, total, did⟩ : ∃ bs₁ first, p₁.1.path = p.1.path ∧
      p₁.1.buf = encodeLog crc bs₁ ∧ first.flatten ++ bs₁ = bs ∧
      p.2.Did (logWrites crc p.1.path first) p₁.2 := by
    simp only [makeRoom, ends_bind, ends_get] at room
    obtain ⟨a, p₂, ⟨rfl, rfl⟩, room⟩ := room
    split at room
    · obtain ⟨same, groups, total, did⟩ := flushBuf_groups room buffered
      exact ⟨[], groups, by rw [same], by rw [same]; rfl, by rw [List.append_nil, total], did⟩
    · obtain ⟨-, rfl⟩ := ends_pure.mp room
      exact ⟨bs, [], rfl, buffered, rfl, .refl _⟩
  simp only [bufferOrWrite, ends_bind, ends_get] at rest
  obtain ⟨a, p₂, ⟨rfl, rfl⟩, rest⟩ := rest
  split at rest
  · next large =>
      obtain ⟨s, wrote, rfl⟩ := ends_zoom.mp rest
      have none := empty large
      rw [none] at buffered₁
      obtain rfl := eq_nil_of_encodeLog buffered₁.symm
      refine ⟨first ++ [[r]], [], ?_, ?_, ?_⟩
      · rw [← path]
        exact congrArg (BufWriter.mk p₂.1.path) none
      · rw [List.append_nil] at total
        rw [List.append_nil, List.flatten_append, total]
        rfl
      · rw [logWrites_append]
        refine did.trans ?_
        show p₂.2.Did [.append _ (encodeLog crc [r])] s
        rw [encodeLog_singleton, ← path]
        exact ends_writeFile wrote
  · obtain rfl := ends_modify.mp rest
    refine ⟨first, bs₁ ++ [r], ?_, by rw [← List.append_assoc, total], did⟩
    show BufWriter.mk p₂.1.path (p₂.1.buf ++ _) = _
    rw [path, buffered₁, encodeLog_append, encodeLog_singleton]

end BufWriter

namespace Took

variable {w w₁ w' : World} {bs bs₁ bs' new new' : List Record} {u : Unit}

theorem trans (h₁ : Took w bs new bs₁ w₁) (h₂ : Took w₁ bs₁ new' bs' w') :
    Took w bs (new ++ new') bs' w' := by
  obtain ⟨path₁, buf₁, groups₁, total₁, did₁⟩ := h₁
  obtain ⟨path₂, buf₂, groups₂, total₂, did₂⟩ := h₂
  rw [did₁.env] at buf₂ did₂
  rw [path₁] at did₂
  refine ⟨path₂.trans path₁, buf₂, groups₁ ++ groups₂, ?_, ?_⟩
  · rw [List.flatten_append, List.append_assoc, total₂, ← List.append_assoc, total₁,
      List.append_assoc]
  · rw [logWrites_append]
    exact did₁.trans did₂

/-- A step that leaves the log alone. -/
theorem of_did (buffered : w.eng.wal.file.buf = encodeLog w.sys.env.crc bs)
    (did : w.sys.Did [] w'.sys) (wal : w'.eng.wal = w.eng.wal) : Took w bs [] bs w' :=
  ⟨by rw [wal], by rw [wal, buffered], [], (List.append_nil bs).symm, did⟩

theorem appendRecord {record : Record} (buffered : w.eng.wal.file.buf = encodeLog w.sys.env.crc bs)
    (run : Ends (onWal (WALWriter.appendRecord record)) w u w') :
    ∃ bs', Took w bs [record] bs' w' := by
  simp only [ends_onWal, WALWriter.appendRecord, WALWriter.onFile, ends_bind, ends_get,
    ends_zoom] at run
  obtain ⟨p, ⟨a, p₁, ⟨rfl, rfl⟩, q, written, rfl⟩, rfl⟩ := run
  obtain ⟨groups, bs', same, total, did⟩ := BufWriter.writeAll_groups written buffered
  obtain ⟨path, buf⟩ := BufWriter.mk.inj same
  exact ⟨bs', path, buf, groups, total, did⟩

theorem flush (buffered : w.eng.wal.file.buf = encodeLog w.sys.env.crc bs)
    (run : Ends (onWal WALWriter.flush) w u w') : Took w bs [] [] w' := by
  simp only [ends_onWal, WALWriter.flush, WALWriter.onFile, ends_bind, ends_zoom] at run
  obtain ⟨p, ⟨u₁, p₁, ⟨q, flushed, rfl⟩, s, synced, rfl⟩, rfl⟩ := run
  obtain ⟨same, groups, total, did⟩ := BufWriter.flushBuf_groups flushed buffered
  obtain ⟨path, buf⟩ := BufWriter.mk.inj same
  refine ⟨path, buf, groups, ?_, ?_⟩
  · rw [List.append_nil, List.append_nil, total]
  · exact List.append_nil (logWrites _ _ groups) ▸ did.trans (ends_syncFile synced)

theorem sync (buffered : w.eng.wal.file.buf = encodeLog w.sys.env.crc bs)
    (run : Ends syncWal w u w') : ∃ bs', Took w bs [] bs' w' := by
  simp only [syncWal, ends_bind, ends_self] at run
  obtain ⟨e, w₁, ⟨rfl, rfl⟩, rest⟩ := run
  split at rest
  · exact ⟨[], .flush buffered rest⟩
  · obtain ⟨-, rfl⟩ := ends_pure.mp rest
    exact ⟨bs, .of_did buffered (.refl _) rfl⟩

/-- What the next step finds in the buffer. -/
theorem buffered (took : Took w bs new bs' w') :
    w'.eng.wal.file.buf = encodeLog w'.sys.env.crc bs' := by
  obtain ⟨-, buf, groups, -, did⟩ := took
  rw [did.env]
  exact buf

theorem then_of_did (took : Took w bs new bs₁ w₁) (did : w₁.sys.Did [] w'.sys)
    (wal : w'.eng.wal = w₁.eng.wal) : Took w bs new bs₁ w' :=
  List.append_nil new ▸ took.trans (.of_did took.buffered did wal)

theorem logAndApply {record : Record} {count : Metrics → Metrics}
    (buffered : w.eng.wal.file.buf = encodeLog w.sys.env.crc bs)
    (run : Ends (logAndApply record count) w u w') : ∃ bs', Took w bs [record] bs' w' := by
  simp only [Engine.logAndApply, ends_bind, ends_modifySelf] at run
  obtain ⟨u₁, w₁, appended, u₂, w₂, synced, u₃, w₃, stored, rfl⟩ := run
  obtain ⟨bs₁, first⟩ := appendRecord buffered appended
  obtain ⟨bs₂, second⟩ := sync first.buffered synced
  obtain ⟨-, eng, did⟩ := ends_memtablePut stored
  exact ⟨bs₂, List.append_nil [record] ▸ (first.trans second).then_of_did did (by rw [eng])⟩

theorem logBatch {ops : List BatchOp} (buffered : w.eng.wal.file.buf = encodeLog w.sys.env.crc bs)
    (run : Ends (logBatch ops) w u w') : ∃ bs', Took w bs (ops.map batchRecord) bs' w' := by
  induction ops generalizing w bs with
  | nil =>
      obtain ⟨-, rfl⟩ := ends_pure.mp run
      exact ⟨bs, .of_did buffered (.refl _) rfl⟩
  | cons op ops inductionHypothesis =>
      obtain ⟨u₁, w₁, appended, later⟩ := ends_bind.mp run
      obtain ⟨bs₁, first⟩ := appendRecord buffered appended
      obtain ⟨bs₂, rest⟩ := inductionHypothesis first.buffered later
      exact ⟨bs₂, first.trans rest⟩

/-- **Storing writes the records of the call** to the log, operation by operation. -/
theorem store {call : Call} (buffered : w.eng.wal.file.buf = encodeLog w.sys.env.crc bs)
    (run : Ends call.store w u w') :
    ∃ bs', Took w bs ((call.stores w.eng.nextSeq w.sys.time).map Store.record) bs' w' := by
  cases call with
  | put key value =>
      obtain ⟨seq, w₁, took, applied⟩ := ends_bind.mp run
      obtain ⟨rfl, -, rfl⟩ := ends_takeSeq took
      obtain ⟨bs', logged⟩ := logAndApply
        (w := ⟨{ w.eng with nextSeq := w.eng.nextSeq + 1 }, w.sys⟩) buffered applied
      exact ⟨bs', logged.path, logged.buf, logged.did⟩
  | delete key =>
      obtain ⟨seq, w₁, took, applied⟩ := ends_bind.mp run
      obtain ⟨rfl, -, rfl⟩ := ends_takeSeq took
      obtain ⟨bs', logged⟩ := logAndApply
        (w := ⟨{ w.eng with nextSeq := w.eng.nextSeq + 1 }, w.sys⟩) buffered applied
      exact ⟨bs', logged.path, logged.buf, logged.did⟩
  | putWithTtl key value ttl =>
      simp only [Call.store, storeWithTtl, ends_bind, ends_onSys, ends_liftResult,
        checkedAdd_eq_ok] at run
      obtain ⟨t, w₁, ⟨s, read, rfl⟩, expiry, w₂, ⟨⟨-, rfl⟩, rfl⟩, seq, w₃, took, applied⟩ := run
      obtain ⟨rfl, -, rfl⟩ := ends_takeSeq took
      obtain ⟨rfl, rfl⟩ := Ends.unique read (now_run w.sys)
      obtain ⟨bs', logged⟩ := logAndApply
        (w := ⟨{ w.eng with nextSeq := w.eng.nextSeq + 1 }, w.sys.later 1⟩) buffered applied
      have moved : Took w bs [] bs ⟨{ w.eng with nextSeq := w.eng.nextSeq + 1 }, w.sys.later 1⟩ :=
        .of_did buffered (w.sys.did_later 1) rfl
      exact ⟨bs', moved.trans logged⟩
  | writeBatch batch =>
      simp only [Call.store] at run
      split at run
      · next empty =>
          obtain ⟨-, rfl⟩ := ends_pure.mp run
          have none : batch.ops = [] := List.isEmpty_iff.mp empty
          refine ⟨bs, ?_⟩
          rw [Call.stores, none]
          exact .of_did buffered (.refl _) rfl
      · simp only [storeBatch, ends_bind] at run
        obtain ⟨u₁, w₁, logged, u₂, w₂, flushed, applied⟩ := run
        obtain ⟨bs₁, first⟩ := logBatch buffered logged
        have second := flush first.buffered flushed
        obtain ⟨-, did, memtable, eng⟩ := ends_applyBatch applied
        refine ⟨[], ?_⟩
        rw [Call.stores, List.map_map]
        exact List.append_nil (batch.ops.map batchRecord) ▸
          (first.trans second).then_of_did did (by rw [eng])

end Took

/-! ## A flush that is cut short -/

/-- The manifest has been truncated, and `m` is not yet written. -/
def ManifestTorn (m : Manifest) (d : Dir) : Prop :=
  ∃ part, d.lookup .manifest = some part ∧ part <+: m.encode ∧ part ≠ m.encode

/-- **Saving a manifest**: it is as before, or torn, or complete. -/
theorem Torn.manifestOps {before : List FsOp} {m : Manifest} (torn : Torn before (manifestOps m))
    (d : Dir) :
    before = [] ∨ ManifestTorn m (applyOps before d) ∨
      ((applyOps before d).lookup .manifest = some m.encode ∧
        ∀ f, f ≠ .manifest → (applyOps before d).lookup f = d.lookup f) := by
  have others : ∀ data f, f ≠ .manifest →
      (applyOps [.truncate .manifest, .append .manifest data] d).lookup f = d.lookup f := by
    intro data f other
    exact lookup_applyOps_of_ne d (by simpa [FsOp.file] using Ne.symm other)
  have written : ∀ data, (applyOps [.truncate .manifest, .append .manifest data] d).lookup
      .manifest = some data := fun data => FsOp.lookup_append (FsOp.lookup_truncate _ d) data
  have some : m.encode ≠ [] := fun none => by
    have short := congrArg List.length none
    simp [Manifest.encode, Manifest.magic] at short
  cases torn with
  | stop => exact Or.inl rfl
  | next rest =>
      cases rest with
      | stop =>
          exact Or.inr (Or.inl ⟨[], FsOp.lookup_truncate _ d, List.nil_prefix, Ne.symm some⟩)
      | @cut _ _ part _ begins =>
          by_cases whole : part = m.encode
          · rw [whole]
            exact Or.inr (Or.inr ⟨written _, others _⟩)
          · exact Or.inr (Or.inl ⟨part, written _, begins, whole⟩)
      | next rest =>
          cases rest
          exact Or.inr (Or.inr ⟨written _, others _⟩)

namespace Engine

variable {w w' : World} {p : Table}

/-- With nothing in the buffer, writing out the log does nothing. -/
theorem walFlush_silent {u : Unit} (empty : w.eng.wal.file.buf = [])
    (run : Ends (onWal WALWriter.flush) w u w') : w.sys.Did [] w'.sys := by
  simp only [ends_onWal, WALWriter.flush, WALWriter.onFile, ends_bind, ends_zoom] at run
  obtain ⟨q, ⟨u₁, q₁, ⟨r, flushed, rfl⟩, s, synced, rfl⟩, rfl⟩ := run
  obtain ⟨-, ⟨-, did⟩ | ⟨some, -⟩⟩ := BufWriter.ends_flushBuf flushed
  · exact did.trans (ends_syncFile synced)
  · exact absurd empty some

theorem Flush.lookup_manifest (flush : Flush w p w') (log : w.eng.wal.file.path = .wal 1) :
    w'.sys.dir.lookup .manifest = some w'.eng.manifest.encode := by
  obtain ⟨metrics, eng⟩ := flush.eng
  obtain ⟨s₁, s₂, rest, -, saved, reset, leftover⟩ := flush.sys
  rw [reset.lookup_of_ne fun op member => ?_, lookup_manifestOps saved, eng]
  rw [Kept.file_of_reset leftover log op member]
  simp

/-- Where a flush was when it was cut short. -/
inductive FlushCut (w w' : World) (p : Table) (d : Dir) : Prop
  /-- It was writing the table. -/
  | building (same : ∀ f, f ≠ .sst p.1.id → d.lookup f = w.sys.dir.lookup f) : FlushCut w w' p d
  /-- It was writing the manifest. -/
  | saving (torn : ManifestTorn w'.eng.manifest d) : FlushCut w w' p d
  /-- The manifest was written, and the log may have been truncated. -/
  | resetting (manifest : d.lookup .manifest = some w'.eng.manifest.encode)
      (tables : ∀ id, d.lookup (.sst id) = w'.sys.dir.lookup (.sst id))
      (others : ∀ n, n ≠ 1 → d.lookup (.wal n) = w.sys.dir.lookup (.wal n))
      (log : d.lookup (.wal 1) = w.sys.dir.lookup (.wal 1) ∨ d.lookup (.wal 1) = some []) :
      FlushCut w w' p d

/-- **A flush cut short** with nothing in the buffer of the log. -/
theorem Flush.cut (flush : Flush w p w') (log : w.eng.wal.file.path = .wal 1)
    (empty : w.eng.wal.file.buf = []) :
    ∃ ops, w.sys.Did ops w'.sys ∧
      ∀ before, Torn before ops → FlushCut w w' p (applyOps before w.sys.dir) := by
  obtain ⟨metrics, eng⟩ := flush.eng
  obtain ⟨s₁, s₂, rest, built, saved, reset, leftover⟩ := flush.sys
  obtain ⟨writes, did, ofTable⟩ := built.writes
  have ofLog := Kept.file_of_reset leftover log
  have isManifest : w'.eng.manifest = w.eng.manifest.addSst 0 p.1 := by rw [eng]
  -- what the writer that is dropped still writes is nothing
  have nothing : ∀ op ∈ FsOp.truncate (.wal 1) :: rest, op = .truncate (.wal 1) ∨
      op = .append (.wal 1) [] := by
    intro op member
    rcases List.mem_cons.mp member with rfl | later
    · exact Or.inl rfl
    · rcases leftover with ⟨-, rfl⟩ | ⟨data, rfl, begins, -⟩
      · cases later
      · rw [empty] at begins
        rw [List.mem_singleton.mp later, List.prefix_nil.mp begins, log]
        exact Or.inr rfl
  refine ⟨_, (did.trans saved).trans reset, fun before torn => ?_⟩
  rcases torn.append_cases with early | ⟨after, rfl, inLog⟩
  · rcases early.append_cases with inTable | ⟨after, rfl, inManifest⟩
    · exact .building fun f other => lookup_applyOps_of_ne _ fun op member same =>
        other (same ▸ inTable.file (P := (· = .sst p.1.id)) ofTable op member)
    · rw [applyOps_append, ← did.dir]
      rcases inManifest.manifestOps s₁.dir with rfl | cut | ⟨manifest, others⟩
      · exact .building fun f other => built.lookup_of_ne other
      · exact .saving (isManifest ▸ cut)
      · refine .resetting (isManifest ▸ manifest) (fun id => ?_) (fun n different => ?_) (Or.inl ?_)
        · rw [others _ (by simp), reset.lookup_of_ne fun op member => ?_,
            lookup_sst_manifestOps saved]
          simp [ofLog op member]
        · rw [others _ (by simp), built.lookup_of_ne (by simp)]
        · rw [others _ (by simp), built.lookup_of_ne (by simp)]
  · rw [applyOps_append, ← (did.trans saved).dir]
    have only : ∀ op ∈ after, op.file = .wal 1 := inLog.file (P := (· = .wal 1)) ofLog
    have kept : ∀ f, f ≠ .wal 1 → (applyOps after s₂.dir).lookup f = s₂.dir.lookup f :=
      fun f other => lookup_applyOps_of_ne _ fun op member same => other (same ▸ only op member)
    have ofTables : ∀ f, f ≠ .manifest → f ≠ .sst p.1.id →
        s₂.dir.lookup f = w.sys.dir.lookup f := by
      intro f notManifest notTable
      rw [saved.lookup_of_ne (by simpa [manifestOps, FsOp.file] using Ne.symm notManifest),
        built.lookup_of_ne notTable]
    refine .resetting ?_ (fun id => ?_) (fun n different => ?_) ?_
    · rw [kept _ (by simp), lookup_manifestOps saved, isManifest]
    · rw [kept _ (by simp), reset.lookup_of_ne fun op member => by simp [ofLog op member]]
    · rw [kept _ (by simpa using different), ofTables _ (by simp) (by simp)]
    · have silent := inLog.silent nothing
      cases inLog with
      | stop => exact Or.inl (ofTables _ (by simp) (by simp))
      | next =>
          rw [applyOps_cons]
          exact Or.inr (lookup_silent (fun op member => silent op (List.mem_cons_of_mem _ member))
            (FsOp.lookup_truncate _ _))

end Engine

end KvEngine
