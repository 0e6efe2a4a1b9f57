import KvEngine.Engine.Session

/-!
# Reading a log after a crash

A log that was cut short yields its complete records.  Two things the recovery does
not do: it does not cut the torn record off before it appends to the log, and it does
not stop quietly at a damaged record.
-/

namespace KvEngine

open Foundations Engine WALReader

variable {crc : Bytes → UInt32} {rs : List Record}

/-! ## A log cut short -/

/-- The `j`-th record of a log lies completely within its first `n` bytes. -/
def LiesWithin (crc : Bytes → UInt32) (rs : List Record) (n j : Nat) : Prop :=
  (encodeLog crc (rs.take (j + 1))).length ≤ n

instance (crc : Bytes → UInt32) (rs : List Record) (n j : Nat) :
    Decidable (LiesWithin crc rs n j) :=
  inferInstanceAs (Decidable (_ ≤ _))

theorem completeWithin_eq_take (crc : Bytes → UInt32) (rs : List Record) (n : Nat) :
    ∃ i ≤ rs.length, (∀ j < rs.length, j < i ↔ LiesWithin crc rs n j) ∧
      completeWithin crc n rs = rs.take i := by
  induction rs generalizing n with
  | nil => exact ⟨0, le_rfl, by simp, rfl⟩
  | cons r rs inductionHypothesis =>
      have split : ∀ j, (encodeLog crc ((r :: rs).take (j + 1))).length =
          (r.encode crc).length + (encodeLog crc (rs.take j)).length := fun j => by
        rw [List.take_succ_cons, encodeLog, List.flatMap_cons, List.length_append]
        rfl
      by_cases inside : (r.encode crc).length ≤ n
      · obtain ⟨i, le, exactly, same⟩ := inductionHypothesis (n - (r.encode crc).length)
        refine ⟨i + 1, by simpa using le, fun j hj => ?_, ?_⟩
        · unfold LiesWithin
          rw [split]
          cases j with
          | zero => simpa [encodeLog] using inside
          | succ j =>
              have tail := exactly j (by simpa using hj)
              unfold LiesWithin at tail
              omega
        · rw [completeWithin, if_pos inside, same]
          rfl
      · refine ⟨0, Nat.zero_le _, fun j hj => ?_, ?_⟩
        · unfold LiesWithin
          rw [split]
          omega
        · rw [completeWithin, if_neg inside]
          rfl

/-- **A cut log yields its complete records**, wherever it was cut, and nothing else. -/
theorem reader_yields_complete_records (fits : ∀ r ∈ rs, r.Fits) (n : Nat) :
    ∃ i ≤ rs.length, (∀ j < rs.length, j < i ↔ LiesWithin crc rs n j) ∧
      items crc ((encodeLog crc rs).take n) = (rs.take i).map .ok := by
  obtain ⟨i, le, exactly, same⟩ := completeWithin_eq_take crc rs n
  exact ⟨i, le, exactly, by rw [items_take crc fits, same]⟩

/-- A log of two records. -/
def twoRecords : List Record := [⟨.put, [1], [7]⟩, ⟨.delete, [2], []⟩]

/-- Cut in the checksum of the second record, it yields the first one. -/
theorem reader_yields_first_of_two :
    items crc32 ((encodeLog crc32 twoRecords).take 25) = [.ok ⟨.put, [1], [7]⟩] := by
  obtain ⟨i, le, exactly, yields⟩ := @reader_yields_complete_records crc32 twoRecords
    (by unfold Record.Fits; decide) 25
  have first := (exactly 0 (by decide)).mpr (by decide +kernel)
  have second := (exactly 1 (by decide)).not.mpr (by decide +kernel)
  obtain rfl : i = 1 := by omega
  exact yields

/-! ## A damaged record -/

/-- The bytes behind the length prefix of record `i` were replaced by `body`. -/
def damagedLog (crc : Bytes → UInt32) (rs : List Record) (i : Nat) (body following : Bytes) :
    Bytes :=
  encodeLog crc (rs.take i) ++ (leBytes 4 body.length ++ body ++ following)

/-- The recovery from a log applies exactly the given records. -/
def RecoversExactly (path : FileName) (s : Sys) (records : List Record) : Prop :=
  (∀ memtableSize, ∃ m s', Ends (replayWal path memtableSize) s m s' ∧
    m.active.contents = SortedMap.empty.insertAll (records.map Record.binding)) ∧
  (path = walPathOf s.dir → ∀ opts, ∃ e s', Ends (openWithOptions opts) s e s' ∧
    e.memtable.active.contents = SortedMap.empty.insertAll (records.map Record.binding))

/-- The log is readable up to the damaged record, and that is all. -/
def StopsAtDamage (crc : Bytes → UInt32) (rs : List Record) (i : Nat) (log : Bytes)
    (path : FileName) (s : Sys) : Prop :=
  items crc log = (rs.take i).map .ok ∧ RecoversExactly path s (rs.take i)

/-- A damaged record does not block the recovery of what precedes it. -/
def DamageContained : Prop :=
  ∀ (crc : Bytes → UInt32) (rs : List Record) (i : Nat) (r : Record) (body following : Bytes)
    (path : FileName) (s : Sys), (∀ r ∈ rs, r.Fits) → rs[i]? = some r →
    body.length = (r.body crc).length → (∃ e, Record.decode crc body = .error e) →
    s.env.crc = crc → s.env.Faultless →
    s.dir.lookup path = some (damagedLog crc rs i body following) →
    StopsAtDamage crc rs i (damagedLog crc rs i body following) path s

theorem items_damagedLog {i : Nat} {body : Bytes} (fits : ∀ r ∈ rs, r.Fits)
    (small : body.length < 2 ^ 32) (following : Bytes) :
    items crc (damagedLog crc rs i body following) =
      (rs.take i).map .ok ++ Record.decode crc body :: items crc following := by
  rw [damagedLog, items_encodeLog_append crc (fun r hr => fits r (List.mem_of_mem_take hr)),
    items_frame small]

/-- **The code never contains the damage**: the reader yields the error as a further
item, and the replay and with it `open` fail on it. -/
theorem not_stopsAtDamage {i : Nat} {r : Record} {body following : Bytes} {path : FileName}
    {s : Sys} (fits : ∀ r ∈ rs, r.Fits) (present : rs[i]? = some r)
    (length : body.length = (r.body crc).length) (damaged : ∃ e, Record.decode crc body = .error e)
    (env : s.env.crc = crc)
    (onDisk : s.dir.lookup path = some (damagedLog crc rs i body following)) :
    ¬ items crc (damagedLog crc rs i body following) = (rs.take i).map .ok ∧
      (∀ memtableSize m s', ¬ Ends (replayWal path memtableSize) s m s') ∧
      (path = walPathOf s.dir → ∀ opts e s', ¬ Ends (openWithOptions opts) s e s') := by
  obtain ⟨e, fails⟩ := damaged
  have fit := fits r (List.mem_of_getElem? present)
  have yields : items crc (damagedLog crc rs i body following) = _ :=
    items_damagedLog fits (by rw [length, Record.length_body]; exact fit) following
  rw [fails] at yields
  have collected : collect (items crc (damagedLog crc rs i body following)) = .error e := by
    rw [yields, collect_error]
  refine ⟨fun same => ?_, fun memtableSize m s' run => ?_, fun located opts e' s' run => ?_⟩
  · rw [yields] at same
    have longer := congrArg List.length same
    simp at longer
  · simp only [replayWal, ends_bind, ends_fileExists, onDisk, Option.isSome_some] at run
    obtain ⟨b, s₁, ⟨rfl, rfl⟩, rest⟩ := run
    simp only [if_true, ends_bind, ends_get, ends_liftResult] at rest
    obtain ⟨data, s₂, read, a, s₃, ⟨rfl, rfl⟩, records, s₄, ⟨replayed, -⟩, -⟩ := rest
    obtain ⟨found, did⟩ := ends_readFile read
    rw [onDisk] at found
    cases found
    rw [did.env, env, collected] at replayed
    cases replayed
  · obtain ⟨records, replayed, -⟩ := (ends_openWithOptions run).1.log
    rw [logOf, ← located, onDisk, env] at replayed
    simp only [collected] at replayed
    cases replayed

/-- A directory with one log in it. -/
def Sys.withLog (log : Bytes) : Sys :=
  { dir := AList.insert (.wal 1) log ∅, journal := [], env := .steady, ioCount := 0, ticks := 0,
    draws := 0 }

/-- The bytes of the second record were lost in a power failure and read as zeros. -/
def zeroedLog : Bytes := damagedLog crc32 twoRecords 1 (List.replicate 14 0) []

theorem zeroed_damaged : ∃ e, Record.decode crc32 (List.replicate 14 0) = .error e := by
  cases decoded : Record.decode crc32 (List.replicate 14 0) with
  | error e => exact ⟨e, rfl⟩
  | ok r =>
      have fails : (Record.decode crc32 (List.replicate 14 0)).toOption = none := by
        decide +kernel
      rw [decoded] at fails
      cases fails

theorem zeroed_length :
    (List.replicate 14 (0 : UInt8)).length = (Record.body crc32 ⟨.delete, [2], []⟩).length := by
  rw [Record.length_body, List.length_replicate]
  rfl

theorem twoRecords_fit : ∀ r ∈ twoRecords, r.Fits := by
  unfold Record.Fits
  decide

/-- Neither replay nor `open` gets past the zeros. -/
theorem not_stopsAtDamage_zeroed :
    ¬ items crc32 zeroedLog = (twoRecords.take 1).map .ok ∧
      (∀ memtableSize m s', ¬ Ends (replayWal (.wal 1) memtableSize) (Sys.withLog zeroedLog) m s') ∧
      ∀ opts e s', ¬ Ends (openWithOptions opts) (Sys.withLog zeroedLog) e s' := by
  obtain ⟨notYielded, notReplayed, notOpened⟩ :=
    @not_stopsAtDamage crc32 twoRecords 1 ⟨.delete, [2], []⟩ (List.replicate 14 0) [] (.wal 1)
      (Sys.withLog zeroedLog) twoRecords_fit rfl zeroed_length zeroed_damaged rfl
      (AList.lookup_insert _)
  exact ⟨notYielded, notReplayed, notOpened rfl⟩

/-- Zeros in the place of the last record make the replay fail. -/
theorem not_damageContained : ¬ DamageContained := by
  intro contained
  obtain ⟨yields, -⟩ := contained crc32 twoRecords 1 ⟨.delete, [2], []⟩ (List.replicate 14 0) []
    (.wal 1) (Sys.withLog zeroedLog) twoRecords_fit rfl zeroed_length zeroed_damaged rfl
    (fun _ => rfl)
    (AList.lookup_insert _)
  have longer := congrArg List.length yields
  rw [items_damagedLog twoRecords_fit (by decide)] at longer
  simp at longer

/-! ## Appending behind a torn record -/

/-- Append records one after the other. -/
def appendAll : List Record → WALWriter.M Unit
  | [] => pure ()
  | r :: rs => do
      WALWriter.appendRecord r
      appendAll rs

/-- Recover from the log at `path`, open it for append and write `ts` to it. -/
def resume (path : FileName) (memtableSize : Nat) (ts : List Record) : SysM Unit := do
  let _ ← replayWal path memtableSize
  let wal ← WALWriter.openWal path
  zoom (fun s => (wal, s)) (fun q _ => q.2) (do appendAll ts; WALWriter.flush)

/-- The log at `path` is read as exactly the given records. -/
def ReadAs (path : FileName) (s : Sys) (records : List Record) : Prop :=
  ∃ data, s.dir.lookup path = some data ∧
    collect (items s.env.crc data) = .ok records

theorem appendAll_run {p : WALWriter × Sys} (faultless : p.2.env.Faultless) (ts : List Record) :
    ∃ p', appendAll ts p = .ok () p' ∧
      BufWriter.Wrote (p.1.file, p.2) (encodeLog p.2.env.crc ts) (p'.1.file, p'.2) := by
  induction ts generalizing p with
  | nil => exact ⟨p, rfl, .refl _⟩
  | cons t ts inductionHypothesis =>
      obtain ⟨q, writes⟩ := BufWriter.writeAll_run (p := (p.1.file, p.2)) faultless
        (t.encode p.2.env.crc)
      have wrote := BufWriter.wrote_writeAll writes
      have appends : WALWriter.appendRecord t p = .ok () (⟨q.1⟩, q.2) := by
        rw [WALWriter.appendRecord, bind_apply_ok (rfl : get (m := WALWriter.M) p = _)]
        simp only [WALWriter.onFile, zoom, writes]
      have same : q.2.env = p.2.env := wrote.env
      obtain ⟨p', later, wroteLater⟩ := inductionHypothesis (p := (⟨q.1⟩, q.2))
        (by rw [same]; exact faultless)
      refine ⟨p', ?_, ?_⟩
      · rw [appendAll, bind_apply_ok appends, later]
      · rw [same] at wroteLater
        exact wrote.trans wroteLater

theorem flush_run {p : WALWriter × Sys} (faultless : p.2.env.Faultless) :
    ∃ p', WALWriter.flush p = .ok () p' ∧ p'.1.file.buf = [] ∧
      BufWriter.Wrote (p.1.file, p.2) [] (p'.1.file, p'.2) := by
  obtain ⟨q, flushes⟩ := BufWriter.flushBuf_run (p := (p.1.file, p.2)) faultless
  obtain ⟨wrote, empty⟩ := BufWriter.wrote_flushBuf flushes
  obtain ⟨s, syncs⟩ := syncFile_run (s := q.2) (by rw [wrote.env]; exact faultless)
  have did := ends_syncFile syncs
  obtain ⟨ops, didWrite, appends⟩ := wrote.did
  refine ⟨(⟨q.1⟩, s), ?_, empty, ⟨wrote.path, ⟨ops ++ [], didWrite.trans did, ?_⟩, ?_⟩⟩
  · have flushed : WALWriter.onFile BufWriter.flushBuf p = .ok () (⟨q.1⟩, q.2) := by
      simp only [WALWriter.onFile, zoom, flushes]
    rw [WALWriter.flush, bind_apply_ok flushed]
    simp only [zoom, syncs]
  · simpa using appends
  · intro old present
    rw [show s.dir.lookup p.1.file.path = q.2.dir.lookup p.1.file.path from
      did.lookup_of_ne (by simp)]
    exact wrote.content old present

/-- The records end up behind what was in the log. -/
theorem resume_run {s : Sys} {path : FileName} {data : Bytes} {records : List Record}
    (faultless : s.env.Faultless) (onDisk : s.dir.lookup path = some data)
    (replays : collect (items s.env.crc data) = .ok records) (memtableSize : Nat)
    (ts : List Record) :
    ∃ s', resume path memtableSize ts s = .ok () s' ∧ s'.env = s.env ∧
      s'.dir.lookup path = some (data ++ encodeLog s.env.crc ts) := by
  obtain ⟨m, s₁, replayed, did₁⟩ := replayWal_runAt faultless onDisk replays memtableSize
  have present₁ : s₁.dir.lookup path = some data := by
    rw [did₁.lookup_of_ne (by simp), onDisk]
  obtain ⟨s₂, opens⟩ := openAppend_run (s := s₁) (by rw [did₁.env]; exact faultless) path
  have did₂ : s₁.Did [] s₂ := by
    rcases ends_openAppend opens with ⟨-, did⟩ | ⟨missing, -⟩
    · exact did
    · rw [present₁] at missing
      cases missing
  have until₂ := did₁.trans did₂
  have present₂ : s₂.dir.lookup path = some data := by
    rw [did₂.lookup_of_ne (by simp), present₁]
  obtain ⟨p, appends, wrote⟩ := appendAll_run (p := (⟨⟨path, []⟩⟩, s₂))
    (by rw [until₂.env]; exact faultless) ts
  obtain ⟨q, flushes, empty, wroteLater⟩ := flush_run (p := p)
    (by rw [show p.2.env = s₂.env from wrote.env, until₂.env]; exact faultless)
  have all := wrote.trans wroteLater
  obtain ⟨new, present, content⟩ := all.content data present₂
  refine ⟨q.2, ?_, by rw [show q.2.env = s₂.env from all.env, until₂.env], ?_⟩
  · rw [resume, bind_apply_ok replayed, WALWriter.openWal]
    have opened : (do openAppend path; pure ⟨⟨path, []⟩⟩ : SysM WALWriter) s₁ =
        .ok ⟨⟨path, []⟩⟩ s₂ := by
      rw [bind_apply_ok opens]
      rfl
    rw [bind_apply_ok opened]
    simp only [zoom]
    rw [bind_apply_ok appends, flushes]
  · rw [empty, List.append_nil, List.append_nil, List.append_nil] at content
    rw [present, content, until₂.env]

/-- A record without key and value. -/
def bare (op : OpType) : Record := ⟨op, [], []⟩

theorem bare_fits (op : OpType) : (bare op).Fits := by
  unfold Record.Fits
  cases op <;> decide

/-- Behind a torn record, a bare record of another kind is not read back: the torn
length prefix frames it wrongly. -/
theorem next_torn_append_bare {r : Record} {torn missing more rest : Bytes} {op : OpType}
    (cut : r.encode crc = torn ++ missing) (begun : torn ≠ []) (other : op ≠ r.op) :
    next crc (torn ++ ((bare op).encode crc ++ more)) ≠ some (.ok (bare op), rest) := by
  intro step
  obtain ⟨opAt, keyLen⟩ := next_eq_ok step
  have positive := List.length_pos_iff.mpr begun
  have notZero : op.toU8 ≠ 0 := by cases op <;> decide
  have frame : (bare op).encode crc =
      [13, 0, 0, 0] ++ (leBytes 4 (crc (bare op).crcPayload).toNat ++ (bare op).crcPayload) := by
    have announced : leBytes 4 (4 + (bare op).crcPayload.length) = [13, 0, 0, 0] := by
      rw [Record.length_crcPayload, show (bare op).key = [] from rfl,
        show (bare op).value = [] from rfl]
      decide
    rw [Record.encode_eq, announced]
    rfl
  rcases Nat.lt_or_ge 8 torn.length with long | short
  · -- the operation of the torn record is still there
    have torn8 : torn[8]? = some r.op.toU8 := by
      rw [← Record.getElem_encode_op crc r, cut, List.getElem?_append_left long]
    rw [List.getElem?_append_left long, torn8] at opAt
    refine other ?_
    have same : r.op.toU8 = op.toU8 := Option.some.inj opAt
    revert same
    cases op <;> cases r.op <;> decide
  · rcases Nat.lt_or_ge 4 torn.length with middle | front
    · -- the length prefix of the appended record stands where the operation is read
      rw [List.getElem?_append_right (by omega), frame, List.append_assoc,
        List.getElem?_append_left (by rw [List.length_cons]; simp; omega)] at opAt
      have small : 8 - torn.length < 4 := by omega
      revert opAt
      generalize 8 - torn.length = i at small
      change [13, 0, 0, 0][i]? = some op.toU8 → False
      interval_cases i <;> cases op <;> decide
    · -- its operation is read as a part of the length of the key
      have zeros := eq_zero_of_leValue keyLen
      have opByte : (torn ++ ((bare op).encode crc ++ more))[8 + torn.length]? = some op.toU8 := by
        rw [List.getElem?_append_right (by omega), Nat.add_sub_cancel,
          List.getElem?_append_left (by rw [Record.length_encode]; omega)]
        exact Record.getElem_encode_op crc (bare op)
      refine notZero (zeros _ (List.mem_of_getElem? (i := torn.length - 1) ?_))
      rw [List.getElem?_take_of_lt (by omega), List.getElem?_drop,
        show 9 + (torn.length - 1) = 8 + torn.length by omega]
      exact opByte

/-- When a bare record of another kind is appended first, the log is not read back. -/
theorem not_readAs_bare {r : Record} {torn missing : Bytes} {path : FileName} {s' : Sys}
    {op : OpType} (fits : ∀ r ∈ rs, r.Fits) (cut : r.encode crc = torn ++ missing)
    (begun : torn ≠ []) (other : op ≠ r.op) (ts : List Record) (env : s'.env.crc = crc)
    (onDisk : s'.dir.lookup path =
      some (encodeLog crc rs ++ torn ++ encodeLog crc (bare op :: ts))) :
    ¬ ReadAs path s' (rs ++ bare op :: ts) := by
  rintro ⟨data, present, readBack⟩
  rw [onDisk] at present
  cases present
  rw [env, List.append_assoc, items_encodeLog_append crc fits] at readBack
  -- the first item behind the intact records would have to be the bare record
  have first := eq_of_collect readBack
  rw [List.map_append, List.append_cancel_left_eq, encodeLog, List.flatMap_cons, ← encodeLog,
    items_eq] at first
  split at first
  · cases first
  · next item rest step =>
      obtain ⟨rfl, -⟩ := List.cons.inj first
      exact next_torn_append_bare cut begun other step

/-- **A torn tail makes recovery unrepeatable** as soon as anything is appended to it:
every list of `n` further records is recovered exactly when `n` is zero. -/
theorem torn_tail_repeatable_iff {r : Record} {torn missing : Bytes} {path : FileName} {s : Sys}
    (fits : ∀ r ∈ rs, r.Fits) (fit : r.Fits) (cut : r.encode crc = torn ++ missing)
    (begun : torn ≠ []) (proper : missing ≠ []) (env : s.env.crc = crc)
    (faultless : s.env.Faultless) (onDisk : s.dir.lookup path = some (encodeLog crc rs ++ torn))
    (memtableSize n : Nat) :
    (∀ ts : List Record, ts.length = n → (∀ t ∈ ts, t.Fits) →
      ∃ s', Ends (resume path memtableSize ts) s () s' ∧ ReadAs path s' (rs ++ ts)) ↔ n = 0 := by
  have replays : collect (items s.env.crc (encodeLog crc rs ++ torn)) = .ok rs := by
    rw [env, collect_torn fits fit cut proper]
  constructor
  · intro repeats
    by_contra nonzero
    obtain ⟨m, rfl⟩ := Nat.exists_eq_succ_of_ne_zero nonzero
    obtain ⟨op, other⟩ : ∃ op, op ≠ r.op := by
      cases r.op
      · exact ⟨.delete, by decide⟩
      · exact ⟨.put, by decide⟩
    obtain ⟨s', resumed, readBack⟩ := repeats (List.replicate (m + 1) (bare op))
      List.length_replicate (fun t ht => by
        rw [List.eq_of_mem_replicate ht]
        exact bare_fits op)
    obtain ⟨s₁, run, env₁, onDisk₁⟩ := resume_run faultless onDisk replays memtableSize
      (List.replicate (m + 1) (bare op))
    cases run.symm.trans resumed
    rw [env] at onDisk₁
    exact not_readAs_bare fits cut begun other (List.replicate m (bare op))
      (by rw [env₁, env]) onDisk₁ readBack
  · rintro rfl ts none -
    obtain rfl := List.length_eq_zero_iff.mp none
    obtain ⟨s', run, env', onDisk'⟩ := resume_run faultless onDisk replays memtableSize []
    refine ⟨s', run, _, onDisk', ?_⟩
    rw [env', env, List.append_nil]
    simpa [encodeLog, env] using replays

/-- Recovery from a torn tail is repeatable, whatever is appended. -/
def RecoveryRepeatable : Prop :=
  ∀ (crc : Bytes → UInt32) (rs : List Record) (r : Record) (torn missing : Bytes)
    (ts : List Record) (path : FileName) (s : Sys) (memtableSize : Nat), (∀ r ∈ rs, r.Fits) →
    r.Fits → r.encode crc = torn ++ missing → torn ≠ [] → missing ≠ [] → (∀ t ∈ ts, t.Fits) →
    s.env.crc = crc → s.env.Faultless → s.dir.lookup path = some (encodeLog crc rs ++ torn) →
    ∃ s', Ends (resume path memtableSize ts) s () s' ∧ ReadAs path s' (rs ++ ts)

/-- The append of `put([1], [7])` stopped behind the length prefix. -/
def tornLog : Bytes := (Record.encode crc32 ⟨.put, [1], [7]⟩).take 4

theorem tornLog_cut : Record.encode crc32 ⟨.put, [1], [7]⟩ =
    tornLog ++ (Record.encode crc32 ⟨.put, [1], [7]⟩).drop 4 :=
  (List.take_append_drop _ _).symm

theorem tornLog_proper : (Record.encode crc32 ⟨.put, [1], [7]⟩).drop 4 ≠ [] := by
  rw [Ne, List.drop_eq_nil_iff, Record.length_encode]
  simp

theorem tornLog_begun : tornLog ≠ [] := by
  rw [Ne, ← List.length_eq_zero_iff, tornLog, List.length_take, Record.length_encode]
  simp

/-- With that log, no list of one further record is recovered reliably. -/
theorem torn_tail_one_record : ¬ ∀ ts : List Record, ts.length = 1 → (∀ t ∈ ts, t.Fits) →
    ∃ s', Ends (resume (.wal 1) 0 ts) (Sys.withLog tornLog) () s' ∧ ReadAs (.wal 1) s' ts := by
  have exactly := @torn_tail_repeatable_iff crc32 [] ⟨.put, [1], [7]⟩ tornLog
    ((Record.encode crc32 ⟨.put, [1], [7]⟩).drop 4) (.wal 1) (Sys.withLog tornLog) (by simp)
    (by unfold Record.Fits; decide) tornLog_cut tornLog_begun tornLog_proper rfl (fun _ => rfl)
    (AList.lookup_insert _) 0 1
  exact exactly.not.mpr Nat.one_ne_zero

/-- An acknowledged delete is lost behind it. -/
theorem not_recoveryRepeatable : ¬ RecoveryRepeatable := by
  intro repeatable
  have faultless : (Sys.withLog tornLog).env.Faultless := fun _ => rfl
  have onDisk : (Sys.withLog tornLog).dir.lookup (.wal 1) = some tornLog := AList.lookup_insert _
  obtain ⟨s', resumed, readBack⟩ := repeatable crc32 [] ⟨.put, [1], [7]⟩ tornLog
    ((Record.encode crc32 ⟨.put, [1], [7]⟩).drop 4) [bare .delete] (.wal 1) (Sys.withLog tornLog) 0
    (by simp) (by unfold Record.Fits; decide) tornLog_cut tornLog_begun tornLog_proper
    (by simpa using bare_fits .delete) rfl faultless onDisk
  have replays : collect (items crc32 (encodeLog crc32 [] ++ tornLog)) = .ok [] :=
    collect_torn (by simp) (by unfold Record.Fits; decide) tornLog_cut tornLog_proper
  obtain ⟨s₁, run, env₁, onDisk₁⟩ := resume_run faultless onDisk replays 0 [bare .delete]
  cases run.symm.trans resumed
  exact not_readAs_bare (by simp) tornLog_cut tornLog_begun (by decide) [] (by rw [env₁]; rfl)
    onDisk₁ readBack

end KvEngine
