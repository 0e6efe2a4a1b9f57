import KvEngine.Engine.Entries

/-!
# Sequence numbers

A write takes the next sequence number, so what it stores is below the next one.
Two steps may break this: opening a directory starts again at 1, and a batch stores
its values without a sequence number, so that the first eight bytes of a long value
read as one.  In a run that avoids both, a lookup at a snapshot of now is a lookup.
-/

namespace KvEngine

open Foundations Engine

variable {w w' : World}

/-- Every entry decodes to a sequence number below the next one, and a lookup at a
snapshot of now answers as a lookup does. -/
def SequenceDominates (w : World) : Prop :=
  EveryEntry (fun b => ∀ value seq, decodeWithSeq b.2 = some (value, seq) → seq < w.eng.nextSeq)
      w.eng ∧
    ∀ key, answer (getAt key w.eng.snapshot) w = answer (get key) w

/-- The values of a batch do not read as having a sequence number from `next_seq` on. -/
def UnnumberedBatch (w : World) : Request → Prop
  | .write (.writeBatch batch) => ∀ op ∈ batch.ops, seqOf (batchValue op) < w.eng.nextSeq
  | _ => True

/-- All that can be recovered from the directory reads as having sequence number 0. -/
def UnnumberedDir (s : Sys) : Prop :=
  (∀ m tables, manifestOf s.dir = .ok m → tablesOf s.dir m.levels.flatten = .ok tables →
      ∀ p ∈ tables, ∀ b ∈ (Table.map p).entries, seqOf b.2 = 0) ∧
    ∀ records, logOf s.env.crc s.dir = .ok records →
      ∀ b ∈ (SortedMap.empty.insertAll (records.map Record.binding)).entries, seqOf b.2 = 0

/-- Every sequence number is below the next one. -/
structure SeqsBelow (e : Engine) : Prop where
  every : EveryEntry (fun b => seqOf b.2 < e.nextSeq) e
  positive : 1 ≤ e.nextSeq

theorem seqsBelow_opened {opts : Options} {s s' : Sys} {e : Engine}
    (run : Ends (openWithOptions opts) s e s') (unnumbered : UnnumberedDir s) : SeqsBelow e := by
  obtain ⟨recovered, -⟩ := ends_openWithOptions run
  obtain ⟨records, log, contents⟩ := recovered.log
  refine ⟨⟨fun map hm b hb => ?_, fun p hp b hb => ?_⟩, recovered.nextSeq.ge⟩
  · obtain rfl : map = e.memtable.active.contents := by
      simpa [MemTable.layers, recovered.memtable.2.1] using hm
    rw [contents] at hb
    rw [unnumbered.2 records log b hb, recovered.nextSeq]
    exact Nat.one_pos
  · rw [unnumbered.1 _ _ recovered.manifest recovered.readers p hp b hb, recovered.nextSeq]
    exact Nat.one_pos

/-- What a call stores is numbered below the counter afterwards. -/
theorem seqOf_stores {call : Call} (unnumbered : UnnumberedBatch w (.write call)) (t : Nat)
    (small : call.seqs = 1 → w.eng.nextSeq + 1 < u64Limit) :
    ∀ s ∈ call.stores w.eng.nextSeq t, seqOf s.value < w.eng.nextSeq + call.seqs := by
  have numbered : ∀ v, call.seqs = 1 →
      seqOf (encodeWithSeq v w.eng.nextSeq) < w.eng.nextSeq + call.seqs := fun v one => by
    rw [seqOf_encodeWithSeq v (Nat.lt_of_succ_lt (small one)), one]
    exact Nat.lt_succ_self _
  intro s hs
  cases call with
  | writeBatch batch =>
      obtain ⟨op, hop, rfl⟩ := List.mem_map.mp hs
      exact unnumbered op hop
  | _ =>
      rw [List.mem_singleton.mp hs]
      exact numbered _ rfl

theorem SeqsBelow.ends_call (below : SeqsBelow w.eng) (resting : Resting w) {call : Call} {u : Unit}
    (keys : call.KeysFit) (limits : WithinLimits w'.sys)
    (unnumbered : UnnumberedBatch w (.write call)) (run : Ends call.run w u w') :
    SeqsBelow w'.eng := by
  obtain ⟨-, t, w₁, -, accepted, -, flushing, small⟩ := resting.ends_call keys limits run
  have advanced : w'.eng.nextSeq = w.eng.nextSeq + call.seqs := by
    rw [flushing.kept.1, accepted.nextSeq_eq]
  refine ⟨flushing.everyEntry (accepted.everyEntry resting.inv ?_ fun s hs => ?_), ?_⟩
  · exact below.every.mono fun b less => advanced ▸ Nat.lt_add_right _ less
  · rw [advanced]
    exact seqOf_stores unnumbered t small s hs
  · rw [advanced]
    exact Nat.le_add_right_of_le below.positive

/-- A read changes neither entries nor counter. -/
theorem SeqsBelow.observed (below : SeqsBelow w.eng) (observed : Observed w w') :
    SeqsBelow w'.eng := by
  obtain ⟨c, m, n, rfl⟩ := observed.world
  exact ⟨⟨below.every.memtable, below.every.tables⟩, below.positive⟩

/-- The first version that the snapshot of now may see is the newest one. -/
theorem findSome?_seenBy {seq : Nat} {versions : List Bytes} (below : ∀ v ∈ versions, seqOf v < seq) :
    versions.findSome? (seenBy ⟨seq⟩) = versions.head?.map innerOf := by
  cases versions with
  | nil => rfl
  | cons v rest =>
      have seen : seenBy ⟨seq⟩ v = some (innerOf v) := by
        simp only [seenBy, decodeWithSeq_eq, below v List.mem_cons_self, if_true]
      rw [List.findSome?_cons, seen, List.head?_cons, Option.map_some]

theorem SeqsBelow.dominates (below : SeqsBelow w.eng) (resting : Resting w) :
    SequenceDominates w := by
  refine ⟨below.every.mono fun b less value seq decoded => ?_, fun key => ?_⟩
  · rw [decodeWithSeq_eq] at decoded
    cases decoded
    exact less
  · obtain ⟨w₁, -, reads⟩ := getAt_run resting.inv resting.free key w.eng.snapshot
    rw [answer_of_ok reads, answer_get resting.inv, Engine.visible]
    rw [show w.eng.snapshot = ⟨w.eng.nextSeq⟩ from rfl, findSome?_seenBy fun v member =>
      below.every.of_mem_versionsOf member]
    cases (w.eng.versionsOf key).head? <;> rfl

/-- In a run without such batches and directories every number stays below the counter. -/
theorem ReachedBy.seqsBelow {env : Env} (reached : ReachedBy env UnnumberedBatch UnnumberedDir w)
    (fits : FilesFit w.sys) : SeqsBelow w.eng := by
  refine reached.induct (P := fun w => SeqsBelow w.eng) fits (fun opts e s run => ?_)
    (fun w request response w' resting _ fits keys meets run below => ?_)
    (fun w s opts e s' _ _ _ _ meets run _ => seqsBelow_opened run meets)
  · have started := started run
    have free : e.memtable.immutable = none := started.idle.free
    have readers : e.sstReaders = [] := started.readers
    refine ⟨⟨fun map hm b hb => ?_, by simp [readers]⟩, started.nextSeq.ge⟩
    have empty : map = SortedMap.empty := by
      simpa [MemTable.layers, free, started.active] using hm
    rw [empty] at hb
    cases hb
  · rcases resting.ends_request_cases run with ⟨call, rfl, ran⟩ | observed
    · exact below.ends_call resting keys fits.withinLimits meets ran
    · exact below.observed observed

/-- **Sequence numbers dominate** in every run in which no batch value reads as having a
sequence number from `next_seq` on, and no directory is opened again that holds one. -/
theorem sequence_dominates {env : Env} (reached : ReachedBy env UnnumberedBatch UnnumberedDir w)
    (fits : FilesFit w.sys) : SequenceDominates w :=
  (reached.seqsBelow fits).dominates (reached.resting fits)

theorem unnumberedDir_of_opened {opts : Options} {s s' : Sys} {e : Engine}
    (run : Ends (openWithOptions opts) s e s')
    (tables : ∀ p ∈ e.sstReaders, ∀ b ∈ (Table.map p).entries, seqOf b.2 = 0)
    (log : ∀ b ∈ e.memtable.active.contents.entries, seqOf b.2 = 0) : UnnumberedDir s := by
  obtain ⟨recovered, -⟩ := ends_openWithOptions run
  obtain ⟨records, read, contents⟩ := recovered.log
  constructor
  · intro m ts manifest readers
    rw [recovered.manifest] at manifest
    cases manifest
    rw [recovered.readers] at readers
    cases readers
    exact tables
  · intro records' read'
    rw [read] at read'
    cases read'
    exact contents ▸ log

/-- A batch of short values, flushed, and the directory opened again. -/
theorem sequence_dominates_short_batch :
    ∃ w, ReachedBy .steady UnnumberedBatch UnnumberedDir w ∧ SequenceDominates w := by
  obtain ⟨e, s, w, w₁, e', s', opened, ran, closed, again, fits, short, tested⟩ := exists_reopened
    { memtableSize := 0 } {} .steady [.writeBatch ⟨[.put [1] [7], .delete [2], .put [3] [5, 6]]⟩]
    (fun w => w.eng.sstReaders.all (fun p => (Table.map p).entries.all (fun b => seqOf b.2 == 0)) &&
      w.eng.memtable.active.contents.entries.all (fun b => seqOf b.2 == 0)) (by decide +kernel)
  obtain ⟨tables, log⟩ := Bool.and_eq_true_iff.mp tested
  have unnumbered : UnnumberedDir (drop w₁) := unnumberedDir_of_opened again
    (fun p hp b hb => eq_of_beq (List.all_eq_true.mp (List.all_eq_true.mp tables p hp) b hb))
    (fun b hb => eq_of_beq (List.all_eq_true.mp log b hb))
  obtain ⟨u, w₂, batch, rest⟩ := ends_bind.mp ran
  obtain ⟨-, rfl⟩ := ends_pure.mp rest
  have meets : UnnumberedBatch ⟨e, s⟩
      (.write (.writeBatch ⟨[.put [1] [7], .delete [2], .put [3] [5, 6]]⟩)) := by
    intro op member
    have first : e.nextSeq = 1 := (started opened).nextSeq
    change seqOf (batchValue op) < e.nextSeq
    rw [first]
    revert op
    decide
  have reached : ReachedBy .steady UnnumberedBatch UnnumberedDir w₂ :=
    .served (.opened opened) (by unfold Request.KeysFit Call.KeysFit; decide) meets
      (ends_write batch)
  have last := ReachedBy.reopened reached (.closed closed) unnumbered again short
  exact ⟨⟨e', s'⟩, last, sequence_dominates last fits⟩

/-- Sequence numbers dominate in every reachable state. -/
def SequencesAlwaysDominate : Prop :=
  ∀ env w, Reached env w → FilesFit w.sys → SequenceDominates w

/-- **After a reopening** the counter starts again below what is stored: the value of
`put([1], [7])` is numbered 1, as is the next write, and no snapshot of now sees it. -/
theorem not_sequencesAlwaysDominate : ¬ SequencesAlwaysDominate := by
  intro always
  obtain ⟨w, reached, fits, tested⟩ := exists_reached {} {} .steady [.put [1] [7]]
    (fun w => passes (get [1]) w (fun v _ => v == some [7]) &&
      passes (getAt [1] w.eng.snapshot) w (fun v _ => v == none))
    (by unfold Call.KeysFit; decide) (by decide +kernel)
  obtain ⟨live, past⟩ := Bool.and_eq_true_iff.mp tested
  obtain ⟨v, w₁, found, isLive⟩ := ends_of_passes live
  obtain ⟨v', w₂, missed, isPast⟩ := ends_of_passes past
  have same := (always _ w reached fits).2 [1]
  rw [answer_of_ok found, answer_of_ok missed, eq_of_beq isLive, eq_of_beq isPast] at same
  cases same

end KvEngine
