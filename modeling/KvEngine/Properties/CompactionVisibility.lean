import KvEngine.Engine.ReadSpec
import KvEngine.Engine.Session

/-!
# What readers see of a compaction

A compaction drops the entries that show nothing.  A reader notices when such an
entry was the newest version of its key and an older version, in a table that the
compaction left alone, shows something: the old value comes back.
-/

namespace KvEngine

open Foundations Engine

variable {w₀ w w' : World} {call : Call} {level : Nat} {u : Unit}

/-- In the course of a call made in `w₀`, the loop of `maybeCompact` has come to
`level`, in the world `w`, and finds it full. -/
structure AtCompaction (w₀ : World) (call : Call) (level : Nat) (w : World) : Prop where
  reached : ∃ w₁ imm sstId w₂ entries w₃, Ends call.store w₀ () w₁ ∧
    w₁.eng.memtable.immutable = some imm ∧ Ends takeSstId (thawed w₁) sstId w₂ ∧
    imm.iter = .ok entries ∧ entries ≠ [] ∧ Ends (flushEntries sstId entries) w₂ () w₃ ∧
    Ends (compactFrom level 0) w₃ () w
  within : level < w.eng.opts.maxLevels - 1
  full : ∃ threshold, levelThreshold w.eng.opts level = .ok threshold ∧
    ¬ (w.eng.manifest.sstsAtLevel level).length < threshold

/-- Compacting `level` brings an old value of the key back: the newest version of the
key is taken up and shows nothing, and the next one is left and shows something. -/
def Uncovers (e : Engine) (level t : Nat) (key : Bytes) : Prop :=
  e.memtable.versionsOf key = [] ∧
    (∃ x, (e.takenVersions level key).head? = some x ∧ shown t x = none) ∧
    ∃ y, (e.leftVersions level key).head? = some y ∧ (shown t y).isSome

/-- **What a compaction changes**: the keys it uncovers, and no others. -/
theorem Engine.Compaction.visible_eq_iff {time : Bytes → Nat} {added : Option Table} {t : Nat}
    (compaction : Compaction w level time added w') (inv : Inv w)
    (ordered : Ordered w.eng.manifest w.eng.sstReaders) (topmost : Topmost w.eng.manifest level)
    (still : w.sys.ClockAt t) (key : Bytes) :
    w'.eng.visible t key = w.eng.visible t key ↔ ¬ Uncovers w.eng level t key := by
  obtain ⟨before, merged⟩ := compaction.versionsOf_before inv ordered topmost key
  have atT : time key = t := still.eq_of_reads (compaction.clock key)
  unfold visible Uncovers
  rw [before, compaction.versionsOf_after, merged, atT]
  cases inMemory : w.eng.memtable.versionsOf key with
  | cons x rest => simp
  | nil =>
      rw [List.nil_append, List.nil_append, List.head?_append, List.head?_append]
      cases taken : (w.eng.takenVersions level key).head? with
      | none => simp
      | some x =>
          cases shows : shown t x with
          | some v => simp [Option.filter_some, shows]
          | none =>
              cases left : (w.eng.leftVersions level key).head? with
              | none => simp [Option.filter_some, shows]
              | some y => cases answer : shown t y <;> simp [Option.filter_some, shows, answer]

/-- What precedes the compactions of a call: its stores and a flush. -/
theorem AtCompaction.flushed (session : InSession w₀) (keys : call.KeysFit)
    (limits : WithinLimits w.sys) (point : AtCompaction w₀ call level w) :
    ∃ t w₁ p w₃, Accepted w₀ (call.stores w₀.eng.nextSeq t) call.seqs w₁ ∧ Inv w₁ ∧
      Flush (thawed w₁) p w₃ ∧ Ends (compactFrom level 0) w₃ () w := by
  obtain ⟨w₁, imm, sstId, w₂, entries, w₃, stored, frozen, took, iterates, nonempty, flushed,
    looped⟩ := point.reached
  have limits₃ := limits.of_extends (extending_compactFrom _ _ _ _ _ looped).sys
  obtain ⟨t, -, accepted, inv₁, -⟩ := session.idle.ends_store keys stored
  rw [(inv₁.memtable.immutable imm frozen).iter_eq] at iterates
  cases iterates
  obtain ⟨p, flush, -⟩ := ends_flushEntries
    (inv₁.memKeys imm.contents (by simp [MemTable.layers, frozen])) (inv_thawed inv₁).history
    limits₃ took flushed
  exact ⟨t, w₁, p, w₃, accepted, inv₁, flush, looped⟩

/-- A compaction of a session starts from a world in which nothing is listed above. -/
theorem AtCompaction.session (session : InSession w₀) (keys : call.KeysFit)
    (limits : WithinLimits w'.sys) (point : AtCompaction w₀ call level w)
    (run : Ends (compactLevel level) w u w') :
    Inv w ∧ Ordered w.eng.manifest w.eng.sstReaders ∧ Topmost w.eng.manifest level := by
  have limits := limits.of_extends (extending_compactLevel level _ _ _ run).sys
  obtain ⟨t, w₁, p, w₃, accepted, inv₁, flush, looped⟩ := point.flushed session keys limits
  have invThawed := inv_thawed inv₁
  have carried := flush.carried (w := thawed w₁) (accepted.settled session.idle.settled)
  have inv₃ := flush.inv invThawed
  have opts : w.eng.opts = w₃.eng.opts := (extending_compactFrom _ _ _ _ _ looped).opts
  obtain ⟨cascade, after⟩ :=
    ends_compactFrom (by rw [← opts, Nat.zero_add]; exact point.within.le) inv₃ carried limits looped
  refine ⟨cascade.inv inv₃, cascade.ordered (flush.ordered invThawed
    (accepted.ordered session.ordered)), ?_⟩
  rw [Nat.zero_add] at after
  rcases after with ⟨topmost, -⟩ | settled
  · exact topmost
  · -- a settled level that is full would be empty, and could not be compacted
    obtain ⟨threshold, found, notBelow⟩ := point.full
    rcases settled level point.within with empty | below
    · exact absurd empty (ends_compactLevel_nonempty run)
    · exact absurd (below threshold found) notBelow

/-- The world only goes on from the call to its compactions. -/
theorem AtCompaction.extends (point : AtCompaction w₀ call level w) : w₀.sys.Extends w.sys := by
  obtain ⟨w₁, imm, sstId, w₂, entries, w₃, stored, -, took, -, -, flushed, looped⟩ := point.reached
  have first := (extending_store call _ _ _ stored).sys
  have taken : w₁.sys.Extends w₂.sys := (extending_takeSstId _ _ _ took).sys
  have later := (extending_flushEntries _ _ _ _ _ flushed).sys
  exact first.trans (taken.trans (later.trans (extending_compactFrom _ _ _ _ _ looped).sys))

theorem AtCompaction.opts_eq (point : AtCompaction w₀ call level w) :
    w.eng.opts = w₀.eng.opts := by
  obtain ⟨w₁, imm, sstId, w₂, entries, w₃, stored, -, took, -, -, flushed, looped⟩ := point.reached
  have first := (extending_store call _ _ _ stored).opts
  have taken : w₂.eng.opts = w₁.eng.opts := (extending_takeSstId _ _ _ took).opts
  have later := (extending_flushEntries _ _ _ _ _ flushed).opts
  rw [(extending_compactFrom _ _ _ _ _ looped).opts, later, taken, first]

/-- **When a compaction of a session is invisible**: exactly when it uncovers no key. -/
theorem sameReads_compaction_iff {opts : Options} {env : Env} {e : Engine} {s : Sys}
    {calls : List Call} {t : Nat} (opened : Ends (openWithOptions opts) (Sys.initial env) e s)
    (ran : Ends (runCalls calls) ⟨e, s⟩ () w₀) (point : AtCompaction w₀ call level w)
    (compacts : Ends (compactLevel level) w u w') (limits : WithinLimits w'.sys)
    (keys : ∀ c ∈ call :: calls, c.KeysFit) (still : w.sys.ClockAt t) :
    SameReads w w' ↔ ∀ key, ¬ Uncovers w.eng level t key := by
  have goesOn := (extending_compactLevel level _ _ _ compacts).sys
  have limits₀ : WithinLimits w₀.sys := limits.of_extends (point.extends.trans goesOn)
  obtain ⟨session, -⟩ := (started opened).inSession.ends_runCalls
    (P := fun _ => True) (fun c hc => keys c (List.mem_cons_of_mem _ hc)) limits₀ ran trivial
    (fun _ _ _ _ _ _ _ _ _ _ => trivial)
  obtain ⟨inv, ordered, topmost⟩ :=
    point.session session (keys call List.mem_cons_self) limits compacts
  obtain ⟨time, added, compaction⟩ := ends_compactLevel inv limits compacts
  rw [sameReads_iff inv (compaction.inv inv) still (still.of_extends goesOn)]
  exact forall_congr' (compaction.visible_eq_iff inv ordered topmost still)

/-! ## A value that comes back -/

/-- The call is not a batch. -/
def Call.isSingle : Call → Bool
  | .writeBatch _ => false
  | _ => true

/-- No compaction of any session changes what a reader sees. -/
def CompactionInvisible : Prop :=
  ∀ (opts : Options) (env : Env) (e : Engine) (s : Sys) (calls : List Call) (call : Call)
    (level t : Nat) (w₀ w w' : World), env.Faultless →
    (∀ c ∈ call :: calls, c.isSingle = true ∧ c.KeysFit) →
    Ends (openWithOptions opts) (Sys.initial env) e s → Ends (runCalls calls) ⟨e, s⟩ () w₀ →
    AtCompaction w₀ call level w → w.sys.ClockAt t → Ends (compactLevel level) w () w' →
    WithinLimits w'.sys → SameReads w w'

/-- The compaction of level 0 in the course of the call changes what `get` answers. -/
def bringsBack (call : Call) (key : Bytes) (w₀ : World) : Bool :=
  passes call.store w₀ fun _ w₁ =>
    match w₁.eng.memtable.immutable with
    | none => false
    | some imm =>
        passes takeSstId (thawed w₁) fun sstId w₂ =>
          match imm.iter with
          | .error _ => false
          | .ok entries =>
              passes (flushEntries sstId entries) w₂ fun _ w₃ =>
                passes (compactLevel 0) w₃ fun _ w' =>
                  !entries.isEmpty && decide (0 < w₃.eng.opts.maxLevels - 1) &&
                    (match levelThreshold w₃.eng.opts 0 with
                      | .ok threshold =>
                          decide (¬ (w₃.eng.manifest.sstsAtLevel 0).length < threshold)
                      | .error _ => false) &&
                    decide ((w'.sys.journal.map FsOp.added).sum < 2 ^ 32) &&
                    decide (answer (get key) w₃ ≠ answer (get key) w')

theorem exists_bringsBack {call : Call} {key : Bytes} (brings : bringsBack call key w₀ = true) :
    ∃ w w', AtCompaction w₀ call 0 w ∧ Ends (compactLevel 0) w () w' ∧ WithinLimits w'.sys ∧
      ¬ SameReads w w' := by
  unfold bringsBack at brings
  obtain ⟨u, w₁, stored, rest⟩ := ends_of_passes brings
  split at rest
  · cases rest
  · next imm frozen =>
      obtain ⟨sstId, w₂, took, rest⟩ := ends_of_passes rest
      split at rest
      · cases rest
      · next entries iterates =>
          obtain ⟨u₁, w₃, flushed, rest⟩ := ends_of_passes rest
          obtain ⟨u₂, w', compacts, rest⟩ := ends_of_passes rest
          simp only [Bool.and_eq_true, decide_eq_true_eq] at rest
          obtain ⟨⟨⟨⟨nonempty, within⟩, full⟩, few⟩, differ⟩ := rest
          have nonempty : entries ≠ [] := by
            rintro rfl
            cases nonempty
          refine ⟨w₃, w', ⟨⟨w₁, imm, sstId, w₂, entries, w₃, stored, frozen, took, iterates,
            nonempty, flushed, ends_pure.mpr ⟨rfl, rfl⟩⟩, within, ?_⟩, compacts,
            withinLimits_of_added few, fun same => differ (same.1 key).symm⟩
          split at full
          · next threshold found => exact ⟨threshold, found, of_decide_eq_true full⟩
          · cases full

/-- Ten puts after which every key lies in level 2. -/
def tenPuts : List Call :=
  [.put [1] [1], .put [2] [2], .put [3] [3], .put [4] [4], .put [5] [5], .put [6] [6],
    .put [7] [7], .put [8] [8], .put [9] [9], .put [10] [10]]

/-- The call ends, and the key then has the value. -/
def leaves (call : Call) (key value : Bytes) (w : World) : Bool :=
  passes call.run w fun _ w₁ =>
    passes (get key) w₁ (fun v _ => v == some value) &&
      decide ((w₁.sys.journal.map FsOp.added).sum < 2 ^ 32)

/-- After these puts a tombstone brings the value of the key back when it is compacted,
and so does a value that has expired by then. -/
theorem exists_tenPuts : ∃ e s w₀,
    Ends (openWithOptions { memtableSize := 0, l0CompactionThreshold := 1, maxLevels := 3 })
      (Sys.initial .steady) e s ∧
    Ends (runCalls tenPuts) ⟨e, s⟩ () w₀ ∧ bringsBack (.delete [1]) [1] w₀ = true ∧
    leaves (.putWithTtl [1] [9] 0) [1] [1] w₀ = true := by
  -- one evaluation for both calls, since it is the session before them that takes the time
  obtain ⟨e, s, w₀, opened, ran, -, both⟩ := exists_session
    { memtableSize := 0, l0CompactionThreshold := 1, maxLevels := 3 } .steady tenPuts
    (fun w => bringsBack (.delete [1]) [1] w && leaves (.putWithTtl [1] [9] 0) [1] [1] w)
    (by decide +kernel)
  obtain ⟨brings, expires⟩ := Bool.and_eq_true_iff.mp both
  exact ⟨e, s, w₀, opened, ran, brings, expires⟩

/-- One of them is deleted: compacting the tombstone into level 1 drops it. -/
theorem exists_reappearance : ∃ e s w₀ w w',
    Ends (openWithOptions { memtableSize := 0, l0CompactionThreshold := 1, maxLevels := 3 })
      (Sys.initial .steady) e s ∧
    Ends (runCalls tenPuts) ⟨e, s⟩ () w₀ ∧ AtCompaction w₀ (.delete [1]) 0 w ∧
    w.sys.ClockAt 1700000000 ∧ Ends (compactLevel 0) w () w' ∧ WithinLimits w'.sys ∧
    ¬ SameReads w w' := by
  obtain ⟨e, s, w₀, opened, ran, brings, -⟩ := exists_tenPuts
  obtain ⟨w, w', point, compacts, limits, differ⟩ := exists_bringsBack brings
  have still : (Sys.initial .steady).ClockAt 1700000000 := fun _ _ => rfl
  have goesOn : (Sys.initial .steady).Extends w.sys :=
    Sys.Extends.trans ⟨_, (ends_openWithOptions opened).2⟩
      ((extending_runCalls _ _ _ _ ran).sys.trans point.extends)
  exact ⟨e, s, w₀, w, w', opened, ran, point, still.of_extends goesOn, compacts, limits, differ⟩

/-- The deleted value comes back. -/
theorem not_compactionInvisible : ¬ CompactionInvisible := by
  intro invisible
  obtain ⟨e, s, w₀, w, w', opened, ran, point, still, compacts, limits, differ⟩ :=
    exists_reappearance
  refine differ (invisible _ .steady e s _ (.delete [1]) 0 1700000000 w₀ w w' (fun _ => rfl) ?_
    opened ran point still compacts limits)
  unfold Call.KeysFit
  decide

/-- In that run some key is uncovered. -/
theorem sameReads_compaction_reappearance : ∃ w w' key, Ends (compactLevel 0) w () w' ∧
    ¬ SameReads w w' ∧ Uncovers w.eng 0 1700000000 key := by
  obtain ⟨e, s, w₀, w, w', opened, ran, point, still, compacts, limits, differ⟩ :=
    exists_reappearance
  have keys : ∀ c ∈ Call.delete [1] :: tenPuts, c.KeysFit := by
    unfold Call.KeysFit
    decide
  have exactly := sameReads_compaction_iff opened ran point compacts limits keys still
  obtain ⟨key, uncovered⟩ := not_forall_not.mp fun none => differ (exactly.mpr none)
  exact ⟨w, w', key, compacts, differ, uncovered⟩

end KvEngine
