import KvEngine.Engine.RepairSpec

/-!
# Repairing a healthy directory

A repair forgets which SSTable file is newer than which: the engine that is opened
afterwards takes the order of the enumeration for the order of age.
-/

namespace KvEngine

open Foundations Engine

/-- A directory that a session left by closing, an enumeration of its entries, and a
system on which no file operation fails. -/
structure ClosedDir (env : Env) (w : World) (s : Sys) (entries : List FileName) : Prop where
  reached : Reached env w
  closed : ∃ w', Ends close w () w' ∧ FilesFit (drop w') ∧ s.dir = (drop w').dir
  faultless : s.env.Faultless
  enumerated : entries.Perm s.dir.keys
  few : entries.length < 2 ^ 32

/-- Repairing and opening succeed, and every lookup is answered as before closing. -/
def RepairPreserves (w : World) (s : Sys) (entries : List FileName) (opts : Options) : Prop :=
  ∃ report s₁ e s₂, Ends (repair entries) s report s₁ ∧ Ends (openWithOptions opts) s₁ e s₂ ∧
    ∀ key, answer (get key) ⟨e, s₂⟩ = answer (get key) w

/-- The file that is enumerated last among those that hold a key shows what the newest
version of the key in the engine shows. -/
def NewestLast (e : Engine) (d : Dir) (entries : List FileName) (t : Nat) : Prop :=
  ∀ key, (fileVersions d entries key).getLast?.bind (shown t) =
    (e.versionsOf key).head?.bind (shown t)

variable {env : Env} {w : World} {s : Sys} {entries : List FileName}

namespace ClosedDir

theorem resting (left : ClosedDir env w s entries) : Resting w := by
  obtain ⟨w', closed, fits, -⟩ := left.closed
  exact left.reached.resting (fits.of_extends (Left.closed closed).extends)

/-- The files open as tables, and there is one log. -/
theorem files (left : ClosedDir env w s entries) : Legible s.dir ∧ OneLog s.dir := by
  obtain ⟨w', closed, fits, same⟩ := left.closed
  have limits : WithinLimits w'.sys := by
    obtain ⟨ops, did, -⟩ := BufWriter.drop_did w'.eng.wal.file w'.sys
    exact fits.withinLimits.of_extends ⟨ops, did⟩
  have kept := left.reached.kept (fits.of_extends (Left.closed closed).extends)
  rw [same]
  exact (kept.close left.resting limits closed).drop

theorem present (left : ClosedDir env w s entries) :
    ∀ id ∈ sstIds entries, (s.dir.lookup (.sst id)).isSome := by
  intro id member
  have inDir : FileName.sst id ∈ s.dir.keys := left.enumerated.mem_iff.mp (mem_sstIds.mp member)
  exact AList.lookup_isSome.mpr (AList.mem_keys.mp inDir)

theorem distinct (left : ClosedDir env w s entries) : entries.Nodup :=
  left.enumerated.nodup_iff.mpr s.dir.keys_nodup

end ClosedDir

/-- **A repair preserves a healthy directory** exactly if for every key the enumeration
puts a file that shows what its newest version shows behind the others that hold it. -/
theorem repair_preserves_iff (left : ClosedDir env w s entries) {t : Nat}
    (still : w.sys.ClockAt t) (still' : s.ClockAt t) (opts : Options) :
    RepairPreserves w s entries opts ↔ NewestLast w.eng s.dir entries t := by
  obtain ⟨legible, logs⟩ := left.files
  obtain ⟨s₁, repairs, repaired⟩ := repair_run left.faultless legible left.present
  obtain ⟨e, s₂, opens, env₂, ticks₂, gets⟩ := repaired.opens left.faultless legible logs left.present
    left.distinct left.few opts
  have time : s₂.time = t := by
    rw [Sys.time, env₂]
    exact still' _ ticks₂
  have before : ∀ key, answer (get key) w = .ok ((w.eng.versionsOf key).head?.bind (shown t)) := by
    intro key
    rw [answer_get left.resting.inv, still.time, visible]
  rw [time] at gets
  constructor
  · rintro ⟨report, s₁', e', s₂', repairs', opens', same⟩ key
    obtain ⟨-, rfl⟩ := Ends.unique repairs' repairs
    obtain ⟨rfl, rfl⟩ := Ends.unique opens' opens
    have answers := same key
    rw [gets, before] at answers
    exact Except.ok.inj answers
  · intro newestLast
    refine ⟨_, s₁, e, s₂, repairs, opens, fun key => ?_⟩
    rw [gets, before, newestLast key]

/-! ## Two files with the same key -/

/-- The session ends and is closed, the entries are those of the directory it leaves,
and the world before closing and the directory pass the test. -/
def closePasses (opts : Options) (calls : List Call) (entries : List FileName)
    (test : World → Sys → Bool) : Bool :=
  passes (openWithOptions opts) (Sys.initial .steady) fun e s =>
    passes (runCalls calls) ⟨e, s⟩ fun _ w =>
      passes close w fun _ w' =>
        decide (((drop w').journal.map FsOp.added).sum < 2 ^ 32) &&
          decide (entries.length < 2 ^ 32) && entries.isPerm (drop w').dir.keys && test w (drop w')

theorem exists_closedDir (opts : Options) (calls : List Call) (entries : List FileName)
    (test : World → Sys → Bool) (keys : ∀ call ∈ calls, call.KeysFit)
    (passed : closePasses opts calls entries test = true) :
    ∃ w s, ClosedDir .steady w s entries ∧ w.sys.ClockAt 1700000000 ∧ s.ClockAt 1700000000 ∧
      test w s = true := by
  obtain ⟨e, s, opened, rest⟩ := ends_of_passes passed
  obtain ⟨u, w, ran, rest⟩ := ends_of_passes rest
  obtain ⟨u₁, w', closed, rest⟩ := ends_of_passes rest
  obtain ⟨rest, tested⟩ := Bool.and_eq_true_iff.mp rest
  obtain ⟨rest, enumerated⟩ := Bool.and_eq_true_iff.mp rest
  obtain ⟨few, short⟩ := Bool.and_eq_true_iff.mp rest
  have reached : Reached .steady w :=
    (ReachedBy.opened opened).runCalls keys (fun _ _ _ _ => trivial) ran
  have env : (drop w').env = .steady :=
    (Left.closed closed).extends.env.trans reached.env_eq
  refine ⟨w, drop w', ⟨reached, ⟨w', closed, filesFit_of_added (of_decide_eq_true few), rfl⟩, ?_,
    List.isPerm_iff.mp enumerated, of_decide_eq_true short⟩, fun n _ => ?_, fun n _ => ?_, tested⟩
  · rw [env]
    exact fun _ => rfl
  · rw [reached.env_eq]
    rfl
  · rw [env]
    rfl

/-- Two puts of one key, each flushed to a file of its own. -/
def twoFiles : List Call := [.put [1] [7], .put [1] [8]]

/-- The newer file is enumerated before the older one. -/
def newestFirst : List FileName := [.sst 2, .sst 1, .wal 1, .manifest]

/-- The condition fails there: the file that is enumerated last shows the older value. -/
theorem repair_loses_newestFirst :
    ∃ w s, ClosedDir .steady w s newestFirst ∧ ¬ RepairPreserves w s newestFirst {} := by
  obtain ⟨w, s, left, still, still', tested⟩ := exists_closedDir { memtableSize := 0 } twoFiles
    newestFirst (fun w s => (fileVersions s.dir newestFirst [1]).getLast?.bind (shown 1700000000) !=
      (w.eng.versionsOf [1]).head?.bind (shown 1700000000))
    (by unfold Call.KeysFit; decide) (by decide +kernel)
  refine ⟨w, s, left, fun preserves => ?_⟩
  have newestLast := (repair_preserves_iff left still still' {}).mp preserves
  exact bne_iff_ne.mp tested (newestLast [1])

/-- Every repair of a directory that a session left by closing preserves it, when the
clock stands still. -/
def RepairAlwaysPreserves : Prop :=
  ∀ env w s entries t opts, ClosedDir env w s entries → w.sys.ClockAt t → s.ClockAt t →
    RepairPreserves w s entries opts

/-- **A repair may bring back an overwritten value**: the second put of `[1]` is lost
when its file is enumerated first. -/
theorem not_repairAlwaysPreserves : ¬ RepairAlwaysPreserves := by
  intro always
  obtain ⟨w, s, left, still, still', tested⟩ := exists_closedDir { memtableSize := 0 } twoFiles
    newestFirst (fun w s => passes (get [1]) w (fun v _ => v == some [8]) &&
      passes (repair newestFirst) s fun _ s₁ =>
        passes (openWithOptions {}) s₁ fun e s₂ =>
          passes (get [1]) ⟨e, s₂⟩ fun v _ => v == some [7])
    (by unfold Call.KeysFit; decide) (by decide +kernel)
  obtain ⟨before, after⟩ := Bool.and_eq_true_iff.mp tested
  obtain ⟨v, w', shows, isNew⟩ := ends_of_passes before
  obtain ⟨report, s₁, repairs, after⟩ := ends_of_passes after
  obtain ⟨e, s₂, opens, after⟩ := ends_of_passes after
  obtain ⟨v', w'', again, isOld⟩ := ends_of_passes after
  obtain ⟨report', s₁', e', s₂', repairs', opens', same⟩ :=
    always .steady w s newestFirst 1700000000 {} left still still'
  obtain ⟨-, rfl⟩ := Ends.unique repairs' repairs
  obtain ⟨rfl, rfl⟩ := Ends.unique opens' opens
  have equal := same [1]
  rw [answer_of_ok again, answer_of_ok shows, eq_of_beq isOld, eq_of_beq isNew] at equal
  cases equal

end KvEngine
