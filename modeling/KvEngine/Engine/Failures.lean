import KvEngine.Engine.CompactionSpec
import KvEngine.Engine.ReadSpec

/-!
# When a method returns an error

`Reliable` methods return no `Err` as long as no file operation fails.  Reading the
tables is reliable for a reason of its own: the iterator ends quietly at a block that
it cannot load.
-/

namespace KvEngine

open Foundations

variable {σ τ α β : Type}

/-- As long as no file operation fails, the computation returns no `Err`, and it does
not change the environment. -/
def Reliable (env : σ → Env) (x : EStateM Failure σ α) : Prop :=
  ∀ s, (env s).Faultless → (∀ k s', ¬ Fails x s (.err k) s') ∧
    ∀ a s', Ends x s a s' → env s' = env s

namespace Reliable

variable {env : σ → Env}

theorem pure (a : α) : Reliable env (Pure.pure a : EStateM Failure σ α) := by
  intro s _
  refine ⟨fun k s' failed => fails_pure.mp failed, fun b s' ended => ?_⟩
  rw [(ends_pure.mp ended).2]

theorem bind {x : EStateM Failure σ α} {f : α → EStateM Failure σ β} (first : Reliable env x)
    (rest : ∀ a, Reliable env (f a)) : Reliable env (x >>= f) := by
  intro s faultless
  obtain ⟨noErr, same⟩ := first s faultless
  refine ⟨fun k s' failed => ?_, fun b s'' ended => ?_⟩
  · rcases fails_bind.mp failed with early | ⟨a, s₁, ended, late⟩
    · exact noErr k s' early
    · exact (rest a s₁ (by rw [same a s₁ ended]; exact faultless)).1 k s' late
  · obtain ⟨a, s₁, ended, later⟩ := ends_bind.mp ended
    have same₁ := same a s₁ ended
    rw [← same₁]
    exact (rest a s₁ (by rw [same₁]; exact faultless)).2 b s'' later

theorem liftResult {r : Result α} (notErr : r.NotErr) :
    Reliable env (Foundations.liftResult r : EStateM Failure σ α) := by
  intro s _
  refine ⟨fun k s' failed => notErr k (fails_liftResult.mp failed).1, fun a s' ended => ?_⟩
  rw [(ends_liftResult.mp ended).2]

theorem get : Reliable env (MonadState.get : EStateM Failure σ σ) := by
  intro s _
  refine ⟨fun k s' failed => fails_get.mp failed, fun a s' ended => ?_⟩
  rw [(ends_get.mp ended).2]

theorem change {f : σ → σ} (keeps : ∀ s, env (f s) = env s) :
    Reliable env (modify f : EStateM Failure σ PUnit) := by
  intro s _
  refine ⟨fun k s' failed => fails_modify.mp failed, fun a s' ended => ?_⟩
  rw [ends_modify.mp ended, keeps]

theorem zoom (env' : τ → Env) {view : σ → τ} {put : τ → σ → σ} {x : EStateM Failure τ α}
    (inner : Reliable env' x) (seen : ∀ s, env' (view s) = env s)
    (kept : ∀ s t, env' t = env s → env (put t s) = env s) :
    Reliable env (Foundations.zoom view put x) := by
  intro s faultless
  obtain ⟨noErr, same⟩ := inner (view s) (by rw [seen]; exact faultless)
  refine ⟨fun k s' failed => ?_, fun a s' ended => ?_⟩
  · obtain ⟨t, failedInner, -⟩ := fails_zoom.mp failed
    exact noErr k t failedInner
  · obtain ⟨t, endedInner, rfl⟩ := ends_zoom.mp ended
    exact kept s t ((same a t endedInner).trans (seen s))

theorem notErr {x : EStateM Failure σ α} (reliable : Reliable env x) {s s' : σ} {k : KvError}
    (faultless : (env s).Faultless) : ¬ Fails x s (.err k) s' :=
  (reliable s faultless).1 k s'

theorem env_eq {x : EStateM Failure σ α} (reliable : Reliable env x) {s s' : σ} {a : α}
    (faultless : (env s).Faultless) (ended : Ends x s a s') : env s' = env s :=
  (reliable s faultless).2 a s' ended

/-- A computation that ends whenever no file operation fails. -/
theorem of_run {x : EStateM Failure σ α}
    (runs : ∀ s, (env s).Faultless → ∃ a s', x s = .ok a s' ∧ env s' = env s) :
    Reliable env x := by
  intro s faultless
  obtain ⟨a, s', run, same⟩ := runs s faultless
  refine ⟨fun k t failed => (show Ends x s a s' from run).not_fails failed, fun b t ended => ?_⟩
  cases (show Ends x s a s' from run).symm.trans ended
  exact same

end Reliable

/-! ## The file system and the table builder -/

abbrev ReliableSys (x : SysM α) : Prop := Reliable Sys.env x

theorem reliable_createTruncate (f : FileName) : ReliableSys (createTruncate f) :=
  .of_run fun s faultless => by
    obtain ⟨s', run⟩ := createTruncate_run faultless f
    exact ⟨(), s', run, (ends_createTruncate run).env⟩

theorem reliable_writeFile (f : FileName) (data : Bytes) : ReliableSys (writeFile f data) :=
  .of_run fun s faultless => by
    obtain ⟨s', run⟩ := writeFile_run faultless f data
    exact ⟨(), s', run, (ends_writeFile run).env⟩

theorem reliable_syncFile : ReliableSys syncFile :=
  .of_run fun s faultless => by
    obtain ⟨s', run⟩ := syncFile_run faultless
    exact ⟨(), s', run, (ends_syncFile run).env⟩

theorem reliable_save (m : Manifest) (path : FileName) : ReliableSys (m.save path) :=
  (reliable_createTruncate path).bind fun _ => (reliable_writeFile path _).bind fun _ =>
    reliable_syncFile

namespace SSTableBuilder

/-- The environment a builder works in. -/
abbrev envOf (p : SSTableBuilder × Sys) : Env := p.2.env

theorem reliable_write (data : Bytes) : Reliable envOf (write data) :=
  Reliable.zoom (fun q : BufWriter × Sys => q.2.env)
    (.of_run fun p faultless => by
      obtain ⟨p', run⟩ := BufWriter.writeAll_run faultless data
      exact ⟨(), p', run, (BufWriter.wrote_writeAll run).env⟩)
    (fun _ => rfl) (fun _ _ same => same)

theorem reliable_flushBuf : Reliable envOf
    (zoom (fun p => (p.1.file, p.2)) (fun q p => ({ p.1 with file := q.1 }, q.2))
      BufWriter.flushBuf : M Unit) :=
  Reliable.zoom (fun q : BufWriter × Sys => q.2.env)
    (.of_run fun p faultless => by
      obtain ⟨p', run⟩ := BufWriter.flushBuf_run faultless
      exact ⟨(), p', run, (BufWriter.wrote_flushBuf run).1.env⟩)
    (fun _ => rfl) (fun _ _ same => same)

theorem reliable_advance (n : Nat) : Reliable envOf (advance n) :=
  Reliable.get.bind fun _ => (Reliable.liftResult (.checkedAdd _ _ _)).bind fun _ =>
    .change fun _ => rfl

theorem reliable_flushBlock : Reliable envOf flushBlock :=
  Reliable.get.bind fun _ => (Reliable.liftResult (.orPanic _)).bind fun _ =>
    (reliable_write _).bind fun _ => Reliable.bind (.change fun _ => rfl) fun _ =>
      (reliable_advance _).bind fun _ => .change fun _ => rfl

theorem reliable_add (key value : Bytes) : Reliable envOf (add key value) := by
  refine Reliable.bind (Reliable.get.bind fun ⟨b, s⟩ => ?_) fun _ => .change fun _ => rfl
  simp only
  split
  · exact reliable_flushBlock
  · exact .pure _

theorem reliable_addAll (entries : List (Bytes × Bytes)) : Reliable envOf (addAll entries) := by
  induction entries with
  | nil => exact .pure _
  | cons e entries inductionHypothesis =>
      exact (reliable_add e.1 e.2).bind fun _ => inductionHypothesis

theorem reliable_writeIndexEntries (index : List (Nat × Bytes)) :
    Reliable envOf (writeIndexEntries index) := by
  induction index with
  | nil => exact .pure _
  | cons e index inductionHypothesis =>
      exact (reliable_write _).bind fun _ => (reliable_write _).bind fun _ =>
        (reliable_write _).bind fun _ => (Reliable.liftResult (.checkedAdd _ _ _)).bind fun _ =>
          (reliable_advance _).bind fun _ => inductionHypothesis

theorem reliable_finish : Reliable envOf finish := by
  have flushLast : Reliable envOf flushLast := by
    refine Reliable.get.bind fun ⟨b, s⟩ => ?_
    simp only
    split
    · exact .pure _
    · exact reliable_flushBlock
  have writeIndexBlock : Reliable envOf writeIndexBlock :=
    Reliable.get.bind fun p => (reliable_write _).bind fun _ => (reliable_advance 4).bind fun _ =>
      reliable_writeIndexEntries _
  have writeBloom : Reliable envOf writeBloom := by
    refine Reliable.get.bind fun p => ?_
    refine Reliable.bind (.liftResult ?_) fun bloom =>
      (reliable_write _).bind fun _ => reliable_advance _
    obtain ⟨bloom, built, -⟩ := BloomFilter.build_ok p.1.allKeys defaultBitsPerKey
    rw [built]
    exact .ok bloom
  refine flushLast.bind fun _ => Reliable.get.bind fun p => ?_
  refine writeIndexBlock.bind fun _ => Reliable.get.bind fun q => ?_
  exact writeBloom.bind fun _ => (reliable_write _).bind fun _ => (reliable_write _).bind fun _ =>
    reliable_flushBuf

theorem Reliable.orDrop {x : M Unit} (inner : Reliable envOf x) : Reliable envOf (orDrop x) := by
  intro p faultless
  obtain ⟨noErr, same⟩ := inner p faultless
  refine ⟨fun k p' failed => ?_, fun u p' ended => same u p' (ends_orDrop.mp ended)⟩
  unfold Fails SSTableBuilder.orDrop at failed
  cases outcome : x p with
  | ok u q => simp [outcome] at failed
  | error e q =>
      simp only [outcome] at failed
      cases failed
      exact noErr k q outcome

theorem reliable_build (path : FileName) (blockSize : Nat) (entries : List (Bytes × Bytes)) :
    ReliableSys (build path blockSize entries) := by
  refine Reliable.bind ((reliable_createTruncate path).bind fun _ => .pure _) fun b => ?_
  exact Reliable.zoom envOf
    (Reliable.orDrop ((reliable_addAll entries).bind fun _ => reliable_finish))
    (fun _ => rfl) (fun _ _ same => same)

end SSTableBuilder

/-! ## Reading tables and compacting -/

namespace SSTableReader

theorem iterFrom_notErr (r : SSTableReader) (n i : Nat) (c c' : Option BlockCache) (k : KvError) :
    ¬ Fails (r.iterFrom n i) c (.err k) c' := by
  induction n generalizing i c with
  | zero => exact fun failed => fails_pure.mp failed
  | succ n inductionHypothesis =>
      intro failed
      unfold Fails iterFrom at failed
      cases loaded : r.loadBlock i c with
      | ok block c₁ =>
          simp only [loaded] at failed
          rcases fails_bind.mp failed with early | ⟨rest, c₂, -, late⟩
          · exact inductionHypothesis (i + 1) c₁ early
          · exact fails_pure.mp late
      | error e c₁ =>
          cases e with
          | err k' => simp [loaded] at failed
          | panic => simp [loaded] at failed
          | outOfFuel => simp [loaded] at failed

/-- The iterator never reports an error. -/
theorem iter_notErr (r : SSTableReader) (c c' : Option BlockCache) (k : KvError) :
    ¬ Fails r.iter c (.err k) c' :=
  r.iterFrom_notErr _ _ c c' k

end SSTableReader

namespace Engine

variable {w w' : World} {k : KvError}

abbrev ReliableEngine (x : EngineM α) : Prop := Reliable (fun w : World => w.sys.env) x

theorem reliable_self : ReliableEngine self := Reliable.get.bind fun _ => .pure _

theorem reliable_modifySelf (f : Engine → Engine) : ReliableEngine (modifySelf f) :=
  .change fun _ => rfl

theorem reliable_onSys {x : SysM α} (inner : ReliableSys x) : ReliableEngine (onSys x) :=
  inner.zoom Sys.env (fun _ => rfl) (fun _ _ same => same)

theorem reliable_readTable (r : SSTableReader) : ReliableEngine (onCache r.iter) := by
  intro w _
  refine ⟨fun k w' failed => ?_, fun entries w' ended => ?_⟩
  · obtain ⟨c, failedInner, -⟩ := fails_zoom.mp failed
    exact r.iter_notErr _ _ _ failedInner
  · obtain ⟨c, -, rfl⟩ := ends_onCache.mp ended
    rfl

theorem reliable_mergeTables (ids : List Nat) (all : SortedMap Bytes Bytes) :
    ReliableEngine (mergeTables ids all) := by
  induction ids generalizing all with
  | nil => exact .pure _
  | cons id ids inductionHypothesis =>
      refine reliable_self.bind fun e => ?_
      split
      · exact (reliable_readTable _).bind fun _ => inductionHypothesis _
      · exact inductionHypothesis _

theorem reliable_retainVisible (entries : List (Bytes × Bytes)) :
    ReliableSys (retainVisible entries) := by
  induction entries with
  | nil => exact .pure _
  | cons e entries inductionHypothesis =>
      refine Reliable.bind (.of_run fun s _ => ?_) fun keep =>
        inductionHypothesis.bind fun later => .pure _
      obtain ⟨n, run⟩ := isVisible_run s false e.2
      exact ⟨_, _, run, rfl⟩

theorem reliable_takeSstId : ReliableEngine takeSstId :=
  reliable_self.bind fun _ => (Reliable.liftResult (.checkedAdd _ _ _)).bind fun _ =>
    (reliable_modifySelf _).bind fun _ => .pure _

theorem reliable_writeSst (sstId : Nat) (entries : List (Bytes × Bytes)) :
    ReliableEngine (writeSst sstId entries) :=
  reliable_self.bind fun _ => reliable_onSys (SSTableBuilder.reliable_build _ _ _)

theorem metaOf_notErr (sstId level : Nat) (entries : List (Bytes × Bytes)) :
    (metaOf sstId level entries).NotErr :=
  .bind (.orPanic _) fun _ => .bind (.orPanic _) fun _ => .ok _

theorem reliable_saveManifest : ReliableEngine saveManifest :=
  reliable_self.bind fun _ => reliable_onSys (reliable_save _ _)

theorem reliable_removeTables (ids : List Nat) : ReliableEngine (removeTables ids) := by
  induction ids with
  | nil => exact .pure _
  | cons id ids inductionHypothesis =>
      refine (reliable_modifySelf _).bind fun _ => (reliable_onSys ?_).bind fun _ =>
        inductionHypothesis
      intro s _
      refine ⟨fun k s' failed => fails_ignoring.mp failed, fun u s' ended => ?_⟩
      rcases ends_ignoring_removeFile ended with did | did
      · exact did.env
      · exact did.env

theorem reliable_finishCompaction (ids : List Nat) : ReliableEngine (finishCompaction ids) :=
  (reliable_removeTables ids).bind fun _ => reliable_saveManifest.bind fun _ =>
    reliable_modifySelf _

theorem overlapping_notErr (src dst : List SSTMeta) : (overlapping src dst).NotErr :=
  .bind (.orPanic _) fun _ => .bind (.orPanic _) fun _ => .ok _

/-- Install the merged entries in manifest and readers once the new file is open. -/
theorem reliable_install (level : Nat) (sst : SSTMeta) (r : SSTableReader) : ReliableEngine (do
    modifySelf (fun e => { e with manifest := e.manifest.addSst level sst })
    let e ← self
    let pushed ← liftResult (orPanic (e.manifest.sstsAtLevel level).getLast?)
    modifySelf (fun e => { e with sstReaders := e.sstReaders ++ [(pushed, r)] })) :=
  (reliable_modifySelf _).bind fun _ => reliable_self.bind fun _ =>
    (Reliable.liftResult (.orPanic _)).bind fun _ => reliable_modifySelf _

/-- When no file operation fails, an error of `installMerged` comes from opening the new
file, which is then there. -/
theorem fails_installMerged {level : Nat} {entries : List (Bytes × Bytes)}
    (faultless : w.sys.env.Faultless) (failed : Fails (installMerged level entries) w (.err k) w') :
    (w'.sys.dir.lookup (.sst w.eng.nextSstId)).isSome := by
  rcases fails_bind.mp failed with early | ⟨sstId, w₁, took, failed⟩
  · exact absurd early (reliable_takeSstId.notErr faultless)
  have faultless₁ : w₁.sys.env.Faultless := by
    rw [reliable_takeSstId.env_eq faultless took]
    exact faultless
  obtain ⟨rfl, -, -⟩ := ends_takeSstId took
  rcases fails_bind.mp failed with early | ⟨u, w₂, wrote, failed⟩
  · exact absurd early ((reliable_writeSst _ _).notErr faultless₁)
  have faultless₂ : w₂.sys.env.Faultless := by
    rw [(reliable_writeSst _ _).env_eq faultless₁ wrote]
    exact faultless₁
  simp only [writeSst, ends_bind, ends_self, ends_onSys] at wrote
  obtain ⟨e, w₀, ⟨rfl, rfl⟩, s, built, rfl⟩ := wrote
  obtain ⟨data, created, -⟩ := SSTableBuilder.ends_build built
  rcases fails_bind.mp failed with early | ⟨sst, w₃, described, failed⟩
  · exact absurd (fails_liftResult.mp early).1 (metaOf_notErr _ _ _ k)
  obtain ⟨-, rfl⟩ := ends_liftResult.mp described
  rcases fails_bind.mp failed with opening | ⟨r, w₄, opened, failed⟩
  · obtain ⟨s', opens, rfl⟩ := fails_zoom.mp opening
    obtain ⟨s₁, read⟩ := readFile_run faultless₂ created.present
    rcases fails_bind.mp opens with early | ⟨data', s₂, read', parses⟩
    · exact absurd early (show Ends _ _ _ _ from read).not_fails
    · obtain ⟨-, rfl⟩ := fails_liftResult.mp parses
      obtain ⟨present, did⟩ := ends_readFile read'
      change (s'.dir.lookup (.sst w.eng.nextSstId)).isSome
      rw [did.lookup_of_ne (by simp), present]
      rfl
  · refine absurd failed ((reliable_install level sst r).notErr ?_)
    rw [((Extending.onSys (advances_openWithCache _ _)) _ _ _ opened).sys.env]
    exact faultless₂

/-- Merging changes nothing but the cache. -/
theorem ends_mergeTables_only {ids : List Nat} {all merged : SortedMap Bytes Bytes}
    (run : Ends (mergeTables ids all) w merged w') :
    ∃ blockCache, w' = { w with eng := { w.eng with blockCache } } := by
  induction ids generalizing w all with
  | nil => exact ⟨_, (ends_pure.mp run).2.symm⟩
  | cons id ids inductionHypothesis =>
      obtain ⟨e, w₁, this, rest⟩ := ends_bind.mp run
      obtain ⟨rfl, rfl⟩ := ends_self.mp this
      split at rest
      · obtain ⟨entries, w₂, read, rest⟩ := ends_bind.mp rest
        obtain ⟨c, -, rfl⟩ := ends_onCache.mp read
        obtain ⟨blockCache, rfl⟩ := inductionHypothesis rest
        exact ⟨blockCache, rfl⟩
      · exact inductionHypothesis rest

/-- **When no file operation fails, a compaction that reports an error has already written
a new file.** -/
theorem fails_compactLevel {level : Nat} (faultless : w.sys.env.Faultless)
    (failed : Fails (compactLevel level) w (.err k) w') :
    (w'.sys.dir.lookup (.sst w.eng.nextSstId)).isSome := by
  rcases fails_bind.mp failed with early | ⟨e, w₁, this, failed⟩
  · exact absurd early (reliable_self.notErr faultless)
  obtain ⟨rfl, rfl⟩ := ends_self.mp this
  rcases fails_bind.mp failed with early | ⟨dst, w₂, overlap, failed⟩
  · exact absurd (fails_liftResult.mp early).1 (overlapping_notErr _ _ k)
  obtain ⟨-, rfl⟩ := ends_liftResult.mp overlap
  rcases fails_bind.mp failed with early | ⟨merged, w₃, merges, failed⟩
  · exact absurd early ((reliable_mergeTables _ _).notErr faultless)
  obtain ⟨blockCache, rfl⟩ := ends_mergeTables_only merges
  rcases fails_bind.mp failed with early | ⟨entries, w₄, retains, failed⟩
  · exact absurd early ((reliable_onSys (reliable_retainVisible _)).notErr faultless)
  have faultless₄ : w₄.sys.env.Faultless := by
    rw [((Extending.onSys (advances_retainVisible _)) _ _ _ retains).sys.env]
    exact faultless
  obtain ⟨s, -, rfl⟩ := ends_onSys.mp retains
  split at failed
  · exact absurd failed ((reliable_finishCompaction _).notErr faultless₄)
  · rcases fails_bind.mp failed with installs | ⟨u, w₅, installed, finishes⟩
    · exact fails_installMerged (w := ⟨{ w₂.eng with blockCache }, s⟩) faultless₄ installs
    · refine absurd finishes ((reliable_finishCompaction _).notErr ?_)
      rw [((extending_installMerged _ _) _ _ _ installed).sys.env]
      exact faultless₄

end Engine

/-! ## Reading a range -/

namespace SkipList

variable (s : SkipList)

theorem nextAt_notErr (p level : Nat) : (s.nextAt p level).NotErr :=
  .bind (.orPanic _) fun _ => .orPanic _

theorem walk_notErr (level : Nat) (key : Bytes) (fuel current : Nat) :
    (s.walk level key fuel current).NotErr := by
  induction fuel generalizing current with
  | zero =>
      intro e
      simp [walk]
  | succ fuel inductionHypothesis =>
      refine .bind (s.nextAt_notErr current level) fun next => ?_
      cases next with
      | none => exact .ok _
      | some p =>
          refine .bind (.orPanic _) fun n => ?_
          split
          · exact inductionHypothesis p
          · exact .ok _

theorem descend_notErr (key : Bytes) (levels current : Nat) :
    (s.descend key levels current).NotErr := by
  induction levels generalizing current with
  | zero => exact .ok _
  | succ level inductionHypothesis =>
      exact .bind (s.walk_notErr level key _ current) fun current =>
        .bind (inductionHypothesis current) fun _ => .ok _

theorem collect_notErr (more : Bytes → Bool) (fuel : Nat) (p : Option Nat) :
    (s.collect more fuel p).NotErr := by
  induction fuel generalizing p with
  | zero =>
      cases p with
      | none => exact .ok _
      | some p =>
          intro e
          simp [collect]
  | succ fuel inductionHypothesis =>
      cases p with
      | none => exact .ok _
      | some p =>
          refine .bind (.orPanic _) fun n => ?_
          split
          · exact .bind (s.nextAt_notErr p 0) fun next =>
              .bind (inductionHypothesis next) fun _ => .ok _
          · exact .ok _

theorem scan_notErr (start stop : Bytes) : (s.scan start stop).NotErr :=
  .bind (s.descend_notErr start _ _) fun _ => .bind (s.nextAt_notErr _ 0) fun _ =>
    s.collect_notErr _ _ _

end SkipList

theorem MemTable.scan_notErr (m : MemTable) (start stop : Bytes) : (m.scan start stop).NotErr := by
  have rest : ∀ older : List (Bytes × Bytes), Result.NotErr (do
      let newer ← m.active.scan start stop
      .ok (((SortedMap.empty.insertAll older).insertAll newer).entries)) :=
    fun older => .bind (m.active.scan_notErr start stop) fun newer => .ok _
  unfold scan
  split
  · next imm _ => exact .bind (imm.scan_notErr start stop) rest
  · exact rest []

namespace Engine

variable {w w' : World} {k : KvError}

theorem overlay_notErr (start stop : Bytes) (tables : List (SSTMeta × SSTableReader))
    (map : SortedMap Bytes Bytes) : ¬ Fails (overlay start stop tables map) w (.err k) w' := by
  induction tables generalizing w map with
  | nil => exact fails_pure.mp
  | cons p tables inductionHypothesis =>
      intro failed
      rcases fails_bind.mp failed with early | ⟨entries, w₁, -, late⟩
      · obtain ⟨c, failedInner, -⟩ := fails_zoom.mp early
        exact p.2.iter_notErr _ _ _ failedInner
      · exact inductionHypothesis _ late

theorem display_notErr (entries : List (Bytes × Bytes)) (s s' : Sys) :
    ¬ Fails (display entries) s (.err k) s' := by
  induction entries generalizing s with
  | nil => exact fails_pure.mp
  | cons b entries inductionHypothesis =>
      intro failed
      obtain ⟨n, run⟩ := isVisible_run s true b.2
      rw [Fails, display, bind_apply_ok run] at failed
      split at failed
      · obtain ⟨m, shows⟩ := displayValue_run (s.later n) b.2
        rw [bind_apply_ok shows] at failed
        rcases fails_bind.mp failed with early | ⟨later, s₁, -, late⟩
        · exact inductionHypothesis _ early
        · exact fails_pure.mp late
      · exact inductionHypothesis _ failed

/-- **A range read never reports an error**, whatever the tables hold. -/
theorem scan_notErr (start stop : Bytes) : ¬ Fails (scan start stop) w (.err k) w' := by
  intro failed
  rcases fails_bind.mp failed with early | ⟨e, w₁, this, failed⟩
  · exact (show Ends self w w.eng w from rfl).not_fails early
  rcases fails_bind.mp failed with early | ⟨map, w₂, -, failed⟩
  · exact overlay_notErr _ _ _ _ early
  rcases fails_bind.mp failed with early | ⟨recent, w₃, -, failed⟩
  · exact e.memtable.scan_notErr start stop k (fails_liftResult.mp early).1
  · obtain ⟨s, failedInner, -⟩ := fails_zoom.mp failed
    exact display_notErr _ _ _ failedInner

end Engine

end KvEngine
