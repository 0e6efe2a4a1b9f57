import KvEngine.Engine.Stored

/-!
# What a method touches, also when it fails

A method that returns early leaves half of its work behind.  Which files that work is
in can be said of every run, however it ends: `Touches P` bounds the changes of the
directory to files that satisfy `P`.
-/

namespace KvEngine

open Foundations

variable {α β : Type}

/-- From `s` to `s'` the directory changed in files that satisfy `P` only. -/
def Sys.Touches (P : FileName → Prop) (s s' : Sys) : Prop :=
  ∃ ops, s.Did ops s' ∧ ∀ op ∈ ops, P op.file

namespace Sys.Touches

variable {P Q : FileName → Prop} {s s' s'' : Sys}

theorem refl (s : Sys) : s.Touches P s := ⟨[], .refl s, by simp⟩

theorem trans (h₁ : s.Touches P s') (h₂ : s'.Touches P s'') : s.Touches P s'' := by
  obtain ⟨ops₁, did₁, only₁⟩ := h₁
  obtain ⟨ops₂, did₂, only₂⟩ := h₂
  refine ⟨ops₁ ++ ops₂, did₁.trans did₂, fun op member => ?_⟩
  rcases List.mem_append.mp member with first | second
  · exact only₁ op first
  · exact only₂ op second

theorem mono (touches : s.Touches P s') (weaker : ∀ f, P f → Q f) : s.Touches Q s' := by
  obtain ⟨ops, did, only⟩ := touches
  exact ⟨ops, did, fun op member => weaker _ (only op member)⟩

theorem of_did {ops : List FsOp} (did : s.Did ops s') (only : ∀ op ∈ ops, P op.file) :
    s.Touches P s' := ⟨ops, did, only⟩

theorem of_waiting (did : s.Did [] s') : s.Touches P s' := .of_did did (by simp)

theorem lookup_eq (touches : s.Touches P s') {f : FileName} (other : ¬ P f) :
    s'.dir.lookup f = s.dir.lookup f := by
  obtain ⟨ops, did, only⟩ := touches
  exact did.lookup_of_ne fun op member same => other (same ▸ only op member)

theorem goesOn (touches : s.Touches P s') : s.Extends s' := by
  obtain ⟨ops, did, -⟩ := touches
  exact ⟨ops, did⟩

end Sys.Touches

/-! ## File operations -/

section Files

variable {P : FileName → Prop}

theorem touches_bind {x : SysM α} {f : α → SysM β} (first : Always (Sys.Touches P) x)
    (rest : ∀ a, Always (Sys.Touches P) (f a)) : Always (Sys.Touches P) (x >>= f) :=
  always_bind .trans first rest

theorem touches_nextFault : Always (Sys.Touches P) nextFault := by
  refine Advances.always (fun s r s' run => ?_) fun s e s' failed => ?_
  · rw [(ends_nextFault.mp run).2]
    exact .of_waiting ⟨rfl, by simp, rfl, le_rfl⟩
  · cases failed

theorem touches_perform (op : FsOp) (only : P op.file) :
    Always (Sys.Touches P) (modify (fun s => s.perform op) : SysM PUnit) :=
  always_modify fun s => by
    have did : s.Did [op] (s.perform op) := ⟨rfl, rfl, rfl, le_rfl⟩
    exact .of_did did (by simpa using only)

theorem touches_createTruncate {f : FileName} (only : P f) :
    Always (Sys.Touches P) (createTruncate f) := by
  refine touches_bind touches_nextFault fun fault => ?_
  cases fault with
  | some n => exact always_throw .refl _
  | none => exact touches_perform _ only

theorem touches_openAppend {f : FileName} (only : P f) :
    Always (Sys.Touches P) (openAppend f) := by
  refine touches_bind touches_nextFault fun fault => ?_
  cases fault with
  | some n => exact always_throw .refl _
  | none =>
      refine touches_bind (always_get .refl) fun s => ?_
      split
      · exact always_pure .refl _
      · exact touches_perform _ only

theorem touches_writeFile {f : FileName} (only : P f) (data : Bytes) :
    Always (Sys.Touches P) (writeFile f data) := by
  refine touches_bind touches_nextFault fun fault => ?_
  cases fault with
  | some n => exact touches_bind (touches_perform _ only) fun _ => always_throw .refl _
  | none => exact touches_perform _ only

theorem touches_readFile (f : FileName) : Always (Sys.Touches P) (readFile f) := by
  refine touches_bind touches_nextFault fun fault => ?_
  cases fault with
  | some n => exact always_throw .refl _
  | none =>
      refine touches_bind (always_get .refl) fun s => ?_
      split
      · exact always_pure .refl _
      · exact always_throw .refl _

theorem touches_syncFile : Always (Sys.Touches P) syncFile := by
  refine touches_bind touches_nextFault fun fault => ?_
  cases fault with
  | some n => exact always_throw .refl _
  | none => exact always_pure .refl _

theorem touches_save (m : Manifest) {f : FileName} (only : P f) :
    Always (Sys.Touches P) (m.save f) :=
  touches_bind (touches_createTruncate only) fun _ =>
    touches_bind (touches_writeFile only _) fun _ => touches_syncFile

theorem touches_openWithCache (path : FileName) (id : Nat) :
    Always (Sys.Touches P) (SSTableReader.openWithCache path id) :=
  touches_bind (touches_readFile path) fun _ => always_liftResult .refl _

end Files

/-! ## Buffered writers and builders -/

namespace BufWriter

/-- A method of the writer touches no file but the writer's. -/
def Stays (p p' : BufWriter × Sys) : Prop :=
  p'.1.path = p.1.path ∧ p.2.Touches (· = p.1.path) p'.2

theorem Stays.refl (p : BufWriter × Sys) : Stays p p := ⟨rfl, .refl _⟩

theorem Stays.trans {p p' p'' : BufWriter × Sys} (h₁ : Stays p p') (h₂ : Stays p' p'') :
    Stays p p'' := ⟨h₂.1.trans h₁.1, h₁.2.trans (h₁.1 ▸ h₂.2)⟩

theorem stays_bind {x : M α} {f : α → M β} (first : Always Stays x)
    (rest : ∀ a, Always Stays (f a)) : Always Stays (x >>= f) :=
  always_bind (R := Stays) .trans first rest

theorem stays_flushBuf : Always Stays flushBuf := by
  have outcome : ∀ p p' : BufWriter × Sys, (flushBuf p = .ok () p' ∨ ∃ e, flushBuf p = .error e p') →
      Stays p p' := by
    rintro ⟨w, s⟩ p' run
    unfold flushBuf at run
    simp only [nextFault] at run
    by_cases empty : w.buf = []
    · simp only [if_pos empty] at run
      rcases run with ended | ⟨e, failed⟩
      · cases ended
        exact .refl _
      · cases failed
    · simp only [if_neg empty] at run
      cases fault : s.env.ioFault s.ioCount with
      | none =>
          simp only [fault] at run
          rcases run with ended | ⟨e, failed⟩
          · cases ended
            exact ⟨rfl, _, ⟨rfl, rfl, rfl, le_rfl⟩, by simp [FsOp.file]⟩
          · cases failed
      | some n =>
          simp only [fault] at run
          rcases run with ended | ⟨e, failed⟩
          · cases ended
          · cases failed
            exact ⟨rfl, _, ⟨rfl, rfl, rfl, le_rfl⟩, by simp [FsOp.file]⟩
  exact ⟨fun p _ p' ended => outcome p p' (Or.inl ended),
    fun p e p' failed => outcome p p' (Or.inr ⟨e, failed⟩)⟩

theorem stays_makeRoom (data : Bytes) : Always Stays (makeRoom data) := by
  refine stays_bind (always_get .refl) fun p => ?_
  split
  split
  · exact stays_flushBuf
  · exact always_pure .refl _

theorem stays_bufferOrWrite (data : Bytes) : Always Stays (bufferOrWrite data) := by
  have started : ∀ p, bufferOrWrite data p = (if data.length ≥ capacity then
      zoom Prod.snd (fun s p => (p.1, s)) (writeFile p.1.path data)
    else modify (fun p => ({ p.1 with buf := p.1.buf ++ data }, p.2)) : M Unit) p := fun p => by
    rw [bufferOrWrite, bind_apply_ok (rfl : get (m := M) p = _)]
  have zoomed : ∀ path, Always (Sys.Touches (· = path)) (writeFile path data) :=
    fun path => touches_writeFile (P := (· = path)) rfl data
  refine ⟨fun p u p' ended => ?_, fun p e p' failed => ?_⟩
  · rw [Ends, started, ← Ends] at ended
    split at ended
    · obtain ⟨s, wrote, rfl⟩ := ends_zoom.mp ended
      exact ⟨rfl, (zoomed p.1.path).ends _ _ _ wrote⟩
    · rw [ends_modify.mp ended]
      exact ⟨rfl, .refl _⟩
  · rw [Fails, started, ← Fails] at failed
    split at failed
    · obtain ⟨s, wrote, rfl⟩ := fails_zoom.mp failed
      exact ⟨rfl, (zoomed p.1.path).fails _ _ _ wrote⟩
    · exact absurd failed fails_modify.mp

theorem stays_writeAll (data : Bytes) : Always Stays (writeAll data) :=
  stays_bind (stays_makeRoom data) fun _ => stays_bufferOrWrite data

end BufWriter

namespace SSTableBuilder

/-- A method of the builder touches no file but the one it writes. -/
def Stays (p p' : SSTableBuilder × Sys) : Prop :=
  p'.1.file.path = p.1.file.path ∧ p.2.Touches (· = p.1.file.path) p'.2

theorem Stays.refl (p : SSTableBuilder × Sys) : Stays p p := ⟨rfl, .refl _⟩

theorem Stays.trans {p p' p'' : SSTableBuilder × Sys} (h₁ : Stays p p') (h₂ : Stays p' p'') :
    Stays p p'' := ⟨h₂.1.trans h₁.1, h₁.2.trans (h₁.1 ▸ h₂.2)⟩

theorem stays_bind {x : M α} {f : α → M β} (first : Always Stays x)
    (rest : ∀ a, Always Stays (f a)) : Always Stays (x >>= f) :=
  always_bind (R := Stays) .trans first rest

/-- A change of the builder's own fields. -/
theorem stays_modify {f : SSTableBuilder × Sys → SSTableBuilder × Sys}
    (path : ∀ p, (f p).1.file = p.1.file) (sys : ∀ p, (f p).2 = p.2) :
    Always Stays (modify f : M PUnit) :=
  always_modify fun p => ⟨by rw [path], by rw [sys]; exact .refl _⟩

theorem stays_onFile {x : BufWriter.M Unit} (inner : Always BufWriter.Stays x) :
    Always Stays
      (zoom (fun p => (p.1.file, p.2)) (fun q p => ({ p.1 with file := q.1 }, q.2)) x : M Unit) :=
  always_zoom inner fun _ _ stays => stays

theorem stays_write (data : Bytes) : Always Stays (write data) :=
  stays_onFile (BufWriter.stays_writeAll data)

theorem stays_advance (n : Nat) : Always Stays (advance n) := by
  refine stays_bind (always_get .refl) fun p => ?_
  split
  exact stays_bind (always_liftResult .refl _) fun _ => stays_modify (fun _ => rfl) fun _ => rfl

theorem stays_flushBlock : Always Stays flushBlock := by
  refine stays_bind (always_get .refl) fun p => ?_
  split
  exact stays_bind (always_liftResult .refl _) fun _ => stays_bind (stays_write _) fun _ =>
    stays_bind (stays_modify (fun _ => rfl) fun _ => rfl) fun _ =>
      stays_bind (stays_advance _) fun _ => stays_modify (fun _ => rfl) fun _ => rfl

theorem stays_add (key value : Bytes) : Always Stays (add key value) := by
  refine stays_bind (stays_bind (always_get .refl) fun p => ?_) fun _ =>
    stays_modify (fun _ => rfl) fun _ => rfl
  split
  split
  · exact stays_flushBlock
  · exact always_pure .refl _

theorem stays_addAll (entries : List (Bytes × Bytes)) : Always Stays (addAll entries) := by
  induction entries with
  | nil => exact always_pure .refl _
  | cons e entries inductionHypothesis =>
      exact stays_bind (stays_add e.1 e.2) fun _ => inductionHypothesis

theorem stays_writeIndexEntries (index : List (Nat × Bytes)) :
    Always Stays (writeIndexEntries index) := by
  induction index with
  | nil => exact always_pure .refl _
  | cons e index inductionHypothesis =>
      exact stays_bind (stays_write _) fun _ => stays_bind (stays_write _) fun _ =>
        stays_bind (stays_write _) fun _ => stays_bind (always_liftResult .refl _) fun _ =>
          stays_bind (stays_advance _) fun _ => inductionHypothesis

theorem stays_finish : Always Stays finish := by
  have flushLast : Always Stays flushLast := by
    refine stays_bind (always_get .refl) fun p => ?_
    split
    split
    · exact always_pure .refl _
    · exact stays_flushBlock
  have writeIndexBlock : Always Stays writeIndexBlock := by
    refine stays_bind (always_get .refl) fun p => ?_
    split
    exact stays_bind (stays_write _) fun _ => stays_bind (stays_advance _) fun _ =>
      stays_writeIndexEntries _
  have writeBloom : Always Stays writeBloom := by
    refine stays_bind (always_get .refl) fun p => ?_
    split
    exact stays_bind (always_liftResult .refl _) fun _ => stays_bind (stays_write _) fun _ =>
      stays_advance _
  exact stays_bind flushLast fun _ => stays_bind (always_get .refl) fun _ =>
    stays_bind writeIndexBlock fun _ => stays_bind (always_get .refl) fun _ =>
      stays_bind writeBloom fun _ => stays_bind (stays_write _) fun _ =>
        stays_bind (stays_write _) fun _ => stays_onFile BufWriter.stays_flushBuf

theorem stays_orDrop {x : M Unit} (inner : Always Stays x) : Always Stays (orDrop x) := by
  refine ⟨fun p u p' ended => inner.ends p u p' (ends_orDrop.mp ended), fun p e p' failed => ?_⟩
  unfold Fails orDrop at failed
  cases outcome : x p with
  | ok u q => simp [outcome] at failed
  | error e₁ q =>
      simp only [outcome] at failed
      cases failed
      obtain ⟨path, touches⟩ := inner.fails p _ q outcome
      obtain ⟨ops, did, leftover⟩ := BufWriter.drop_did q.1.file q.2
      refine ⟨path, touches.trans (.of_did did fun op member => ?_)⟩
      rcases leftover with ⟨-, rfl⟩ | ⟨data, rfl, -⟩
      · cases member
      · rw [List.mem_singleton.mp member]
        exact path

/-- **Building a table** touches its file only, also when it fails. -/
theorem touches_build {P : FileName → Prop} {path : FileName} (only : P path) (blockSize : Nat)
    (entries : List (Bytes × Bytes)) :
    Always (Sys.Touches P) (build path blockSize entries) := by
  have inner := stays_orDrop (stays_bind (stays_addAll entries) fun _ => stays_finish)
  have create : Always (Sys.Touches P) (createTruncate path) := touches_createTruncate only
  refine ⟨fun s u s' ended => ?_, fun s e s' failed => ?_⟩
  · simp only [build, new, ends_bind, ends_pure] at ended
    obtain ⟨b, s₁, ⟨u₁, s₂, created, rfl, rfl⟩, rest⟩ := ended
    obtain ⟨p, fills, rfl⟩ := ends_zoom.mp rest
    obtain ⟨-, touches⟩ := inner.ends _ _ _ fills
    exact (create.ends _ _ _ created).trans (touches.mono fun f same => same ▸ only)
  · rcases fails_bind.mp failed with early | ⟨b, s₁, news, late⟩
    · rcases fails_bind.mp early with creates | ⟨u, s₂, -, never⟩
      · exact create.fails _ _ _ creates
      · exact absurd never fails_pure.mp
    · simp only [new, ends_bind, ends_pure] at news
      obtain ⟨u₁, s₂, created, rfl, rfl⟩ := news
      obtain ⟨p, fills, rfl⟩ := fails_zoom.mp late
      obtain ⟨-, touches⟩ := inner.fails _ _ _ fills
      exact (create.ends _ _ _ created).trans (touches.mono fun f same => same ▸ only)

end SSTableBuilder

/-! ## Steps of the engine that fail -/

namespace Engine

variable {w w' : World} {e : Failure} {u : Unit}

theorem fails_onSys {x : SysM α} :
    Fails (onSys x) w e w' ↔ ∃ s, Fails x w.sys e s ∧ w' = { w with sys := s } :=
  fails_zoom

/-- A step on the outside world leaves the engine alone, however it ends. -/
theorem always_onSys {P : FileName → Prop} {x : SysM α} (touches : Always (Sys.Touches P) x) :
    Always (fun w w' => w' = { w with sys := w'.sys } ∧ w.sys.Touches P w'.sys) (onSys x) :=
  always_zoom touches fun _ _ touched => ⟨rfl, touched⟩

theorem always_writeSst (id : Nat) (entries : List (Bytes × Bytes)) :
    Always (fun w w' => w' = { w with sys := w'.sys } ∧ w.sys.Touches (· = .sst id) w'.sys)
      (writeSst id entries) := by
  have build : ∀ w : World, Always _ (onSys (SSTableBuilder.build _ w.eng.opts.blockSize entries)) :=
    fun w => always_onSys (SSTableBuilder.touches_build (P := (· = .sst id)) rfl _ _)
  refine ⟨fun w u w' ended => ?_, fun w e w' failed => ?_⟩
  · obtain ⟨e, w₁, this, rest⟩ := ends_bind.mp ended
    obtain ⟨rfl, rfl⟩ := ends_self.mp this
    exact (build w₁).ends _ _ _ rest
  · rcases fails_bind.mp failed with never | ⟨e', w₁, this, failed⟩
    · exact absurd never (show Ends self w w.eng w from rfl).not_fails
    · obtain ⟨rfl, rfl⟩ := ends_self.mp this
      exact (build w₁).fails _ _ _ failed

theorem fails_saveManifest (failed : Fails saveManifest w e w') :
    w' = { w with sys := w'.sys } ∧ w.sys.Touches (· = .manifest) w'.sys := by
  rcases fails_bind.mp failed with never | ⟨e', w₁, this, failed⟩
  · exact absurd never (show Ends self w w.eng w from rfl).not_fails
  · obtain ⟨rfl, rfl⟩ := ends_self.mp this
    exact (always_onSys (touches_save (P := (· = .manifest)) _ rfl)).fails _ _ _ failed

/-- A reset that fails leaves the old writer in place. -/
theorem fails_resetWal (failed : Fails resetWal w e w') :
    w' = { w with sys := w'.sys } ∧ w.sys.Touches (· = .wal 1) w'.sys := by
  have truncates := always_onSys (touches_createTruncate (P := (· = .wal 1)) rfl)
  rcases fails_bind.mp failed with early | ⟨u, w₁, truncated, failed⟩
  · exact truncates.fails _ _ _ early
  obtain ⟨same₁, touches₁⟩ := truncates.ends _ _ _ truncated
  rcases fails_bind.mp failed with opening | ⟨wal, w₂, -, never⟩
  · have openWal : Always (Sys.Touches (· = .wal 1)) (WALWriter.openWal (.wal 1)) :=
      touches_bind (touches_openAppend rfl) fun _ => always_pure .refl _
    obtain ⟨same₂, touches₂⟩ := (always_onSys openWal).fails _ _ _ opening
    refine ⟨?_, touches₁.trans touches₂⟩
    rw [same₂, same₁]
  · exact absurd never fails_modify.mp

/-! ### The log -/

/-- A method of the log's writer changes nothing else in the engine. -/
def OnlyLogs (w w' : World) : Prop :=
  (∃ wal, w'.eng = { w.eng with wal }) ∧ w'.eng.wal.file.path = w.eng.wal.file.path ∧
    w.sys.Touches (· = w.eng.wal.file.path) w'.sys

theorem OnlyLogs.refl (w : World) : OnlyLogs w w := ⟨⟨_, rfl⟩, rfl, .refl _⟩

theorem OnlyLogs.trans {w₁ : World} (h₁ : OnlyLogs w w₁) (h₂ : OnlyLogs w₁ w') : OnlyLogs w w' := by
  obtain ⟨⟨wal₁, eng₁⟩, path₁, touches₁⟩ := h₁
  obtain ⟨⟨wal₂, eng₂⟩, path₂, touches₂⟩ := h₂
  exact ⟨⟨wal₂, by rw [eng₂, eng₁]⟩, path₂.trans path₁, touches₁.trans (path₁ ▸ touches₂)⟩

theorem onlyLogs_bind {x : EngineM α} {f : α → EngineM β} (first : Always OnlyLogs x)
    (rest : ∀ a, Always OnlyLogs (f a)) : Always OnlyLogs (x >>= f) :=
  always_bind (R := OnlyLogs) .trans first rest

/-- A method of the writer touches its file only. -/
def WalStays (p p' : WALWriter × Sys) : Prop :=
  BufWriter.Stays (p.1.file, p.2) (p'.1.file, p'.2)

theorem onlyLogs_onWal {x : WALWriter.M α} (inner : Always WalStays x) :
    Always OnlyLogs (onWal x) :=
  always_zoom inner fun _ _ stays => ⟨⟨_, rfl⟩, stays.1, stays.2⟩

theorem walStays_onFile {x : BufWriter.M α} (inner : Always BufWriter.Stays x) :
    Always WalStays (WALWriter.onFile x) :=
  always_zoom inner fun _ _ stays => stays

theorem walStays_bind {x : WALWriter.M α} {f : α → WALWriter.M β} (first : Always WalStays x)
    (rest : ∀ a, Always WalStays (f a)) : Always WalStays (x >>= f) :=
  always_bind (R := WalStays) BufWriter.Stays.trans first rest

theorem onlyLogs_appendRecord (record : Record) :
    Always OnlyLogs (onWal (WALWriter.appendRecord record)) := by
  refine onlyLogs_onWal (walStays_bind (always_get fun _ => BufWriter.Stays.refl _) fun p => ?_)
  split
  exact walStays_onFile (BufWriter.stays_writeAll _)

theorem onlyLogs_walFlush : Always OnlyLogs (onWal WALWriter.flush) :=
  onlyLogs_onWal (walStays_bind (walStays_onFile BufWriter.stays_flushBuf) fun _ =>
    always_zoom (touches_syncFile (P := fun _ => False)) fun _ _ touches =>
      ⟨rfl, touches.mono fun _ never => never.elim⟩)

theorem onlyLogs_syncWal : Always OnlyLogs syncWal := by
  refine onlyLogs_bind (always_bind (R := OnlyLogs) .trans (always_get .refl) fun _ =>
    always_pure .refl _) fun e => ?_
  split
  · exact onlyLogs_walFlush
  · exact always_pure .refl _

theorem onlyLogs_logBatch (ops : List BatchOp) : Always OnlyLogs (logBatch ops) := by
  induction ops with
  | nil => exact always_pure .refl _
  | cons op ops inductionHypothesis =>
      exact onlyLogs_bind (onlyLogs_appendRecord _) fun _ => inductionHypothesis

end Engine

end KvEngine
