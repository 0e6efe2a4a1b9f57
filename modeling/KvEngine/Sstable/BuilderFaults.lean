import KvEngine.Foundations.Shadowing
import KvEngine.Sstable.BuilderSpec

/-!
# A fault makes the builder return an error

Whatever the builder does while all file operations succeed, it does in every environment, up
to the first operation that fails; there it returns the I/O error.
-/

namespace KvEngine

open Foundations

/-- The same world, in which no file operation fails. -/
def Sys.calm (s : Sys) : Sys := { s with env := { s.env with ioFault := fun _ => none } }

/-- An `Err` was returned. -/
def ReturnedErr (e : Failure) : Prop := ∃ k, e = .err k

/-- A computation on the system that only a returned error keeps from its calm run. -/
abbrev ShadowsSys {α : Type} (x : SysM α) : Prop := Shadows Sys.calm ReturnedErr x

theorem faultless_calm (s : Sys) : s.calm.env.Faultless := fun _ => rfl

/-- An operation that stops at a fault, and otherwise goes on. -/
theorem shadows_nextFault {α : Type} {f : Option Nat → SysM α}
    (stops : ∀ n s, ∃ s', Fails (f (some n)) s ioError s') (goes : ShadowsSys (f none)) :
    ShadowsSys (nextFault >>= f) := by
  intro s a t run
  let next : Sys := { s with ioCount := s.ioCount + 1 }
  have run' : Ends (f none) next.calm a t := run
  cases fault : s.env.ioFault s.ioCount with
  | none =>
      have outcome : nextFault s = .ok none next := by rw [nextFault, fault]
      rcases goes next a t run' with ⟨e, s', failed, reason⟩ | ⟨s', ended, same⟩
      · exact Or.inl ⟨e, s', (bind_apply_ok outcome).trans failed, reason⟩
      · exact Or.inr ⟨s', (bind_apply_ok outcome).trans ended, same⟩
  | some n =>
      have outcome : nextFault s = .ok (some n) next := by rw [nextFault, fault]
      obtain ⟨s', failed⟩ := stops n next
      exact Or.inl ⟨ioError, s', (bind_apply_ok outcome).trans failed, _, rfl⟩

theorem shadows_createTruncate (f : FileName) : ShadowsSys (createTruncate f) :=
  shadows_nextFault (fun _ s => ⟨s, rfl⟩) (.change fun _ => rfl)

theorem shadows_writeFile (f : FileName) (data : Bytes) : ShadowsSys (writeFile f data) :=
  shadows_nextFault (fun _ _ => ⟨_, rfl⟩) (.change fun _ => rfl)

namespace BufWriter

/-- A writer in a world without faults. -/
def calm (p : BufWriter × Sys) : BufWriter × Sys := (p.1, p.2.calm)

theorem shadows_flushBuf : Shadows calm ReturnedErr flushBuf := by
  rintro ⟨w, s⟩ u t run
  have run : flushBuf (w, s.calm) = .ok u t := run
  by_cases empty : w.buf = []
  · simp only [flushBuf, if_pos empty] at run
    cases run
    exact Or.inr ⟨(w, s), if_pos empty, rfl⟩
  · simp only [flushBuf, if_neg empty, nextFault_run (faultless_calm s)] at run
    cases run
    simp only [Ends, Fails, flushBuf, if_neg empty, nextFault]
    cases s.env.ioFault s.ioCount with
    | none => exact Or.inr ⟨_, rfl, rfl⟩
    | some n => exact Or.inl ⟨_, _, rfl, _, rfl⟩

theorem shadows_writeAll (data : Bytes) : Shadows calm ReturnedErr (writeAll data) := by
  have room : Shadows calm ReturnedErr (makeRoom data) := by
    refine .get_bind (fun _ => rfl) fun ⟨w, s⟩ => ?_
    show Shadows calm ReturnedErr (if _ then flushBuf else pure ())
    split
    · exact shadows_flushBuf
    · exact .pure ()
  refine room.bind fun _ => .get_bind (fun _ => rfl) fun ⟨w, s⟩ => ?_
  show Shadows calm ReturnedErr (if _ then zoom _ _ _ else modify _)
  split
  · exact .zoom (shadows_writeFile w.path data) (fun _ => rfl) fun _ _ => rfl
  · exact .change fun _ => rfl

end BufWriter

namespace SSTableBuilder

/-- A builder in a world without faults. -/
def calm (p : SSTableBuilder × Sys) : SSTableBuilder × Sys := (p.1, p.2.calm)

/-- A step of the builder that only a returned error keeps from its calm run. -/
abbrev ShadowsM (x : M Unit) : Prop := Shadows calm ReturnedErr x

theorem shadows_write (data : Bytes) : ShadowsM (write data) :=
  .zoom (BufWriter.shadows_writeAll data) (fun _ => rfl) fun _ _ => rfl

theorem shadows_advance (n : Nat) : ShadowsM (advance n) :=
  .get_bind (fun _ => rfl) fun _ => (Shadows.liftResult _).bind fun _ => .change fun _ => rfl

theorem shadows_flushBlock : ShadowsM flushBlock :=
  .get_bind (fun _ => rfl) fun _ => (Shadows.liftResult _).bind fun _ =>
    (shadows_write _).bind fun _ => Shadows.bind (.change fun _ => rfl) fun _ =>
      (shadows_advance _).bind fun _ => .change fun _ => rfl

theorem shadows_add (key value : Bytes) : ShadowsM (add key value) := by
  refine Shadows.bind (.get_bind (fun _ => rfl) fun ⟨b, s⟩ => ?_) fun _ => .change fun _ => rfl
  show ShadowsM (if _ then flushBlock else pure ())
  split
  · exact shadows_flushBlock
  · exact .pure ()

theorem shadows_addAll (entries : List (Bytes × Bytes)) : ShadowsM (addAll entries) := by
  induction entries with
  | nil => exact .pure ()
  | cons e entries inductionHypothesis =>
      exact (shadows_add e.1 e.2).bind fun _ => inductionHypothesis

theorem shadows_writeIndexEntries (index : List (Nat × Bytes)) :
    ShadowsM (writeIndexEntries index) := by
  induction index with
  | nil => exact .pure ()
  | cons e index inductionHypothesis =>
      exact (shadows_write _).bind fun _ => (shadows_write _).bind fun _ =>
        (shadows_write _).bind fun _ => (Shadows.liftResult _).bind fun _ =>
          (shadows_advance _).bind fun _ => inductionHypothesis

theorem shadows_flushLast : ShadowsM flushLast := by
  refine .get_bind (fun _ => rfl) fun ⟨b, s⟩ => ?_
  show ShadowsM (if _ then pure () else flushBlock)
  split
  · exact .pure ()
  · exact shadows_flushBlock

theorem shadows_writeIndexBlock : ShadowsM writeIndexBlock :=
  .get_bind (fun _ => rfl) fun _ => (shadows_write _).bind fun _ =>
    (shadows_advance 4).bind fun _ => shadows_writeIndexEntries _

theorem shadows_writeBloom : ShadowsM writeBloom :=
  .get_bind (fun _ => rfl) fun _ => (Shadows.liftResult _).bind fun _ =>
    (shadows_write _).bind fun _ => shadows_advance _

theorem shadows_writeFooter (indexOffset bloomOffset : Nat) :
    ShadowsM (writeFooter indexOffset bloomOffset) :=
  (shadows_write _).bind fun _ => (shadows_write _).bind fun _ =>
    .zoom BufWriter.shadows_flushBuf (fun _ => rfl) fun _ _ => rfl

theorem shadows_finish : ShadowsM finish :=
  shadows_flushLast.bind fun _ => .get_bind (fun _ => rfl) fun _ =>
    shadows_writeIndexBlock.bind fun _ => .get_bind (fun _ => rfl) fun _ =>
      shadows_writeBloom.bind fun _ => shadows_writeFooter _ _

/-- A builder that is dropped has given up already. -/
theorem Shadows.orDrop {x : M Unit} (inner : ShadowsM x) : ShadowsM (orDrop x) := by
  intro p u t run
  rcases inner p u t (ends_orDrop.mp run) with ⟨e, q, failed, reason⟩ | ⟨q, ended, same⟩
  · have outcome : x p = .error e q := failed
    refine Or.inl ⟨e, (q.1, q.1.file.drop q.2), ?_, reason⟩
    unfold Fails SSTableBuilder.orDrop
    rw [outcome]
  · exact Or.inr ⟨q, ends_orDrop.mpr ended, same⟩

/-- **Building** ends as it does without faults, or with an `Err`. -/
theorem shadows_build (path : FileName) (blockSize : Nat) (entries : List (Bytes × Bytes)) :
    ShadowsSys (build path blockSize entries) :=
  Shadows.bind ((shadows_createTruncate path).bind fun _ => .pure _) fun _ =>
    .zoom (Shadows.orDrop ((shadows_addAll entries).bind fun _ => shadows_finish))
      (fun _ => rfl) fun _ _ => rfl

end SSTableBuilder

end KvEngine
