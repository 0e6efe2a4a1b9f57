import KvEngine.Properties.CutShort
import KvEngine.Properties.ManifestFormat

/-!
# Crash safety of a database that forgets nothing

A database with a single level whose log is synced may be killed at any moment, between two
calls, on the way through a call or through `close`, any number of times.  What was answered
is there when the directory is opened again, and of a call that was not answered there is a
first part of what it stores.

A directory whose manifest is torn is not opened any more: it is refused with an error.
-/

namespace KvEngine

open Foundations Engine

variable {w w' : World} {t : Nat} {stores : List Store}

/-! ## Torn manifests -/

/-- A manifest that is torn is not decoded. -/
theorem decode_torn {m : Manifest} {part : Bytes} (begins : part <+: m.encode)
    (proper : part ≠ m.encode) (decodes : Manifest.decode m.encode = .ok m.reloaded) :
    ∃ msg, Manifest.decode part = corruption msg := by
  cases decoded : Manifest.decode part with
  | ok m' =>
      exfalso
      obtain ⟨first, fits, -⟩ := (Manifest.meets_decode part).of_ok decoded
      obtain ⟨rest, whole⟩ := first.trans begins
      -- the whole manifest would be decoded to the same
      have same := Manifest.decode_append fits rest
      rw [whole, decodes] at same
      have equal : m.encode = m'.encode := by
        rw [← Reopened.encode_reloaded m, ← Reopened.encode_reloaded m', Except.ok.inj same]
      rw [← equal] at first
      exact proper (begins.eq_of_length_le first.length_le)
  | error failure =>
      obtain ⟨e, rfl, msg, rfl⟩ := (Manifest.meets_decode part).of_error decoded
      exact ⟨msg, rfl⟩

/-- A manifest that an engine has saved can be decoded. -/
theorem Resting.decodes (resting : Resting w) (fits : FilesFit w.sys) :
    Manifest.decode w.eng.manifest.encode = .ok w.eng.manifest.reloaded := by
  have loads := resting.stored.manifestOf_eq resting.inv resting.ids fits
  rcases resting.stored.manifest with present | ⟨-, new⟩
  · rw [manifestOf, present] at loads
    exact loads
  · rw [new]
    exact Manifest.decode_encode ⟨by decide, by simp [Manifest.new], by simp [Manifest.new]⟩

/-- **A directory with a torn manifest is refused.** -/
theorem fails_openWithOptions {m : Manifest} {s : Sys} (faultless : s.env.Faultless)
    (torn : ManifestTorn m s.dir) (decodes : Manifest.decode m.encode = .ok m.reloaded)
    (opts : Options) :
    ∃ msg s', Fails (openWithOptions opts) s (.err (.corruption msg)) s' := by
  obtain ⟨part, present, begins, proper⟩ := torn
  obtain ⟨msg, refused⟩ := decode_torn begins proper decodes
  obtain ⟨s₁, created⟩ := syncFile_run faultless
  have did := ends_syncFile created
  have found : s₁.dir.lookup .manifest = some part := by rw [did.dir]; exact present
  obtain ⟨s₂, read⟩ := readFile_run (s := s₁) (by rw [did.env]; exact faultless) found
  refine ⟨msg, s₂, fails_bind.mpr (Or.inr ⟨(), s₁, created, fails_bind.mpr (Or.inl ?_)⟩)⟩
  refine fails_bind.mpr (Or.inr ⟨true, s₁, ends_fileExists.mpr ⟨by rw [found]; rfl, rfl⟩, ?_⟩)
  refine fails_bind.mpr (Or.inr ⟨part, s₂, read, ?_⟩)
  rw [refused]
  rfl

/-- So it is not opened. -/
theorem ManifestTorn.not_opened {m : Manifest} {s s' : Sys} {opts : Options} {e : Engine}
    (torn : ManifestTorn m s.dir) (decodes : Manifest.decode m.encode = .ok m.reloaded) :
    ¬ Ends (openWithOptions opts) s e s' := by
  intro run
  obtain ⟨part, present, begins, proper⟩ := torn
  obtain ⟨msg, refused⟩ := decode_torn begins proper decodes
  have loads := (ends_openWithOptions run).1.manifest
  rw [manifestOf, present] at loads
  cases refused.symm.trans loads

/-! ## Lives of a database -/

/-- What a client asked to be stored, and whether it was answered. -/
structure Attempt where
  stores : List Store
  answered : Bool

/-- These stores survive the attempts: all of one that was answered, and a first part of one
that was not. -/
inductive Survived : List Attempt → List Store → Prop
  | start : Survived [] []
  | next {attempts : List Attempt} {stores kept : List Store} {attempt : Attempt}
      (before : Survived attempts stores) (first : kept <+: attempt.stores)
      (whole : attempt.answered = true → kept = attempt.stores) :
      Survived (attempts ++ [attempt]) (stores ++ kept)

theorem Survived.of_nil (survived : Survived [] stores) : stores = [] := by
  generalize none : ([] : List Attempt) = attempts at survived
  cases survived with
  | start => rfl
  | next => simp at none

theorem Survived.append {attempts new : List Attempt} {kept : List Store}
    (before : Survived attempts stores) (after : Survived new kept) :
    Survived (attempts ++ new) (stores ++ kept) := by
  induction after with
  | start => simpa only [List.append_nil] using before
  | next _ first whole inductionHypothesis =>
      rw [← List.append_assoc, ← List.append_assoc]
      exact inductionHypothesis.next first whole

/-- The ways in which a session ends, with the attempt that was cut short and what is left on
disk: the engine is closed, dropped or killed between two calls, or it is killed on the way
through a call or through `close`. -/
inductive Stopped (w : World) : List Attempt → Sys → Prop
  | left {s : Sys} (left : Left w s) : Stopped w [] s
  | inCall {w' : World} {s : Sys} {call : Call} (keys : call.KeysFit)
      (late : FreezesLate w (.write call)) (run : Ends call.run w () w') (fits : FilesFit w'.sys)
      (killed : KilledBetween w.sys w'.sys s) :
      Stopped w [⟨call.stores w.eng.nextSeq w.sys.time, false⟩] s
  | inClose {w' : World} {s : Sys} (run : Ends close w () w') (fits : FilesFit w'.sys)
      (killed : KilledBetween w.sys w'.sys s) : Stopped w [] s

theorem KilledBetween.extends {s s' killed : Sys} (between : KilledBetween s s' killed) :
    s.Extends killed := by
  obtain ⟨ops, until_, did, begins, left⟩ := between
  exact ⟨until_, left⟩

theorem Stopped.extends {new : List Attempt} {s : Sys} (stopped : Stopped w new s) :
    w.sys.Extends s := by
  cases stopped with
  | left isLeft => exact isLeft.extends
  | inCall _ _ _ _ killed => exact killed.extends
  | inClose _ _ killed => exact killed.extends

/-- At any moment the database is open, or there is only its directory. -/
inductive Moment
  | up (w : World)
  | down (s : Sys)

def Moment.sys : Moment → Sys
  | .up w => w.sys
  | .down s => s

/-- The life of a database with a single level and a synced log, and what its clients
attempted.  A session may end in any way, and the process may be killed in `openWithOptions`
as well. -/
inductive Lived (env : Env) : List Attempt → Moment → Prop
  | created : Lived env [] (.down (Sys.initial env))
  | opened {attempts : List Attempt} {s s' : Sys} {opts : Options} {e : Engine}
      (before : Lived env attempts (.down s)) (allowed : ForgetsNothing opts)
      (run : Ends (openWithOptions opts) s e s') : Lived env attempts (.up ⟨e, s'⟩)
  | killedInOpen {attempts : List Attempt} {s s' s'' : Sys} {opts : Options} {e : Engine}
      (before : Lived env attempts (.down s)) (run : Ends (openWithOptions opts) s e s')
      (killed : KilledBetween s s' s'') : Lived env attempts (.down s'')
  | served {attempts : List Attempt} {w w' : World} {request : Request} {response : Response}
      (before : Lived env attempts (.up w)) (keys : request.KeysFit) (late : FreezesLate w request)
      (run : Ends request.run w response w') :
      Lived env (attempts ++ [⟨request.stores w, true⟩]) (.up w')
  | stopped {attempts new : List Attempt} {w : World} {s : Sys}
      (before : Lived env attempts (.up w)) (stopped : Stopped w new s) :
      Lived env (attempts ++ new) (.down s)

/-! ## The invariant -/

/-- What is known of a directory that is not open. -/
inductive Remains (stores : List Store) (s : Sys) : Prop
  /-- Nothing has been done with it yet. -/
  | unused (none : stores = []) (dir : s.dir = ∅) (journal : s.journal = [])
  | whole (hasAll : HasAll stores s)
  /-- It is not opened any more. -/
  | torn {m : Manifest} (torn : ManifestTorn m s.dir)
      (decodes : Manifest.decode m.encode = .ok m.reloaded)

/-- What holds at a moment of a database with these stores. -/
def Moment.Holds (stores : List Store) : Moment → Prop
  | .up w => ForgetsNothing w.eng.opts ∧ Resting w ∧ Durable stores w
  | .down s => Remains stores s

theorem Remains.frame {s s' : Sys} (remains : Remains stores s) (dir : s'.dir = s.dir)
    (journal : s'.journal = s.journal) (env : s'.env = s.env) : Remains stores s' := by
  cases remains with
  | unused none empty new => exact .unused none (dir.trans empty) (journal.trans new)
  | whole hasAll => exact .whole (hasAll.frame dir journal env)
  | torn torn decodes => exact .torn (dir.symm ▸ torn) decodes

/-- The first session. -/
theorem Durable.created {opts : Options} {e : Engine} {s₀ s : Sys} (empty : s₀.dir = ∅)
    (new : s₀.journal = []) (run : Ends (openWithOptions opts) s₀ e s) : Durable [] ⟨e, s⟩ := by
  have begun := started_of_new empty new run
  have logs : OneLog s₀.dir := fun n _ => by rw [empty]; rfl
  refine ⟨.opened logs run, ⟨[], .opened logs (by rw [empty]; rfl) run, ?_⟩, fun level _ => ?_,
    fun t key => ?_⟩
  · rw [begun.active]
    exact .refl _
  · rw [begun.manifest, Manifest.sstsAtLevel]
    rfl
  · rw [visible, begun.versions]
    rfl

/-- **Opening** what is left on disk. -/
theorem Remains.opened {s s' : Sys} {opts : Options} {e : Engine} (remains : Remains stores s)
    (fits : FilesFit s) (run : Ends (openWithOptions opts) s e s') :
    Durable stores ⟨e, s'⟩ ∧ Resting ⟨e, s'⟩ := by
  cases remains with
  | unused none empty new =>
      rw [none]
      exact ⟨.created empty new run, Started.resting_of_new empty new run⟩
  | whole hasAll =>
      obtain ⟨e₀, rs, resting, leaves, file⟩ := hasAll
      exact leaves.opened resting fits file run
  | torn torn decodes => exact absurd run (torn.not_opened decodes)

/-- Opening makes the log file at most; killed on the way, the directory is as before or as
after it. -/
theorem Remains.killedInOpen {s s' s'' : Sys} {opts : Options} {e : Engine}
    (remains : Remains stores s) (fits : FilesFit s'') (run : Ends (openWithOptions opts) s e s')
    (killed : KilledBetween s s' s'') : Remains stores s'' := by
  obtain ⟨ops, until_, did, begins, left⟩ := killed
  have isOpen := did.unique (ends_openWithOptions run).2
  have short : ops.length ≤ 1 := by
    rw [isOpen, openOps]
    split <;> simp
  rcases Nat.eq_zero_or_pos until_.length with none | some
  · obtain rfl := List.length_eq_zero_iff.mp none
    exact remains.frame (by rw [left.dir, applyOps_nil]) (by rw [left.journal, List.append_nil])
      left.env
  · obtain rfl : until_ = ops := begins.eq_of_length_le (by omega)
    have dir : s''.dir = s'.dir := left.dir.trans did.dir.symm
    have journal : s''.journal = s'.journal := left.journal.trans did.journal.symm
    obtain ⟨durable, resting⟩ := remains.opened (fits.of_extends ⟨_, left⟩) run
    have fits' : FilesFit s' := by
      unfold FilesFit
      rw [← journal]
      exact fits
    exact .whole ((durable.hasAll resting fits').frame dir journal (left.env.trans did.env.symm))

/-- A request that is answered. -/
theorem Durable.request (durable : Durable stores w) (resting : Resting w)
    (allowed : ForgetsNothing w.eng.opts) {request : Request} {response : Response}
    (keys : request.KeysFit) (late : FreezesLate w request) (fits : FilesFit w'.sys)
    (run : Ends request.run w response w') : Durable (stores ++ request.stores w) w' := by
  rcases resting.ends_request_stores run with ⟨call, rfl, ran⟩ | ⟨none, observed⟩
  · exact durable.call resting ⟨allowed.2, late⟩ allowed.1 keys fits.withinLimits ran
  · rw [none, List.append_nil]
    exact durable.observed observed

/-- A call or `close` that was killed. -/
theorem Survives.remains {new : List Store} {s : Sys} {whole : Prop} {m : Manifest}
    (cut : ManifestTorn m s.dir ∨ Survives stores new whole s) (isWhole : whole)
    (decodes : Manifest.decode m.encode = .ok m.reloaded) :
    ∃ kept, kept <+: new ∧ Remains (stores ++ kept) s := by
  rcases cut with torn | ⟨e, rs, kept, first, resting, leaves, file⟩
  · exact ⟨[], List.nil_prefix, .torn torn decodes⟩
  · exact ⟨kept, first, .whole ⟨e, rs, resting, leaves, file isWhole⟩⟩

/-- However a session stops, everything remains that was answered, and a first part of the
attempt that was cut short. -/
theorem Durable.stopped (durable : Durable stores w) (resting : Resting w)
    (allowed : ForgetsNothing w.eng.opts) {new : List Attempt} {s : Sys}
    (stopped : Stopped w new s) (fits : FilesFit s) :
    ∃ kept, Survived new kept ∧ Remains (stores ++ kept) s := by
  cases stopped with
  | left isLeft =>
      refine ⟨[], .start, ?_⟩
      rw [List.append_nil]
      exact .whole (durable.left resting allowed.1 isLeft fits)
  | inCall keys late run fitsCall killed =>
      obtain ⟨ops, until_, did, begins, left⟩ := killed
      have cut := durable.survives_call resting ⟨allowed.2, late⟩ allowed.1 keys fitsCall run did
        (.of_begins begins) left
      have saved := (resting.ends_call keys fitsCall.withinLimits run).1
      obtain ⟨kept, first, remains⟩ := Survives.remains cut begins (saved.decodes fitsCall)
      exact ⟨kept, Survived.start.next first nofun, remains⟩
  | inClose run fitsClose killed =>
      obtain ⟨ops, until_, did, begins, left⟩ := killed
      have cut := durable.survives_close resting allowed.1 fitsClose run did (.of_begins begins) left
      have saved := resting.ends_close fitsClose.withinLimits run
      obtain ⟨kept, first, remains⟩ := Survives.remains cut trivial (saved.decodes fitsClose)
      rw [List.prefix_nil.mp first] at remains
      exact ⟨[], .start, remains⟩

/-- **What holds of a database that has lived.** -/
theorem Lived.holds {env : Env} {attempts : List Attempt} {m : Moment} (lived : Lived env attempts m)
    (fits : FilesFit m.sys) : ∃ stores, Survived attempts stores ∧ m.Holds stores := by
  induction lived with
  | created => exact ⟨[], .start, .unused rfl rfl rfl⟩
  | opened before allowed run inductionHypothesis =>
      obtain ⟨recovered, did⟩ := ends_openWithOptions run
      have fits₁ := fits.of_extends ⟨_, did⟩
      obtain ⟨stores, survived, remains⟩ := inductionHypothesis fits₁
      obtain ⟨durable, resting⟩ := remains.opened fits₁ run
      exact ⟨stores, survived, recovered.options ▸ allowed, resting, durable⟩
  | killedInOpen before run killed inductionHypothesis =>
      obtain ⟨stores, survived, remains⟩ := inductionHypothesis (fits.of_extends killed.extends)
      exact ⟨stores, survived, remains.killedInOpen fits run killed⟩
  | served before keys late run inductionHypothesis =>
      have goesOn := extending_request _ _ _ _ run
      obtain ⟨stores, survived, allowed, resting, durable⟩ :=
        inductionHypothesis (fits.of_extends goesOn.sys)
      exact ⟨_, survived.next (List.prefix_refl _) fun _ => rfl, goesOn.opts ▸ allowed,
        resting.ends_request keys fits.withinLimits run,
        durable.request resting allowed keys late fits run⟩
  | stopped before stopped inductionHypothesis =>
      obtain ⟨stores, survived, allowed, resting, durable⟩ :=
        inductionHypothesis (fits.of_extends stopped.extends)
      obtain ⟨kept, part, remains⟩ := durable.stopped resting allowed stopped fits
      exact ⟨_, survived.append part, remains⟩

/-- **Nothing that was answered is lost.**  However often the database was closed, dropped or
killed, it acts as the map of what was answered and, of each call that was not, of a first part
of what it stores. -/
theorem nothing_answered_is_lost {env : Env} {attempts : List Attempt}
    (lived : Lived env attempts (.up w)) (fits : FilesFit w.sys) :
    ∃ stores, Survived attempts stores ∧ ActsAs w stores := by
  obtain ⟨stores, survived, -, resting, durable⟩ := lived.holds fits
  exact ⟨stores, survived, actsAs_of_visible resting.inv fun t _ key => durable.mirrors t key⟩

/-- The second of two writes is killed while its flush writes the table. -/
theorem nothing_answered_is_lost_killed : ∃ (w : World) (attempts : List Attempt)
    (stores : List Store), Lived .steady attempts (.up w) ∧ Survived attempts stores ∧
      ActsAs w stores ∧ attempts.map Attempt.answered = [true, false] ∧
      answer (get [1]) w = .ok (some [7]) ∧ answer (get [2]) w = .ok (some [8]) := by
  let opts : Options := { memtableSize := 0, maxLevels := 1 }
  have allowed : ForgetsNothing opts := by unfold ForgetsNothing; decide
  have passed : passes (openWithOptions opts) (Sys.initial .steady) (fun e s =>
      passes (Request.write (.put [1] [7])).run ⟨e, s⟩ fun _ w =>
        passes (Call.put [2] [8]).run w fun _ w' =>
          passes (openWithOptions opts)
            (w.sys.killedAfter ((w.sys.changes w'.sys).take 2)) fun e s =>
              decide ((w'.sys.journal.map FsOp.added).sum < 2 ^ 32) &&
                (decide ((s.journal.map FsOp.added).sum < 2 ^ 32) &&
                  (passes (get [1]) ⟨e, s⟩ (fun x _ => x == some [7]) &&
                    passes (get [2]) ⟨e, s⟩ (fun x _ => x == some [8])))) = true := by
    decide +kernel
  obtain ⟨e, s, opened, rest⟩ := ends_of_passes passed
  obtain ⟨r, w, first, rest⟩ := ends_of_passes rest
  obtain ⟨u, w', second, rest⟩ := ends_of_passes rest
  obtain ⟨e₁, s₁, reopened, rest⟩ := ends_of_passes rest
  obtain ⟨few, rest⟩ := Bool.and_eq_true_iff.mp rest
  obtain ⟨few₁, rest⟩ := Bool.and_eq_true_iff.mp rest
  obtain ⟨one, two⟩ := Bool.and_eq_true_iff.mp rest
  have fits : (Request.write (.put [1] [7])).KeysFit ∧ (Call.put [2] [8]).KeysFit := by
    constructor <;> · rintro key (_ | ⟨_, ⟨⟩⟩); decide
  have late : ∀ w key value, FreezesLate w (.write (.put key value)) := by
    rintro w key value batch ⟨⟩
  have lived : Lived .steady _ (.up w) :=
    (Lived.created.opened allowed opened).served fits.1 (late _ _ _) first
  have lived' : Lived .steady _ (.up ⟨e₁, s₁⟩) :=
    (lived.stopped (.inCall fits.2 (late _ _ _) second (filesFit_of_added (of_decide_eq_true few))
      (killedBetween_take (extending_call _ _ _ _ second).sys 2))).opened allowed reopened
  obtain ⟨stores, survived, acts⟩ :=
    nothing_answered_is_lost lived' (filesFit_of_added (of_decide_eq_true few₁))
  exact ⟨_, _, stores, lived', survived, acts, rfl, answer_of_passes one, answer_of_passes two⟩

/-! ## In the middle of a write -/

/-- The next session acts as the map of what was left. -/
theorem Leaves.opens {e : Engine} {s : Sys} {rs : List Record}
    (leaves : Leaves e s.env.crc s.dir stores rs) (resting : Resting ⟨e, s⟩) (fits : FilesFit s)
    (faultless : s.env.Faultless) (opts : Options) :
    ∃ e' s', Ends (openWithOptions opts) s e' s' ∧ ActsAs ⟨e', s'⟩ stores := by
  obtain ⟨e', s', run⟩ := resting.reopens fits faultless (fun _ _ => rfl) leaves.log opts
  obtain ⟨resting', -, mirrors⟩ := leaves.reopened resting fits run
  exact ⟨e', s', run, actsAs_of_visible resting'.inv fun t _ key => mirrors t key⟩

/-- **Killed in the middle of a write.**  Even if the last operation has written a part of its
bytes only, the directory is opened, and the engine acts as the map of what was answered and of a
first part of what the call stores; or the manifest is torn, and the directory is refused as
corrupt. -/
theorem killed_within_call {env : Env} {attempts : List Attempt} {s : Sys} {call : Call}
    (lived : Lived env attempts (.up w)) (keys : call.KeysFit) (late : FreezesLate w (.write call))
    (run : Ends call.run w () w') (fits : FilesFit w'.sys) (killed : KilledWithin w.sys w'.sys s)
    (fitsLeft : FilesFit s) (faultless : s.env.Faultless) (opts : Options) :
    (∃ stores, Survived (attempts ++ [⟨call.stores w.eng.nextSeq w.sys.time, false⟩]) stores ∧
        ∃ e s', Ends (openWithOptions opts) s e s' ∧ ActsAs ⟨e, s'⟩ stores) ∨
      ManifestTorn w'.eng.manifest s.dir ∧
        ∃ msg s', Fails (openWithOptions opts) s (.err (.corruption msg)) s' := by
  obtain ⟨ops, until_, did, torn, left⟩ := killed
  obtain ⟨stores, survived, single, resting, durable⟩ := lived.holds (fitsLeft.of_extends ⟨_, left⟩)
  rcases durable.survives_call resting ⟨single.2, late⟩ single.1 keys fits run did torn left with
    cut | survives
  · have decodes := (resting.ends_call keys fits.withinLimits run).1.decodes fits
    exact Or.inr ⟨cut, fails_openWithOptions faultless cut decodes opts⟩
  · obtain ⟨e, rs, kept, first, resting', leaves, -⟩ := survives
    exact Or.inl ⟨_, survived.next first nofun,
      leaves.opens resting' fitsLeft faultless opts⟩

/-- Only five bytes of the record of a second write have come to the log. -/
theorem killed_within_call_torn : ∃ (s : Sys) (attempts : List Attempt) (stores : List Store),
    attempts.map Attempt.answered = [true, false] ∧ Survived attempts stores ∧
      ∃ e s', Ends (openWithOptions {}) s e s' ∧ ActsAs ⟨e, s'⟩ stores := by
  let opts : Options := { maxLevels := 1 }
  have allowed : ForgetsNothing opts := by unfold ForgetsNothing; decide
  let cutOne (op : FsOp) : FsOp :=
    FsOp.casesOn op .truncate (fun f data => .append f (data.take 5)) .remove
  let cut : List FsOp → List FsOp := fun ops => (ops.take 1).map cutOne
  have torn : ∀ ops, Torn (cut ops) ops := by
    rintro (_ | ⟨_ | _ | _, ops⟩)
    · exact .stop
    · exact .next .stop
    · exact .cut (List.take_prefix _ _)
    · exact .next .stop
  have passed : passes (openWithOptions opts) (Sys.initial .steady) (fun e s =>
      passes (Request.write (.put [1] [7])).run ⟨e, s⟩ fun _ w =>
        passes (Call.put [2] [8]).run w fun _ w' =>
          let s := w.sys.killedAfter (cut (w.sys.changes w'.sys))
          decide ((w'.sys.journal.map FsOp.added).sum < 2 ^ 32) &&
            (decide ((s.journal.map FsOp.added).sum < 2 ^ 32) &&
              decide (s.dir.lookup .manifest = none))) = true := by
    decide +kernel
  obtain ⟨e, s, opened, rest⟩ := ends_of_passes passed
  obtain ⟨r, w, first, rest⟩ := ends_of_passes rest
  obtain ⟨u, w', second, rest⟩ := ends_of_passes rest
  obtain ⟨few, rest⟩ := Bool.and_eq_true_iff.mp rest
  obtain ⟨few', absent⟩ := Bool.and_eq_true_iff.mp rest
  have fits : (Request.write (.put [1] [7])).KeysFit ∧ (Call.put [2] [8]).KeysFit := by
    constructor <;> · rintro key (_ | ⟨_, ⟨⟩⟩); decide
  have late : ∀ w key value, FreezesLate w (.write (.put key value)) := by
    rintro w key value batch ⟨⟩
  have lived : Lived .steady _ (.up w) :=
    (Lived.created.opened allowed opened).served fits.1 (late _ _ _) first
  obtain ⟨ops, did⟩ := (extending_call _ _ _ _ second).sys
  have killed : KilledWithin w.sys w'.sys (w.sys.killedAfter (cut (w.sys.changes w'.sys))) :=
    ⟨ops, _, did, did.changes ▸ torn _, w.sys.did_killedAfter _⟩
  have env : w.sys.env = .steady := by
    obtain ⟨-, did₁⟩ := ends_openWithOptions opened
    obtain ⟨ops₁, did₂⟩ := (extending_request _ _ _ _ first).sys
    rw [did₂.env, did₁.env]
    rfl
  rcases killed_within_call lived fits.2 (late _ _ _) second
    (filesFit_of_added (of_decide_eq_true few)) killed (filesFit_of_added (of_decide_eq_true few'))
    (fun n => by rw [Sys.killedAfter, env]; rfl) {} with
    ⟨stores, survived, opens⟩ | ⟨⟨part, present, -⟩, -⟩
  · exact ⟨_, _, stores, rfl, survived, opens⟩
  · rw [of_decide_eq_true absent] at present
    cases present

end KvEngine
