import KvEngine.Engine.Reached
import KvEngine.Properties.CompactionVisibility

/-!
# Compactions that spare a key

After a compaction the tables answer with the heir of a key: the merged version, if it
shows something when the compaction examines it, otherwise the newest version in the
tables left alone.  The compaction spares the key if this makes no difference.  In a
session only a version that shows nothing can be replaced by its heir; on a directory
opened with other options a merged version can also overtake a newer one that is left.
-/

namespace KvEngine

open Foundations Engine

variable {w w₀ w₁ w₂ w₃ w' : World} {call : Call} {key : Bytes} {level t : Nat}

/-- What shows nothing now shows nothing later. -/
theorem shown_none_of_le {x : Bytes} {t t' : Nat} (hidden : shown t x = none) (le : t ≤ t') :
    shown t' x = none := by
  unfold shown shownInner at hidden ⊢
  split
  · rfl
  · next alive =>
      rw [if_neg alive] at hidden
      split
      · next marked =>
          rw [if_pos marked] at hidden
          split at hidden
          · next expired => rw [if_pos (le_trans expired le)]
          · cases hidden
      · next plain =>
          rw [if_neg plain] at hidden
          cases hidden

/-- The version of the key that the tables answer with after `level` is compacted: the
merged one, if it shows something when it is examined, otherwise the newest one left. -/
def heir (w : World) (level : Nat) (key : Bytes) : Option Bytes :=
  (((merged w.eng.manifest w.eng.sstReaders level).lookup key).filter
      (fun v => (shown (examinedAt w level key) v).isSome)).or
    (w.eng.leftVersions level key).head?

/-- Compacting `level` spares the key: the memtable holds it, or its newest version stays
the newest one, or neither that version nor its heir shows anything any more. -/
def Spares (w : World) (level : Nat) (key : Bytes) : Prop :=
  w.eng.memtable.versionsOf key = [] →
    heir w level key = (w.eng.versionsOf key).head? ∨
      ((w.eng.versionsOf key).head?.bind (shown (examinedAt w level key)) = none ∧
        (heir w level key).bind (shown (examinedAt w level key)) = none)

/-- In a session a compaction spares a key if and only if it does not uncover it. -/
theorem spares_iff_session {added : Option Table}
    (compaction : Compaction w level (examinedAt w level) added w') (inv : Inv w)
    (ordered : Ordered w.eng.manifest w.eng.sstReaders) (topmost : Topmost w.eng.manifest level)
    (key : Bytes) :
    Spares w level key ↔ ¬ Uncovers w.eng level (examinedAt w level key) key := by
  obtain ⟨before, merged⟩ := compaction.versionsOf_before inv ordered topmost key
  unfold Spares Uncovers heir
  rw [before, merged]
  cases inMemory : w.eng.memtable.versionsOf key with
  | cons x rest => simp
  | nil =>
      rw [List.nil_append, List.head?_append]
      cases taken : (w.eng.takenVersions level key).head? with
      | none => simp
      | some x =>
          cases shows : shown (examinedAt w level key) x with
          | some v => simp [Option.filter_some, shows]
          | none =>
              cases left : (w.eng.leftVersions level key).head? with
              | none => simp [Option.filter_some, shows]
              | some y =>
                  cases answer : shown (examinedAt w level key) y with
                  | none => simp [Option.filter_some, shows, answer]
                  | some v =>
                      have other : y ≠ x := by
                        rintro rfl
                        rw [shows] at answer
                        cases answer
                      simp [Option.filter_some, shows, answer, other]

/-- After a compaction the heir is the newest version, unless the memtable holds the key. -/
theorem Engine.Compaction.head?_heir {added : Option Table}
    (compaction : Compaction w level (examinedAt w level) added w') (key : Bytes) :
    (w'.eng.versionsOf key).head? =
      (w.eng.memtable.versionsOf key).head?.or (heir w level key) := by
  rw [compaction.versionsOf_after, List.append_assoc, List.head?_append, List.head?_append, heir]
  cases ((merged w.eng.manifest w.eng.sstReaders level).lookup key).filter
    (fun v => (shown (examinedAt w level key) v).isSome) <;> rfl

/-- A compaction that spares the key does not change what it shows from then on. -/
theorem Engine.Compaction.visible_of_spares {added : Option Table}
    (compaction : Compaction w level (examinedAt w level) added w') (spares : Spares w level key)
    (later : examinedAt w level key ≤ t) : w'.eng.visible t key = w.eng.visible t key := by
  rw [visible, visible, compaction.head?_heir key]
  cases inMemory : w.eng.memtable.versionsOf key with
  | cons x rest =>
      rw [Engine.versionsOf, inMemory]
      rfl
  | nil =>
      rw [List.head?_nil, Option.none_or]
      rcases spares inMemory with same | ⟨before, afterwards⟩
      · rw [same]
      · have hidden : ∀ v : Option Bytes, v.bind (shown (examinedAt w level key)) = none →
            v.bind (shown t) = none := by
          intro v
          cases v with
          | none => exact fun _ => rfl
          | some x => exact fun none => shown_none_of_le none later
        rw [hidden _ before, hidden _ afterwards]

/-- A newest version that always shows something stays the newest one if it is spared. -/
theorem Engine.Compaction.newest_of_spares {added : Option Table} {x : Bytes}
    (compaction : Compaction w level (examinedAt w level) added w') (spares : Spares w level key)
    (newest : (w.eng.versionsOf key).head? = some x) (lasting : ∀ t, (shown t x).isSome) :
    (w'.eng.versionsOf key).head? = some x := by
  rw [compaction.head?_heir key]
  cases inMemory : w.eng.memtable.versionsOf key with
  | cons y rest =>
      rw [Engine.versionsOf, inMemory] at newest
      exact newest
  | nil =>
      rw [List.head?_nil, Option.none_or]
      rcases spares inMemory with same | ⟨before, -⟩
      · rw [same, newest]
      · rw [newest, Option.bind_some] at before
        exact absurd (lasting _) (by rw [before]; exact Bool.false_ne_true)

/-! ## The course of a call -/

/-- The loop of `maybe_compact`, from `level` on, keeps what the flush left and each of
its compactions keeps. -/
theorem AtCompaction.keeps {P : World → Prop}
    (start : ∀ level w, Ends (compactFrom level 0) w₃ () w → level < w.eng.opts.maxLevels - 1 →
      (∃ threshold, levelThreshold w.eng.opts level = .ok threshold ∧
        ¬ (w.eng.manifest.sstsAtLevel level).length < threshold) → AtCompaction w₀ call level w)
    (step : ∀ level w w', AtCompaction w₀ call level w → Inv w → WithinLimits w'.sys →
      Ends (compactLevel level) w () w' → P w → P w')
    {n : Nat} (before : Ends (compactFrom level 0) w₃ () w)
    (inRange : level + n ≤ w.eng.opts.maxLevels - 1) (inv : Inv w) (limits : WithinLimits w'.sys)
    (run : Ends (compactFrom n level) w () w') (held : P w) : P w' := by
  induction n generalizing w level with
  | zero =>
      obtain ⟨-, rfl⟩ := ends_pure.mp run
      exact held
  | succ n inductionHypothesis =>
      obtain ⟨u, w₁, first, rest⟩ := ends_bind.mp run
      have goesOn := extending_compactIfFull level _ _ _ first
      have before₁ : Ends (compactFrom (level + 1) 0) w₃ () w₁ :=
        ends_compactFrom_succ before ((Nat.zero_add level).symm ▸ first)
      have inRange₁ : level + 1 + n ≤ w₁.eng.opts.maxLevels - 1 := by
        rw [goesOn.opts]
        omega
      have limits₁ : WithinLimits w₁.sys :=
        limits.of_extends (extending_compactFrom _ _ _ _ _ rest).sys
      obtain ⟨threshold, found, ⟨-, rfl⟩ | ⟨full, compacts⟩⟩ := ends_compactIfFull first
      · exact inductionHypothesis before₁ inRange₁ inv rest held
      · have point := start level w before (by omega) ⟨threshold, found, not_lt.mpr full⟩
        obtain ⟨time, added, compaction⟩ := ends_compactLevel inv limits₁ compacts
        exact inductionHypothesis before₁ inRange₁ (compaction.inv inv) rest
          (step level w w₁ point inv limits₁ compacts held)

/-- **The flush of a call**: what it keeps, and each compaction keeps, holds in the end. -/
theorem Inv.flush_keeps (inv₁ : Inv w₁) (storing : Ends call.store w₀ () w₁)
    (limits : WithinLimits w'.sys) (run : Ends maybeFlush w₁ () w') {P : World → Prop}
    (flushed : ∀ imm p w₂, w₁.eng.memtable.immutable = some imm → Flush (thawed w₁) p w₂ →
      p.map = imm.contents → P w₁ → P w₂)
    (compacted : ∀ level w w', AtCompaction w₀ call level w → Inv w → WithinLimits w'.sys →
      Ends (compactLevel level) w () w' → P w → P w') (held₁ : P w₁) : P w' := by
  rcases ends_maybeFlush_steps inv₁.memtable run with
    ⟨-, rfl⟩ | ⟨imm, id, w₂, w₃, isFrozen, took, wrote, compacts⟩
  · exact held₁
  · have valid := inv₁.memtable.immutable imm isFrozen
    have nonempty := inv₁.memtable.frozen imm isFrozen
    have limits₃ : WithinLimits w₃.sys :=
      limits.of_extends (extending_maybeCompact _ _ _ compacts).sys
    obtain ⟨p, flush, map⟩ := ends_flushEntries
      (inv₁.memKeys imm.contents (by simp [MemTable.layers, isFrozen])) (inv_thawed inv₁).history
      limits₃ took wrote
    have held₃ := flushed imm p w₃ isFrozen flush map held₁
    obtain ⟨e, w₄, this, loop⟩ := ends_bind.mp compacts
    obtain ⟨rfl, rfl⟩ := ends_self.mp this
    refine AtCompaction.keeps (fun level w before within full =>
      ⟨⟨w₁, imm, id, w₂, _, w₄, storing, isFrozen, took, valid.iter_eq, nonempty, wrote, before⟩,
        within, full⟩) compacted (ends_pure.mpr ⟨rfl, rfl⟩) (by omega)
      (flush.inv (inv_thawed inv₁)) limits loop held₃

/-- **The course of a call**: what storing establishes, a flush keeps and each compaction
keeps holds in the end. -/
theorem Inv.call_keeps (inv : Inv w₀) (keys : call.KeysFit)
    (limits : WithinLimits w'.sys) (run : Ends call.run w₀ () w') {P : World → Prop}
    (stored : ∀ w₁, Accepted w₀ (call.stores w₀.eng.nextSeq w₀.sys.time) call.seqs w₁ →
      w₀.sys.Extends w₁.sys → P w₁)
    (flushed : ∀ w₁ imm p w₂, w₁.eng.memtable.immutable = some imm → Flush (thawed w₁) p w₂ →
      p.map = imm.contents → P w₁ → P w₂)
    (compacted : ∀ level w w', AtCompaction w₀ call level w → Inv w → WithinLimits w'.sys →
      Ends (compactLevel level) w () w' → P w → P w') : P w' := by
  obtain ⟨w₁, storing, rest⟩ := Engine.ends_call run
  obtain ⟨accepted, -⟩ := ends_store_now storing
  have held₁ := stored w₁ accepted (extending_store call _ _ _ storing).sys
  have inv₁ : Inv w₁ := accepted.inv inv fun s hs => keys _ (Call.key_mem_keys hs)
  rcases rest with flushes | ⟨rfl, rfl⟩
  · exact inv₁.flush_keeps storing limits flushes (flushed w₁) compacted held₁
  · exact held₁

/-- The call's compactions spare the key. -/
def SparedBy (w : World) (call : Call) (key : Bytes) : Prop :=
  ∀ level w', AtCompaction w call level w' → Spares w' level key

/-- The calls' compactions spare the key. -/
def SparedIn (w : World) (calls : List Call) (key : Bytes) : Prop :=
  ∀ before call after w', calls = before ++ call :: after → Ends (runCalls before) w () w' →
    SparedBy w' call key

/-- Without a frozen list the call compacts nothing. -/
theorem not_atCompaction_of_unfrozen (stored : Ends call.store w () w₁)
    (free : w₁.eng.memtable.immutable = none) (level : Nat) (w' : World) :
    ¬ AtCompaction w call level w' := by
  intro point
  obtain ⟨w₂, imm, -, -, -, -, stored', isFrozen, -⟩ := point.reached
  obtain ⟨-, rfl⟩ := Ends.unique stored stored'
  rw [free] at isFrozen
  cases isFrozen

theorem sparedBy_of_unfrozen (stored : Ends call.store w () w₁)
    (free : w₁.eng.memtable.immutable = none) (key : Bytes) : SparedBy w call key :=
  fun level w' point => absurd point (not_atCompaction_of_unfrozen stored free level w')

/-! ## While the clock stands still -/

/-- The clock stands still, and the key shows this. -/
def ShowsAt (t : Nat) (key : Bytes) (found : Option Bytes) (w : World) : Prop :=
  w.sys.ClockAt t ∧ w.eng.visible t key = found

namespace ShowsAt

variable {found : Option Bytes}

theorem flushed {imm : SkipList} {p : Table} (shows : ShowsAt t key found w)
    (isFrozen : w.eng.memtable.immutable = some imm) (flush : Flush (thawed w) p w')
    (map : p.map = imm.contents) : ShowsAt t key found w' := by
  have goesOn : w.sys.Extends w'.sys := flush.did
  refine ⟨shows.1.of_extends goesOn, ?_⟩
  rw [visible, flush.versionsOf_eq isFrozen map key]
  exact shows.2

/-- A compaction that spares the key. -/
theorem compacted (shows : ShowsAt t key found w) (inv : Inv w) (limits : WithinLimits w'.sys)
    (spares : Spares w level key) (run : Ends (compactLevel level) w () w') :
    ShowsAt t key found w' := by
  obtain ⟨added, compaction, -⟩ := ends_compactLevel_examined inv limits run
  have examined := shows.1.eq_of_reads (reads_examinedAt w level key)
  refine ⟨shows.1.of_extends (extending_compactLevel level _ _ _ run).sys, ?_⟩
  rw [compaction.visible_of_spares spares examined.le]
  exact shows.2

end ShowsAt

/-! ## Sessions with two levels -/

/-- No table is listed below level 1. -/
def Shallow (m : Manifest) : Prop := ∀ level, 2 ≤ level → m.sstsAtLevel level = []

/-- **What level 0 takes up is in no table that is left.** -/
theorem leftVersions_eq_nil {time : Bytes → Nat} {added : Option Table}
    (compaction : Compaction w 0 time added w') (inv : Inv w) (shallow : Shallow w.eng.manifest)
    {key : Bytes} (taken : w.eng.takenVersions 0 key ≠ []) : w.eng.leftVersions 0 key = [] := by
  obtain ⟨v, member⟩ := List.exists_mem_of_ne_nil _ taken
  obtain ⟨p, hp, found⟩ := mem_versions.mp member
  obtain ⟨isOpen, isInput⟩ := List.mem_filter.mp (List.mem_reverse.mp hp)
  have bounds := (inv.tables.described p isOpen).bounds found
  refine versions_eq_nil.mpr fun q hq => ?_
  obtain ⟨isOpen', isLeft⟩ := List.mem_filter.mp (List.mem_reverse.mp hq)
  have notInput : q.1 ∉ inputs w.eng.manifest 0 := of_decide_eq_true isLeft
  cases found' : (Table.map q).lookup key with
  | none => rfl
  | some v' =>
      exfalso
      have bounds' := (inv.tables.described q isOpen').bounds found'
      obtain ⟨level, atLevel⟩ := Manifest.mem_entries.mp (inv.listed.listed q isOpen')
      match level with
      | 0 => exact notInput (List.mem_append_left _ atLevel)
      | 1 =>
          -- a table of level 1 that is left lies on one side of everything taken up
          have notOverlap : q.1 ∉ overlaps w.eng.manifest 0 :=
            fun overlap => notInput (List.mem_append_right _ overlap)
          rcases apart_of_not_overlapping compaction.overlap inv.apart inv.tables.described
            inv.listed isOpen' atLevel notOverlap with below | above
          · have less := below p.1 (of_decide_eq_true isInput)
            exact absurd (bounds'.2.trans_lt less) (not_lt.mpr bounds.1)
          · have less := above p.1 (of_decide_eq_true isInput)
            exact absurd (bounds.2.trans_lt less) (not_lt.mpr bounds'.1)
      | level + 2 =>
          rw [shallow (level + 2) (Nat.le_add_left 2 level)] at atLevel
          cases atLevel

/-- So compacting level 0 of a session uncovers no key. -/
theorem spares_of_shallow {added : Option Table}
    (compaction : Compaction w 0 (examinedAt w 0) added w') (inv : Inv w)
    (ordered : Ordered w.eng.manifest w.eng.sstReaders) (shallow : Shallow w.eng.manifest)
    (key : Bytes) : Spares w 0 key := by
  have topmost : Topmost w.eng.manifest 0 := fun l below => absurd below (Nat.not_lt_zero l)
  refine (spares_iff_session compaction inv ordered topmost key).mpr ?_
  rintro ⟨-, ⟨x, taken, -⟩, y, left, -⟩
  have some : w.eng.takenVersions 0 key ≠ [] := by
    intro none
    rw [none] at taken
    cases taken
  rw [leftVersions_eq_nil compaction inv shallow some] at left
  cases left

/-- A compaction of level 0 adds to level 1. -/
theorem Shallow.compacted {time : Bytes → Nat} {added : Option Table}
    (shallow : Shallow w.eng.manifest) (compaction : Compaction w 0 time added w') (inv : Inv w) :
    Shallow w'.eng.manifest := by
  intro level deep
  rw [compaction.sstsAtLevel_eq inv, shallow level deep, if_neg (by omega)]
  rfl

theorem Shallow.flushed {p : Table} (shallow : Shallow w.eng.manifest) (flush : Flush w p w') :
    Shallow w'.eng.manifest := by
  obtain ⟨metrics, eng⟩ := flush.eng
  intro level deep
  rw [eng]
  show (w.eng.manifest.addSst 0 p.1).sstsAtLevel level = []
  rw [Manifest.sstsAtLevel_addSst, if_neg (by omega), shallow level deep]

theorem Shallow.of_length {m : Manifest} (few : m.levels.length ≤ 2) : Shallow m := by
  intro level deep
  rw [Manifest.sstsAtLevel, List.getElem?_eq_none (le_trans few deep)]
  rfl

/-- The compaction of which a call that ends is about to make does end. -/
theorem AtCompaction.compacts (point : AtCompaction w₀ call level w) (session : InSession w₀)
    (keys : call.KeysFit) (run : Ends call.run w₀ () w') :
    ∃ w₁, Ends (compactLevel level) w () w₁ ∧ w₁.sys.Extends w'.sys := by
  obtain ⟨w₁, imm, id, w₂, entries, w₃, stored, frozen, took, iterates, -, flushed, looped⟩ :=
    point.reached
  obtain ⟨v₁, storing, rest⟩ := Engine.ends_call run
  obtain ⟨-, rfl⟩ := stored.unique storing
  obtain ⟨t, -, -, inv₁, -⟩ := session.idle.ends_store keys stored
  rcases rest with flushes | ⟨rfl, -⟩
  · rcases ends_maybeFlush_steps inv₁.memtable flushes with
      ⟨free, -⟩ | ⟨imm', id', v₂, v₃, frozen', took', wrote, compacts⟩
    · rw [frozen] at free
      cases free
    rw [frozen] at frozen'
    cases frozen'
    rw [(inv₁.memtable.immutable imm frozen).iter_eq] at iterates
    cases iterates
    obtain ⟨rfl, rfl⟩ := took.unique took'
    obtain ⟨-, rfl⟩ := flushed.unique wrote
    obtain ⟨e, w₄, this, loop⟩ := ends_bind.mp compacts
    obtain ⟨rfl, rfl⟩ := ends_self.mp this
    have within := point.within
    rw [(extending_compactFrom _ _ _ _ _ looped).opts] at within
    obtain ⟨n, split⟩ : ∃ n, w₄.eng.opts.maxLevels - 1 = level + (n + 1) :=
      ⟨w₄.eng.opts.maxLevels - 1 - level - 1, by omega⟩
    rw [split] at loop
    obtain ⟨v, before, after⟩ := ends_compactFrom_add.mp loop
    obtain ⟨-, rfl⟩ := looped.unique before
    rw [Nat.zero_add] at after
    obtain ⟨u, v', here, later⟩ := ends_bind.mp after
    obtain ⟨threshold, found, full⟩ := point.full
    obtain ⟨threshold', found', ⟨below, -⟩ | ⟨-, compacted⟩⟩ := ends_compactIfFull here
    · obtain rfl := Except.ok.inj (found.symm.trans found')
      exact absurd below full
    · exact ⟨v', compacted, (extending_compactFrom _ _ _ _ _ later).sys⟩
  · rw [session.idle.free] at frozen
    cases frozen

/-- Level 0 is compacted right after the flush. -/
theorem AtCompaction.shallow (point : AtCompaction w₀ call 0 w) (session : InSession w₀)
    (shallow : Shallow w₀.eng.manifest) (keys : call.KeysFit) (limits : WithinLimits w.sys) :
    Shallow w.eng.manifest := by
  obtain ⟨t, w₁, p, w₃, accepted, -, flush, looped⟩ := point.flushed session keys limits
  obtain ⟨-, rfl⟩ := ends_pure.mp looped
  obtain ⟨wal, memtable, metrics, eng⟩ := accepted.eng
  have stored : Shallow w₁.eng.manifest := by
    rw [eng]
    exact shallow
  exact Shallow.flushed (w := thawed w₁) stored flush

/-- **With two levels** the compactions of a session spare every key. -/
theorem InSession.sparedBy (session : InSession w) (shallow : Shallow w.eng.manifest)
    (levels : w.eng.opts.maxLevels ≤ 2) (keys : call.KeysFit) (limits : WithinLimits w'.sys)
    (run : Ends call.run w () w') (key : Bytes) : SparedBy w call key := by
  intro level w₁ point
  obtain ⟨w₂, compacted, goesOn⟩ := point.compacts session keys run
  have limits₂ := limits.of_extends goesOn
  have limits₁ := limits₂.of_extends (extending_compactLevel level _ _ _ compacted).sys
  have within := point.within
  rw [point.opts_eq] at within
  obtain rfl : level = 0 := by omega
  obtain ⟨inv, ordered, -⟩ := point.session session keys limits₂ compacted
  obtain ⟨added, compaction, -⟩ := ends_compactLevel_examined inv limits₂ compacted
  exact spares_of_shallow compaction inv ordered (point.shallow session shallow keys limits₁) key

/-- A call of such a session lists no table below level 1. -/
theorem InSession.shallow_call (session : InSession w) (shallow : Shallow w.eng.manifest)
    (levels : w.eng.opts.maxLevels ≤ 2) (keys : call.KeysFit) (limits : WithinLimits w'.sys)
    (run : Ends call.run w () w') : Shallow w'.eng.manifest := by
  refine session.idle.inv.call_keeps keys limits run (P := fun w₁ => Shallow w₁.eng.manifest)
    (fun w₁ accepted _ => ?_) (fun w₁ imm p w₂ _ flush _ before => ?_)
    (fun level w₁ w₂ point inv limits₂ compacts before => ?_)
  · obtain ⟨wal, memtable, metrics, eng⟩ := accepted.eng
    rw [eng]
    exact shallow
  · exact Shallow.flushed (w := thawed w₁) before flush
  · have within := point.within
    rw [point.opts_eq] at within
    obtain rfl : level = 0 := by omega
    obtain ⟨time, added, compaction⟩ := ends_compactLevel inv limits₂ compacts
    exact before.compacted compaction inv

/-- So every call of a session with two levels spares every key. -/
theorem InSession.sparedIn {calls : List Call} (session : InSession w)
    (shallow : Shallow w.eng.manifest) (levels : w.eng.opts.maxLevels ≤ 2)
    (keys : ∀ call ∈ calls, call.KeysFit) (limits : WithinLimits w'.sys)
    (run : Ends (runCalls calls) w () w') (key : Bytes) : SparedIn w calls key := by
  rintro before call after w₁ rfl runBefore
  obtain ⟨w₂, first, rest⟩ := ends_runCalls_append.mp run
  obtain ⟨-, rfl⟩ := first.unique runBefore
  obtain ⟨u, w₃, here, later⟩ := ends_bind.mp rest
  have limits₃ := limits.of_extends (extending_runCalls _ _ _ _ later).sys
  have limits₂ := limits₃.of_extends (extending_call _ _ _ _ here).sys
  obtain ⟨session₂, few, shallow₂⟩ := session.ends_runCalls
    (P := fun w => w.eng.opts.maxLevels ≤ 2 ∧ Shallow w.eng.manifest)
    (fun c member => keys c (List.mem_append_left _ member)) limits₂ runBefore ⟨levels, shallow⟩
    (fun c member v u v' session₁ _ limits₁ ran held =>
      ⟨(extending_call c _ _ _ ran).opts ▸ held.1, session₁.shallow_call held.2 held.1
        (keys c (List.mem_append_left _ member)) limits₁ ran⟩)
  exact session₂.sparedBy shallow₂ few (keys call (List.mem_append_right _ List.mem_cons_self))
    limits₃ here key

/-- Nothing is compacted as long as level 0 stays below its threshold. -/
theorem InSession.not_atCompaction (session : InSession w) (levels : w.eng.opts.maxLevels ≤ 2)
    (below : (w.eng.manifest.sstsAtLevel 0).length + 1 < w.eng.opts.l0CompactionThreshold)
    (keys : call.KeysFit) (limits : WithinLimits w'.sys) (run : Ends call.run w () w') (level : Nat)
    (w₁ : World) : ¬ AtCompaction w call level w₁ := by
  intro point
  obtain ⟨w₂, compacted, goesOn⟩ := point.compacts session keys run
  have limits₁ := (limits.of_extends goesOn).of_extends
    (extending_compactLevel level _ _ _ compacted).sys
  obtain ⟨t, v, p, v', accepted, -, flush, looped⟩ := point.flushed session keys limits₁
  have within := point.within
  rw [point.opts_eq] at within
  obtain rfl : level = 0 := by omega
  obtain ⟨-, rfl⟩ := ends_pure.mp looped
  obtain ⟨threshold, found, full⟩ := point.full
  rw [point.opts_eq] at found
  obtain rfl : w.eng.opts.l0CompactionThreshold = threshold := Except.ok.inj found
  obtain ⟨wal, memtable, metrics, same⟩ := accepted.eng
  obtain ⟨metrics', eng⟩ := flush.eng
  have tables : v'.eng.manifest.sstsAtLevel 0 = w.eng.manifest.sstsAtLevel 0 ++ [p.1] := by
    rw [eng]
    show (v.eng.manifest.addSst 0 p.1).sstsAtLevel 0 = _
    rw [Manifest.sstsAtLevel_addSst, if_pos rfl, same]
  rw [tables, List.length_append] at full
  exact full below

/-! ## Runs that can be evaluated -/

/-- A session with two levels and one more call, which spares every key. -/
theorem exists_spared (opts : Options) (env : Env) (calls : List Call) (call : Call)
    (test : World → World → Bool) (levels : opts.maxLevels ≤ 2)
    (keys : ∀ c ∈ call :: calls, c.KeysFit)
    (passed : sessionPasses opts env calls (fun w => decide (w.eng.manifest.levels.length ≤ 2) &&
      passes call.run w fun _ w' =>
        decide ((w'.sys.journal.map FsOp.added).sum < 2 ^ 32) && test w w') = true) :
    ∃ w w', Reached env w ∧ InSession w ∧ Shallow w.eng.manifest ∧ w.eng.opts = opts ∧
      Ends call.run w () w' ∧ FilesFit w'.sys ∧ (∀ key, SparedBy w call key) ∧
        test w w' = true := by
  obtain ⟨e, s, w, opened, ran, limits, tested⟩ := exists_session _ _ _ _ passed
  obtain ⟨few, calling⟩ := Bool.and_eq_true_iff.mp tested
  obtain ⟨u, w', run, rest⟩ := ends_of_passes calling
  obtain ⟨small, tested⟩ := Bool.and_eq_true_iff.mp rest
  have keysBefore : ∀ c ∈ calls, c.KeysFit := fun c member => keys c (List.mem_cons_of_mem _ member)
  have fits := filesFit_of_added (of_decide_eq_true small)
  have shallow := Shallow.of_length (of_decide_eq_true few)
  obtain ⟨session, -⟩ := (started opened).inSession.ends_runCalls (P := fun _ => True) keysBefore
    limits ran trivial fun _ _ _ _ _ _ _ _ _ _ => trivial
  have same : w.eng.opts = opts :=
    (extending_runCalls _ _ _ _ ran).opts.trans (ends_openWithOptions opened).1.options
  exact ⟨w, w', (ReachedBy.opened opened).runCalls keysBefore (fun _ _ _ _ => trivial) ran, session,
    shallow, same, run, fits, session.sparedBy shallow (same ▸ levels)
      (keys call List.mem_cons_self) fits.withinLimits run, tested⟩

end KvEngine
