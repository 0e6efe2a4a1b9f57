import KvEngine.Engine.Crash
import KvEngine.Engine.Recovery

/-!
# On the way through a flush or a compaction

A flush and a compaction change the directory in one order (`Steps`).  The file of the new table
is written first, and then the files of merged tables are removed.  The manifest is truncated and
written.  At last the log is truncated, and the buffer of its writer goes there.

What a crash between two of these changes leaves shows what `contentsLeft` shows, unless the
manifest was truncated and not yet written.
-/

namespace KvEngine

open Foundations Engine

variable {w w' : World} {build removals tail done : List FsOp} {rs bs : List Record} {t : Nat}
  {s : Sys}

/-- The changes of a flush or of a compaction. -/
structure Steps (w w' : World) (build removals tail : List FsOp) : Prop where
  did : w.sys.Did (build ++ removals ++ (manifestOps w'.eng.manifest ++ tail)) w'.sys
  build : ∀ op ∈ build, op.file = .sst w.eng.nextSstId
  removals : ∀ op ∈ removals, ∃ id, op = .remove (.sst id)
  tail : tail = [] ∨ ∃ rest, tail = .truncate (.wal 1) :: rest ∧
    BufWriter.Leftover w.eng.wal.file w.sys rest

/-! ## What is left -/

/-- After these changes the manifest has been truncated, and it is not yet written. -/
def Blank (done : List FsOp) : Prop := done.getLast? = some (.truncate .manifest)

instance (done : List FsOp) : Decidable (Blank done) := by
  unfold Blank
  infer_instance

/-- After these changes the new manifest is written. -/
def Relisted (done : List FsOp) : Prop :=
  ∃ op ∈ done, op.file = .manifest ∧ op ≠ .truncate .manifest

instance (done : List FsOp) : Decidable (Relisted done) := by
  unfold Relisted
  infer_instance

/-- The maps of the tables that the manifest lists after these changes and whose files are there;
once it is written they are the maps `after`. -/
def mapsLeft (e : Engine) (after : List (SortedMap Bytes Bytes)) (done : List FsOp) :
    List (SortedMap Bytes Bytes) :=
  if Relisted done then after
  else
    ((listing e.manifest e.sstReaders).filter fun p => .remove (.sst p.1.id) ∉ done).map Table.map

/-- The bytes of the log after these changes. -/
def logLeft (w : World) (done : List FsOp) : Bytes :=
  (if .truncate (.wal 1) ∈ done then [] else (w.sys.dir.lookup (.wal 1)).getD []) ++
    if .append (.wal 1) w.eng.wal.file.buf ∈ done then w.eng.wal.file.buf else []

/-- The records of a log. -/
def recordsIn (w : World) (log : Bytes) : List Record :=
  (WALReader.collect (WALReader.items w.sys.env.crc log)).toOption.getD []

/-- The records of a log and the maps of the tables that a manifest lists. -/
structure Contents where
  records : List Record
  maps : List (SortedMap Bytes Bytes)

/-- What is shown of a key: by the last record in the log, or else by the table that is listed
last. -/
def Contents.shows (c : Contents) (t : Nat) (key : Bytes) : Option Bytes :=
  shownBehind t c.records c.maps key

/-- The keys that something is shown of. -/
def Contents.keys (c : Contents) : List Bytes :=
  c.records.map Record.key ++ c.maps.flatMap fun map => map.entries.map Prod.fst

/-- Nothing is shown of any other key. -/
theorem Contents.shows_of_notMem {c : Contents} {key : Bytes} (absent : key ∉ c.keys) :
    c.shows t key = none := by
  obtain ⟨noRecord, noEntry⟩ := not_or.mp (mt List.mem_append.mpr absent)
  have unlogged : (SortedMap.empty.insertAll (c.records.map Record.binding)).lookup key = none := by
    rw [SortedMap.lookup_insertAll, SortedMap.lookup_empty, Option.or_none]
    refine lookupList_eq_none.mpr fun b member same => noRecord ?_
    obtain ⟨r, isRecord, rfl⟩ := List.mem_map.mp (List.mem_reverse.mp member)
    exact List.mem_map.mpr ⟨r, isRecord, same⟩
  have untabled : versions (fun map : SortedMap Bytes Bytes => map.lookup key) c.maps.reverse =
      [] := by
    refine versions_eq_nil.mpr fun map member =>
      Option.eq_none_iff_forall_ne_some.mpr fun v found => noEntry ?_
    exact List.mem_flatMap.mpr ⟨map, List.mem_reverse.mp member,
      List.mem_map.mpr ⟨(key, v), SortedMap.mem_entries.mpr found, rfl⟩⟩
  rw [shows, shownBehind, unlogged, untabled]
  rfl

/-- What the directory holds after these changes. -/
def contentsLeft (w : World) (after : List (SortedMap Bytes Bytes)) (done : List FsOp) : Contents :=
  ⟨recordsIn w (logLeft w done), mapsLeft w.eng after done⟩

/-- The maps of the tables that the manifest lists. -/
def mapsListed (e : Engine) : List (SortedMap Bytes Bytes) :=
  (listing e.manifest e.sstReaders).map Table.map

/-- Changes of other files leave the log as it is. -/
theorem logLeft_untouched (others : ∀ op ∈ done, op.file ≠ .wal 1) :
    logLeft w done = (w.sys.dir.lookup (.wal 1)).getD [] := by
  rw [logLeft, if_neg fun member => others _ member rfl, if_neg fun member => others _ member rfl,
    List.append_nil]

/-! ## The directory -/

/-- A file that is removed, if it is touched at all. -/
theorem lookup_applyOps_removed {f : FileName} {ops : List FsOp} (d : Dir)
    (only : ∀ op ∈ ops, op.file = f → op = .remove f) :
    (applyOps ops d).lookup f = if .remove f ∈ ops then none else d.lookup f := by
  induction ops generalizing d with
  | nil => rfl
  | cons op ops inductionHypothesis =>
      rw [applyOps_cons, inductionHypothesis _ fun o ho => only o (List.mem_cons_of_mem _ ho)]
      by_cases same : op.file = f
      · obtain rfl := only op List.mem_cons_self same
        rw [FsOp.lookup_remove, if_pos List.mem_cons_self, ite_self]
      · have other : FsOp.remove f ≠ op := fun equal => same (equal ▸ rfl)
        rw [FsOp.lookup_apply_of_ne same]
        simp only [List.mem_cons, other, false_or]

/-- The first changes are some of the first part, or all of it and some of the second. -/
theorem prefix_append_cases {α : Type} {l l₁ l₂ : List α} (begins : l <+: l₁ ++ l₂) :
    l <+: l₁ ∨ ∃ l', l = l₁ ++ l' ∧ l' <+: l₂ := by
  rcases List.prefix_or_prefix_of_prefix begins (List.prefix_append l₁ l₂) with first | ⟨l', rfl⟩
  · exact Or.inl first
  · exact Or.inr ⟨l', rfl, (List.prefix_append_right_inj l₁).mp begins⟩

namespace Steps

/-- Before the manifest is touched. -/
theorem early_file (steps : Steps w w' build removals tail) (begins : done <+: build ++ removals) :
    ∀ op ∈ done, ∃ id, op.file = .sst id := by
  intro op member
  rcases List.mem_append.mp (begins.subset member) with building | removing
  · exact ⟨_, steps.build op building⟩
  · obtain ⟨id, rfl⟩ := steps.removals op removing
    exact ⟨id, rfl⟩

theorem tail_file (steps : Steps w w' build removals tail) (log : w.eng.wal.file.path = .wal 1) :
    ∀ op ∈ tail, op.file = .wal 1 := by
  rcases steps.tail with rfl | ⟨rest, rfl, leftover⟩
  · simp
  · intro op member
    rcases List.mem_cons.mp member with rfl | later
    · rfl
    · exact Kept.file_of_leftover leftover log op later

theorem manifest_file {m : Manifest} : ∀ op ∈ manifestOps m, op.file = .manifest := by
  simp [manifestOps, FsOp.file]

/-- Until the log is truncated no log is touched. -/
theorem file_ne_wal {m : Manifest} (steps : Steps w w' build removals tail) (n : Nat) :
    ∀ op ∈ build ++ removals ++ manifestOps m, op.file ≠ .wal n := by
  intro op member
  rcases List.mem_append.mp member with early | saving
  · obtain ⟨id, isTable⟩ := steps.early_file (List.prefix_refl _) op early
    simp [isTable]
  · simp [manifest_file op saving]

theorem relisted (m : Manifest) (later : List FsOp) :
    Relisted (build ++ removals ++ (manifestOps m ++ later)) :=
  ⟨.append .manifest m.encode, by simp [manifestOps], rfl, by simp⟩

/-- **The log on the way**: its file holds the bytes that `logLeft` says, and they are records. -/
theorem log (steps : Steps w w' build removals tail) (logged : Logged w rs bs)
    (path : w.eng.wal.file.path = .wal 1) (faultless : w.sys.env.Faultless)
    (begins : done <+: build ++ removals ++ (manifestOps w'.eng.manifest ++ tail)) :
    ∃ us, logLeft w done = encodeLog w.sys.env.crc us ∧ (∀ r ∈ us, r ∈ rs ++ bs) ∧
      (applyOps done w.sys.dir).lookup (.wal 1) = some (encodeLog w.sys.env.crc us) := by
  have file := logged.file
  rw [path] at file
  have untouched : (∀ op ∈ done, op.file ≠ .wal 1) →
      ∃ us, logLeft w done = encodeLog w.sys.env.crc us ∧ (∀ r ∈ us, r ∈ rs ++ bs) ∧
        (applyOps done w.sys.dir).lookup (.wal 1) = some (encodeLog w.sys.env.crc us) := by
    intro others
    refine ⟨rs, ?_, fun r member => List.mem_append_left bs member, ?_⟩
    · rw [logLeft_untouched others, file]
      rfl
    · rw [lookup_applyOps_of_ne _ others, file]
  rw [← List.append_assoc] at begins
  have first : ∀ op ∈ build ++ removals ++ manifestOps w'.eng.manifest, op.file ≠ .wal 1 :=
    steps.file_ne_wal 1
  rcases prefix_append_cases begins with early | ⟨later, rfl, inTail⟩
  · exact untouched fun op member => first op (early.subset member)
  rcases steps.tail with rfl | ⟨rest, rfl, leftover⟩
  · -- a compaction leaves the log alone
    rw [List.prefix_nil.mp inTail, List.append_nil] at untouched ⊢
    exact untouched first
  cases later with
  | nil =>
      rw [List.append_nil] at untouched ⊢
      exact untouched first
  | cons op later =>
      obtain ⟨rfl, inRest⟩ := List.cons_prefix_cons.mp inTail
      have emptied : ((FsOp.truncate (.wal 1)).apply
          (applyOps (build ++ removals ++ manifestOps w'.eng.manifest) w.sys.dir)).lookup (.wal 1) =
          some [] := FsOp.lookup_truncate _ _
      have written : .append (.wal 1) w.eng.wal.file.buf ∈
          build ++ removals ++ manifestOps w'.eng.manifest ++ .truncate (.wal 1) :: later ↔
            .append (.wal 1) w.eng.wal.file.buf ∈ later := by
        rw [List.mem_append, List.mem_cons]
        refine ⟨fun member => ?_, fun member => Or.inr (Or.inr member)⟩
        rcases member with early | same | inLater
        · exact absurd rfl (first _ early)
        · cases same
        · exact inLater
      have truncated : FsOp.truncate (.wal 1) ∈
          build ++ removals ++ manifestOps w'.eng.manifest ++ .truncate (.wal 1) :: later := by
        simp
      rw [logLeft, if_pos truncated, List.nil_append, applyOps_append, applyOps_cons]
      simp only [written]
      cases later with
      | nil => exact ⟨[], by simp [encodeLog], by simp, emptied⟩
      | cons op later =>
          -- the old writer was dropped, and nothing of its buffer got lost
          rcases leftover with ⟨-, rfl⟩ | ⟨data, rfl, -, whole⟩
          · cases List.prefix_nil.mp inRest
          · obtain ⟨rfl, none⟩ := List.cons_prefix_cons.mp inRest
            obtain rfl := List.prefix_nil.mp none
            obtain rfl := whole faultless
            rw [path, if_pos List.mem_cons_self]
            refine ⟨bs, logged.buf, fun r member => List.mem_append_right rs member, ?_⟩
            rw [applyOps_cons, applyOps_nil, FsOp.lookup_append emptied, logged.buf,
              List.nil_append]

/-- When the manifest is written, the log is as it was. -/
theorem logLeft_saved (steps : Steps w w' build removals tail) :
    logLeft w (build ++ removals ++ (manifestOps w'.eng.manifest ++ [])) =
      (w.sys.dir.lookup (.wal 1)).getD [] := by
  refine logLeft_untouched fun op member => ?_
  rw [List.append_nil] at member
  exact steps.file_ne_wal 1 op member

/-- What opening replays. -/
theorem logOf_eq (steps : Steps w w' build removals tail) (logged : Logged w rs bs) (kept : Kept w)
    (faultless : w.sys.env.Faultless) (resting : Resting w) (limits : FilesFit w.sys)
    (begins : done <+: build ++ removals ++ (manifestOps w'.eng.manifest ++ tail))
    (dir : s.dir = applyOps done w.sys.dir) (env : s.env = w.sys.env) :
    logOf s.env.crc s.dir = .ok (recordsIn w (logLeft w done)) := by
  obtain ⟨us, left, among, file⟩ := steps.log logged kept.log faultless begins
  have fits : ∀ r ∈ us, r.Fits := fun r member =>
    logged.fits limits resting.inv.history r (among r member)
  have records : recordsIn w (logLeft w done) = us := by
    rw [recordsIn, left, WALReader.collect_encodeLog fits]
    rfl
  have logs : OneLog s.dir := by
    intro n different
    rw [dir, lookup_applyOps_of_ne]
    · exact kept.logs n different
    intro op member
    have begun := begins.subset member
    rw [← List.append_assoc] at begun
    rcases List.mem_append.mp begun with earlier | inTail
    · exact steps.file_ne_wal n op earlier
    · rw [steps.tail_file kept.log op inTail]
      simpa using Ne.symm different
  rw [records]
  exact logOf_of_lookup logs (by rw [dir, env]; exact file) fits

/-- **Before the manifest is touched** the tables are opened whose files are there. -/
theorem recovers_early (steps : Steps w w' build removals tail) (logged : Logged w rs bs)
    (kept : Kept w) (resting : Resting w) (limits : FilesFit w.sys)
    (faultless : w.sys.env.Faultless) (begins : done <+: build ++ removals)
    (dir : s.dir = applyOps done w.sys.dir) (env : s.env = w.sys.env) (still : s.ClockAt t)
    (opts : Options) : Recovers opts s ((contentsLeft w (mapsListed w'.eng) done).shows t) := by
  have files := steps.early_file begins
  have log := steps.logOf_eq logged kept faultless resting limits
    (begins.trans (List.prefix_append _ _)) dir env
  -- the file of an open table is removed, or it is left alone
  have removed : ∀ p ∈ w.eng.sstReaders, s.dir.lookup (.sst p.1.id) =
      if .remove (.sst p.1.id) ∈ done then none else w.sys.dir.lookup (.sst p.1.id) := by
    intro p hp
    rw [dir]
    refine lookup_applyOps_removed _ fun op member same => ?_
    rcases List.mem_append.mp (begins.subset member) with building | removing
    · rw [steps.build op building, FileName.sst.injEq] at same
      exact absurd same (resting.inv.tables.fresh p hp).ne'
    · obtain ⟨id, rfl⟩ := steps.removals op removing
      cases same
      rfl
  have some := resting.recovers_some limits (env ▸ faultless) still
    (by rw [dir, lookup_applyOps_of_ne]
        intro op member
        obtain ⟨id, isTable⟩ := files op member
        simp [isTable])
    (fun p hp data found => by
      rw [removed p hp] at found
      split at found
      · cases found
      · exact found) log opts
  have unlisted : ¬ Relisted done := by
    rintro ⟨op, member, isManifest, -⟩
    obtain ⟨id, isTable⟩ := files op member
    rw [isTable] at isManifest
    cases isManifest
  have maps : mapsLeft w.eng (mapsListed w'.eng) done =
      ((listing w.eng.manifest w.eng.sstReaders).filter
        (fun p => (s.dir.lookup (.sst p.1.id)).isSome)).map Table.map := by
    rw [mapsLeft, if_neg unlisted]
    refine congrArg _ (List.filter_congr fun p member => ?_)
    have isOpen := mem_listing member
    obtain ⟨data, present, -⟩ := resting.stored.files p isOpen
    rw [removed p isOpen, present]
    by_cases gone : .remove (.sst p.1.id) ∈ done
    · simp [gone]
    · simp [gone]
  rw [← maps] at some
  exact some

/-- **Once the manifest is written** the new tables are opened. -/
theorem recovers_late {later : List FsOp} (steps : Steps w w' build removals tail)
    (logged : Logged w rs bs) (kept : Kept w) (resting : Resting w) (resting' : Resting w')
    (fits : FilesFit w'.sys) (faultless : w.sys.env.Faultless) (inTail : later <+: tail)
    (dir : s.dir =
      applyOps (build ++ removals ++ (manifestOps w'.eng.manifest ++ later)) w.sys.dir)
    (env : s.env = w.sys.env) (still : s.ClockAt t) (opts : Options) :
    Recovers opts s ((contentsLeft w (mapsListed w'.eng)
      (build ++ removals ++ (manifestOps w'.eng.manifest ++ later))).shows t) := by
  have begins : build ++ removals ++ (manifestOps w'.eng.manifest ++ later) <+:
      build ++ removals ++ (manifestOps w'.eng.manifest ++ tail) := by
    rw [List.prefix_append_right_inj, List.prefix_append_right_inj]
    exact inTail
  have log := steps.logOf_eq logged kept faultless resting (fits.of_extends ⟨_, steps.did⟩) begins
    dir env
  have same : ∀ f, (∀ n, f ≠ .wal n) → s.dir.lookup f = w'.sys.dir.lookup f := by
    intro f other
    have untouched : ∀ l ⊆ tail, ∀ op ∈ l, op.file ≠ f := by
      intro l among op member
      rw [steps.tail_file kept.log op (among member)]
      exact Ne.symm (other 1)
    rw [dir, steps.did.dir, ← List.append_assoc, ← List.append_assoc, applyOps_append,
      applyOps_append _ tail, lookup_applyOps_of_ne _ (untouched later inTail.subset),
      lookup_applyOps_of_ne _ (untouched tail (List.Subset.refl tail))]
  have all := resting'.recovers fits (env ▸ faultless) still same log opts
  have maps : mapsLeft w.eng (mapsListed w'.eng)
      (build ++ removals ++ (manifestOps w'.eng.manifest ++ later)) = mapsListed w'.eng := by
    rw [mapsLeft, if_pos (relisted _ _)]
  rw [replayed_eq, ← mapsListed, ← maps] at all
  exact all

/-- Where a crash may be. -/
theorem cases (begins : done <+: build ++ removals ++ (manifestOps w'.eng.manifest ++ tail)) :
    done <+: build ++ removals ∨ done = build ++ removals ++ [.truncate .manifest] ∨
      ∃ later, done = build ++ removals ++ (manifestOps w'.eng.manifest ++ later) ∧
        later <+: tail := by
  rcases prefix_append_cases begins with early | ⟨rest, rfl, inRest⟩
  · exact Or.inl early
  rcases prefix_append_cases inRest with saving | ⟨later, rfl, inTail⟩
  · cases rest with
    | nil => exact Or.inl (by rw [List.append_nil])
    | cons op rest =>
        obtain ⟨rfl, saving⟩ := List.cons_prefix_cons.mp saving
        cases rest with
        | nil => exact Or.inr (Or.inl rfl)
        | cons op rest =>
            obtain ⟨-, written⟩ := List.cons_prefix_cons.mp saving
            obtain ⟨rfl, none⟩ := List.cons_prefix_cons.mp written
            obtain rfl := List.prefix_nil.mp none
            exact Or.inr (Or.inr ⟨[], rfl, List.nil_prefix⟩)
  · exact Or.inr (Or.inr ⟨later, rfl, inTail⟩)

theorem blank (steps : Steps w w' build removals tail) (log : w.eng.wal.file.path = .wal 1)
    (begins : done <+: build ++ removals ++ (manifestOps w'.eng.manifest ++ tail))
    (blank : Blank done) : done = build ++ removals ++ [.truncate .manifest] := by
  have last := List.mem_of_getLast? blank
  rcases cases begins with early | same | ⟨later, rfl, inTail⟩
  · obtain ⟨id, isTable⟩ := steps.early_file early _ last
    cases isTable
  · exact same
  · rw [Blank, ← List.append_assoc] at blank
    rcases List.eq_nil_or_concat later with rfl | ⟨before, op, rfl⟩
    · simp [manifestOps] at blank
    · rw [List.concat_eq_append, ← List.append_assoc, List.getLast?_concat] at blank
      have inLog := steps.tail_file log op (inTail.subset (by simp))
      rw [Option.some.inj blank] at inLog
      cases inLog

/-- **With the manifest truncated** the directory has a torn manifest. -/
theorem torn (steps : Steps w w' build removals tail) (log : w.eng.wal.file.path = .wal 1)
    (begins : done <+: build ++ removals ++ (manifestOps w'.eng.manifest ++ tail))
    (blank : Blank done) (dir : s.dir = applyOps done w.sys.dir) :
    ManifestTorn w'.eng.manifest s.dir := by
  rw [steps.blank log begins blank, applyOps_append] at dir
  refine ⟨[], by rw [dir]; exact FsOp.lookup_truncate _ _, List.nil_prefix, fun none => ?_⟩
  have short := congrArg List.length none
  simp [Manifest.encode, Manifest.magic] at short

/-- **What a crash leaves** is opened and shows what `contentsLeft` shows. -/
theorem recovers (steps : Steps w w' build removals tail) (logged : Logged w rs bs)
    (kept : Kept w) (resting : Resting w) (resting' : Resting w') (fits : FilesFit w'.sys)
    (faultless : w.sys.env.Faultless)
    (begins : done <+: build ++ removals ++ (manifestOps w'.eng.manifest ++ tail))
    (whole : ¬ Blank done) (dir : s.dir = applyOps done w.sys.dir) (env : s.env = w.sys.env)
    (still : s.ClockAt t) (opts : Options) :
    Recovers opts s ((contentsLeft w (mapsListed w'.eng) done).shows t) := by
  rcases cases begins with early | rfl | ⟨later, rfl, inTail⟩
  · exact steps.recovers_early logged kept resting (fits.of_extends ⟨_, steps.did⟩) faultless early
      dir env still opts
  · exact absurd (List.getLast?_concat ..) whole
  · exact steps.recovers_late logged kept resting resting' fits faultless inTail dir env still opts

end Steps

/-! ## Flushes and compactions -/

theorem Engine.Flush.steps {p : Table} (flush : Flush w p w') :
    ∃ build rest, Steps w w' build [] (.truncate (.wal 1) :: rest) := by
  obtain ⟨metrics, eng⟩ := flush.eng
  obtain ⟨s₁, s₂, rest, built, saved, reset, leftover⟩ := flush.sys
  obtain ⟨build, did, ofTable⟩ := built.writes
  have isManifest : w'.eng.manifest = w.eng.manifest.addSst 0 p.1 := by rw [eng]
  rw [← isManifest] at saved
  refine ⟨build, rest, ?_, ?_, by simp, Or.inr ⟨rest, rfl, leftover⟩⟩
  · rw [List.append_nil]
    exact did.trans (saved.trans reset)
  · intro op member
    rw [ofTable op member, flush.id]

theorem Engine.Compaction.steps {level : Nat} {time : Bytes → Nat} {added : Option Table}
    (compaction : Compaction w level time added w') :
    ∃ build removals, Steps w w' build removals [] := by
  obtain ⟨s₁, s₂, removals, built, removed, sub, saved⟩ := compaction.sys
  have isRemoval : ∀ op ∈ removals, ∃ id, op = .remove (.sst id) := by
    intro op member
    obtain ⟨sst, -, rfl⟩ := List.mem_map.mp (sub.subset member)
    exact ⟨_, rfl⟩
  obtain ⟨build, did, ofTable⟩ : ∃ build, w.sys.Did build s₁ ∧
      ∀ op ∈ build, op.file = .sst w.eng.nextSstId := by
    cases isNew : added with
    | none =>
        rw [isNew] at built
        exact ⟨[], built, by simp⟩
    | some p =>
        rw [isNew] at built
        obtain ⟨build, did, ofTable⟩ := Built.writes built
        exact ⟨build, did, fun op member => by rw [ofTable op member, compaction.id_fresh isNew]⟩
  refine ⟨build, removals, ?_, ofTable, isRemoval, Or.inl rfl⟩
  rw [List.append_nil]
  exact (did.trans removed).trans saved

end KvEngine
