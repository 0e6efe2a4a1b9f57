import KvEngine.Engine.Requests
import KvEngine.Engine.Session
import KvEngine.Foundations.Forgetting

/-!
# The block cache is transparent

A cached block is the one that the open table of its id decodes, because ids are
not given out twice and a table never changes.  Hence an engine answers every
request as the same engine without the cache does, and both leave the same files.
Nothing is assumed about the directory they were opened on.
-/

namespace KvEngine

open Foundations

/-! ## One table -/

namespace SSTableReader

variable {truth : CacheKey → Block → Prop} {r : SSTableReader} {c : Option BlockCache}

/-- The computation ends as it does without the cache, which stays coherent. -/
abbrev Cacheless {α : Type} (truth : CacheKey → Block → Prop) (x : CacheM α)
    (c : Option BlockCache) : Prop :=
  Forgets (fun _ => none) (Coherent truth) x c

/-- A block is loaded from the cache just if the table decodes it. -/
theorem cacheless_loadBlock (coherent : Coherent truth c) (serves : Serves truth r) (i : Nat) :
    Cacheless truth (r.loadBlock i) c := by
  obtain ⟨hit, c₁, looked, coherent₁, isTrue⟩ := cacheGet_ok coherent ⟨r.sstId, i⟩
  unfold Cacheless Forgets
  rw [loadBlock]
  simp only
  rw [bind_apply_ok looked, bind_apply_ok (rfl : cacheGet ⟨r.sstId, i⟩ none = .ok none none)]
  cases hit with
  | some block =>
      -- a hit is the block that the uncached run decodes
      have decodes : r.decodeBlock i = .ok block := (serves i block).mp (isTrue block rfl)
      refine ⟨c₁, coherent₁, Or.inl ⟨block, rfl, ?_⟩⟩
      simp only [decodes]
      rfl
  | none =>
      cases decodes : r.decodeBlock i with
      | error e => exact ⟨c₁, coherent₁, Or.inr ⟨e, rfl, rfl⟩⟩
      | ok block =>
          obtain ⟨c₂, stored, coherent₂⟩ := cachePut_ok coherent₁ ((serves i block).mpr decodes)
          refine ⟨c₂, coherent₂, Or.inl ⟨block, ?_, rfl⟩⟩
          dsimp only
          rw [bind_apply_ok (rfl : liftResult (Except.ok block) c₁ = _), bind_apply_ok stored]
          rfl

theorem cacheless_get (coherent : Coherent truth c) (serves : Serves truth r) (key : Bytes) :
    Cacheless truth (r.get key) c := by
  refine (Forgets.liftResult coherent _).bind (fun _ holds => holds) fun passes c₁ _ coherent₁ => ?_
  cases passes with
  | false => exact .pure coherent₁ _
  | true =>
      simp only [Bool.not_true, Bool.false_eq_true, if_false]
      cases r.blockFor key with
      | none => exact .pure coherent₁ _
      | some i =>
          exact (cacheless_loadBlock coherent₁ serves i).bind (fun _ holds => holds)
            fun _ _ _ coherent₂ => .liftResult coherent₂ _

theorem cacheless_iterFrom (coherent : Coherent truth c) (serves : Serves truth r) (n i : Nat) :
    Cacheless truth (r.iterFrom n i) c := by
  induction n generalizing c i with
  | zero => exact .pure coherent _
  | succ n inductionHypothesis =>
      obtain ⟨c₁, coherent₁, ⟨block, loaded, loaded'⟩ | ⟨e, failed, failed'⟩⟩ :=
        cacheless_loadBlock coherent serves i
      · obtain ⟨c₂, coherent₂, rest⟩ := (inductionHypothesis coherent₁ (i + 1)).bind
          (fun _ holds => holds)
          fun rest _ _ holds => Forgets.pure holds (block.entries ++ rest)
        refine ⟨c₂, coherent₂, ?_⟩
        rw [iterFrom]
        simp only [loaded, loaded']
        exact rest
      · refine ⟨c₁, coherent₁, ?_⟩
        rw [iterFrom]
        simp only [failed, failed']
        -- iteration stops at a block that cannot be loaded
        cases e with
        | err _ => exact Or.inl ⟨[], rfl, rfl⟩
        | panic => exact Or.inr ⟨_, rfl, rfl⟩
        | outOfFuel => exact Or.inr ⟨_, rfl, rfl⟩

end SSTableReader

/-! ## The engine without its cache -/

/-- The engine with the block cache switched off. -/
def Engine.uncached (e : Engine) : Engine :=
  { e with blockCache := none, opts := { e.opts with blockCacheSize := 0 } }

/-- The world with the block cache switched off. -/
def World.uncached (w : World) : World := { w with eng := w.eng.uncached }

/-- Every cached block belongs to an id below `bound`, and is what each open table of
that id decodes; tables of one id are the same. -/
structure ReadyBelow (bound : Nat) (w : World) : Prop where
  named : ∀ p ∈ w.eng.sstReaders, p.2.sstId = p.1.id
  fresh : ∀ p ∈ w.eng.sstReaders, p.1.id < bound
  agree : ∀ p ∈ w.eng.sstReaders, ∀ q ∈ w.eng.sstReaders, p.1.id = q.1.id → p.2 = q.2
  coherent : SSTableReader.Coherent (blockTruth w.eng.sstReaders bound) w.eng.blockCache
  room : bound ≤ w.eng.nextSstId

/-- What holds between two requests. -/
abbrev Ready (w : World) : Prop := ReadyBelow w.eng.nextSstId w

/-- The run ends as it does without the cache, in a state that satisfies `P`. -/
abbrev Transparent {α : Type} (P : World → Prop) (x : EngineM α) (w : World) : Prop :=
  Forgets World.uncached P x w

variable {w : World} {bound : Nat}

namespace ReadyBelow

theorem serves (ready : ReadyBelow bound w) {p : Table} (member : p ∈ w.eng.sstReaders) :
    p.2.Serves (blockTruth w.eng.sstReaders bound) := by
  intro i block
  constructor
  · exact fun isTrue => isTrue.2 p member rfl
  · refine fun decodes => ⟨(ready.named p member).symm ▸ ready.fresh p member, fun q hq same => ?_⟩
    rw [ready.named q hq, ready.named p member] at same
    rw [ready.agree q hq p member same]
    exact decodes

/-- More ids may be given out. -/
theorem weaken (ready : ReadyBelow bound w) {larger : Nat} (more : bound ≤ larger)
    (room : larger ≤ w.eng.nextSstId) : ReadyBelow larger w where
  named := ready.named
  fresh p hp := (ready.fresh p hp).trans_le more
  agree := ready.agree
  coherent :=
    { sound := ready.coherent.sound
      held := fun c hc key held found =>
        have isTrue := ready.coherent.held c hc key held found
        ⟨isTrue.1.trans_le more, isTrue.2⟩ }
  room

/-- Everything that the invariant reads may have been left alone. -/
theorem congr (ready : ReadyBelow bound w) {w' : World}
    (readers : w'.eng.sstReaders = w.eng.sstReaders)
    (cache : w'.eng.blockCache = w.eng.blockCache) (ids : w'.eng.nextSstId = w.eng.nextSstId) :
    ReadyBelow bound w' where
  named := readers ▸ ready.named
  fresh := readers ▸ ready.fresh
  agree := readers ▸ ready.agree
  coherent := by
    rw [readers, cache]
    exact ready.coherent
  room := ids ▸ ready.room

/-- Tables may be closed. -/
theorem sublist (ready : ReadyBelow bound w) {w' : World}
    (readers : w'.eng.sstReaders.Sublist w.eng.sstReaders)
    (cache : w'.eng.blockCache = w.eng.blockCache) (ids : w'.eng.nextSstId = w.eng.nextSstId) :
    ReadyBelow bound w' where
  named p hp := ready.named p (readers.subset hp)
  fresh p hp := ready.fresh p (readers.subset hp)
  agree p hp q hq := ready.agree p (readers.subset hp) q (readers.subset hq)
  coherent := by
    rw [cache]
    exact
      { sound := ready.coherent.sound
        held := fun c hc key held found =>
          have isTrue := ready.coherent.held c hc key held found
          ⟨isTrue.1, fun q hq => isTrue.2 q (readers.subset hq)⟩ }
  room := ids ▸ ready.room

/-- A table with the id `bound` may be opened, since nothing is cached for that id. -/
theorem push (ready : ReadyBelow bound w) {w' : World} {p : Table} (id : p.1.id = bound)
    (named : p.2.sstId = bound) (readers : w'.eng.sstReaders = w.eng.sstReaders ++ [p])
    (cache : w'.eng.blockCache = w.eng.blockCache) (room : bound + 1 ≤ w'.eng.nextSstId) :
    ReadyBelow (bound + 1) w' := by
  have split : ∀ q ∈ w'.eng.sstReaders, q ∈ w.eng.sstReaders ∨ q = p := by
    intro q hq
    rw [readers] at hq
    rcases List.mem_append.mp hq with old | new
    · exact Or.inl old
    · exact Or.inr (List.mem_singleton.mp new)
  refine ⟨fun q hq => ?_, fun q hq => ?_, fun q hq q' hq' same => ?_, ⟨?_, ?_⟩, room⟩
  · rcases split q hq with old | rfl
    · exact ready.named q old
    · rw [named, id]
  · rcases split q hq with old | rfl
    · exact Nat.lt_succ_of_lt (ready.fresh q old)
    · rw [id]
      exact Nat.lt_succ_self _
  · rcases split q hq with old | rfl
    · rcases split q' hq' with old' | rfl
      · exact ready.agree q old q' old' same
      · exact absurd (same.trans id) (ready.fresh q old).ne
    · rcases split q' hq' with old' | rfl
      · exact absurd (same.symm.trans id) (ready.fresh q' old').ne
      · rfl
  · rw [cache]
    exact ready.coherent.sound
  · rw [cache]
    intro c hc key held found
    obtain ⟨small, isTrue⟩ := ready.coherent.held c hc key held found
    refine ⟨Nat.lt_succ_of_lt small, fun q hq same => ?_⟩
    rcases split q hq with old | rfl
    · exact isTrue q old same
    · rw [named] at same
      exact absurd same small.ne'

theorem ready (ready : ReadyBelow bound w) : Ready w := ready.weaken ready.room le_rfl

end ReadyBelow

theorem Ready.congr (ready : Ready w) {w' : World}
    (readers : w'.eng.sstReaders = w.eng.sstReaders)
    (cache : w'.eng.blockCache = w.eng.blockCache) (ids : w'.eng.nextSstId = w.eng.nextSstId) :
    Ready w' :=
  (ReadyBelow.congr ready readers cache ids).ready

/-! ## Parts of a method -/

section Parts

variable {α β : Type} {P : World → Prop}

theorem transparent_onSys (ready : ReadyBelow bound w) (x : SysM α) :
    Transparent (ReadyBelow bound) (onSys x) w :=
  Forgets.zoom rfl (fun _ => rfl) fun _ => ready.congr rfl rfl rfl

theorem transparent_onWal (ready : ReadyBelow bound w) (x : WALWriter.M α) :
    Transparent (ReadyBelow bound) (onWal x) w :=
  Forgets.zoom rfl (fun _ => rfl) fun _ => ready.congr rfl rfl rfl

/-- A computation on the cache leaves the readers alone. -/
theorem transparent_onCache (ready : ReadyBelow bound w) {x : CacheM α}
    (inner : SSTableReader.Cacheless (blockTruth w.eng.sstReaders bound) x w.eng.blockCache) :
    Transparent (fun w' => ReadyBelow bound w' ∧ w'.eng.sstReaders = w.eng.sstReaders)
      (onCache x) w := by
  obtain ⟨c, coherent, outcome⟩ := inner
  refine ⟨{ w with eng := { w.eng with blockCache := c } }, ⟨{ ready with coherent }, rfl⟩, ?_⟩
  rcases outcome with ⟨a, run, run'⟩ | ⟨e, run, run'⟩
  · refine Or.inl ⟨a, ?_, ?_⟩
    · simp only [onCache, zoom, run]
    · simp only [onCache, zoom, World.uncached, Engine.uncached, run']
  · refine Or.inr ⟨e, ?_, ?_⟩
    · simp only [onCache, zoom, run]
    · simp only [onCache, zoom, World.uncached, Engine.uncached, run']

theorem transparent_self_bind {f : Engine → EngineM β} (blind : f w.uncached.eng = f w.eng)
    (rest : Transparent P (f w.eng) w) : Transparent P (self >>= f) w := by
  obtain ⟨t, holds, outcome⟩ := rest
  refine ⟨t, holds, ?_⟩
  rw [bind_apply_ok (rfl : self w = .ok w.eng w),
    bind_apply_ok (rfl : self w.uncached = .ok w.uncached.eng w.uncached), blind]
  exact outcome

theorem transparent_modifySelf {f : Engine → Engine}
    (commutes : f w.uncached.eng = (World.uncached { w with eng := f w.eng }).eng)
    (holds : P { w with eng := f w.eng }) : Transparent P (modifySelf f) w :=
  Forgets.modify (congrArg (fun e => (⟨e, w.sys⟩ : World)) commutes) holds

end Parts

namespace Engine

/-! ## Reads -/

theorem transparent_getFrom (key : Bytes) {tables : List Table} (ready : ReadyBelow bound w)
    (open_ : ∀ p ∈ tables, p ∈ w.eng.sstReaders) :
    Transparent (ReadyBelow bound) (getFrom key tables) w := by
  induction tables generalizing w with
  | nil => exact .pure ready _
  | cons p rest inductionHypothesis =>
      have serves := ready.serves (open_ p List.mem_cons_self)
      refine (transparent_onCache ready
        (SSTableReader.cacheless_get ready.coherent serves key)).bind (fun _ holds => holds.1)
        fun v w₁ _ ⟨ready₁, readers⟩ => ?_
      cases v with
      | some v => exact transparent_onSys ready₁ _
      | none =>
          exact inductionHypothesis ready₁ fun q hq => readers ▸ open_ q (List.mem_cons_of_mem _ hq)

theorem transparent_get (key : Bytes) (ready : ReadyBelow bound w) :
    Transparent (ReadyBelow bound) (get key) w := by
  refine (transparent_modifySelf rfl (ready.congr rfl rfl rfl)).bind (fun _ holds => holds)
    fun _ w₁ _ ready₁ => ?_
  refine transparent_self_bind rfl ?_
  refine (Forgets.liftResult ready₁ _).bind (fun _ holds => holds) fun v w₂ run ready₂ => ?_
  obtain ⟨-, rfl⟩ := ends_liftResult.mp run
  cases v with
  | some v => exact transparent_onSys ready₂ _
  | none => exact transparent_getFrom key ready₂ fun p hp => List.mem_reverse.mp hp

theorem transparent_getAtFrom (key : Bytes) (snap : Snapshot) {tables : List Table}
    (ready : ReadyBelow bound w) (open_ : ∀ p ∈ tables, p ∈ w.eng.sstReaders) :
    Transparent (ReadyBelow bound) (getAtFrom key snap tables) w := by
  induction tables generalizing w with
  | nil => exact .pure ready _
  | cons p rest inductionHypothesis =>
      have serves := ready.serves (open_ p List.mem_cons_self)
      refine (transparent_onCache ready
        (SSTableReader.cacheless_get ready.coherent serves key)).bind (fun _ holds => holds.1)
        fun v w₁ _ ⟨ready₁, readers⟩ => ?_
      cases v.bind (seenBy snap) with
      | some v => exact transparent_onSys ready₁ _
      | none =>
          exact inductionHypothesis ready₁ fun q hq => readers ▸ open_ q (List.mem_cons_of_mem _ hq)

theorem transparent_getAt (key : Bytes) (snap : Snapshot) (ready : ReadyBelow bound w) :
    Transparent (ReadyBelow bound) (getAt key snap) w := by
  refine transparent_self_bind rfl ?_
  refine (Forgets.liftResult ready _).bind (fun _ holds => holds) fun v w₁ run ready₁ => ?_
  obtain ⟨-, rfl⟩ := ends_liftResult.mp run
  cases v.bind (seenBy snap) with
  | some v => exact transparent_onSys ready₁ _
  | none => exact transparent_getAtFrom key snap ready₁ fun p hp => List.mem_reverse.mp hp

theorem transparent_overlay (start stop : Bytes) {tables : List Table} (ready : ReadyBelow bound w)
    (open_ : ∀ p ∈ tables, p ∈ w.eng.sstReaders) (map : SortedMap Bytes Bytes) :
    Transparent (ReadyBelow bound) (overlay start stop tables map) w := by
  induction tables generalizing w map with
  | nil => exact .pure ready _
  | cons p rest inductionHypothesis =>
      have serves := ready.serves (open_ p List.mem_cons_self)
      exact (transparent_onCache ready
        (SSTableReader.cacheless_iterFrom ready.coherent serves _ _)).bind (fun _ holds => holds.1)
        fun _ w₁ _ ⟨ready₁, readers⟩ =>
          inductionHypothesis ready₁ (fun q hq => readers ▸ open_ q (List.mem_cons_of_mem _ hq)) _

theorem transparent_scan (start stop : Bytes) (ready : ReadyBelow bound w) :
    Transparent (ReadyBelow bound) (scan start stop) w := by
  refine transparent_self_bind rfl ?_
  refine (transparent_overlay start stop ready (fun p hp => hp) _).bind (fun _ holds => holds)
    fun map w₁ _ ready₁ => ?_
  exact (Forgets.liftResult ready₁ _).bind (fun _ holds => holds) fun recent w₂ _ ready₂ =>
    transparent_onSys ready₂ _

/-! ## Flush and compaction -/

theorem transparent_takeSstId (ready : ReadyBelow bound w) :
    Transparent (ReadyBelow bound) takeSstId w := by
  refine transparent_self_bind rfl ?_
  refine (Forgets.liftResult ready _).bind (fun _ holds => holds) fun next w₁ run ready₁ => ?_
  obtain ⟨taken, rfl⟩ := ends_liftResult.mp run
  obtain ⟨-, rfl⟩ := checkedAdd_eq_ok.mp taken
  have later : ReadyBelow bound
      { w₁ with eng := { w₁.eng with nextSstId := w₁.eng.nextSstId + 1 } } :=
    { ready₁ with room := Nat.le_succ_of_le ready₁.room }
  exact (transparent_modifySelf rfl later).bind (fun _ holds => holds) fun _ w₂ _ ready₂ =>
    .pure ready₂ _

theorem transparent_saveManifest (ready : ReadyBelow bound w) :
    Transparent (ReadyBelow bound) saveManifest w :=
  transparent_self_bind rfl (transparent_onSys ready _)

theorem transparent_resetWal (ready : ReadyBelow bound w) :
    Transparent (ReadyBelow bound) resetWal w :=
  (transparent_onSys ready _).bind (fun _ holds => holds) fun _ _ _ ready₁ =>
    (transparent_onSys ready₁ _).bind (fun _ holds => holds) fun _ _ _ ready₂ =>
      .modify rfl (ready₂.congr rfl rfl rfl)

theorem transparent_mergeTables (ids : List Nat) (ready : ReadyBelow bound w)
    (all : SortedMap Bytes Bytes) : Transparent (ReadyBelow bound) (mergeTables ids all) w := by
  induction ids generalizing w all with
  | nil => exact .pure ready _
  | cons id ids inductionHypothesis =>
      refine transparent_self_bind rfl ?_
      cases found : w.eng.sstReaders.find? (fun p => p.1.id = id) with
      | none => exact inductionHypothesis ready all
      | some p =>
          have serves := ready.serves (List.mem_of_find?_eq_some found)
          exact (transparent_onCache ready
            (SSTableReader.cacheless_iterFrom ready.coherent serves _ _)).bind
            (fun _ holds => holds.1) fun _ w₁ _ ⟨ready₁, _⟩ => inductionHypothesis ready₁ _

theorem transparent_removeTables (ids : List Nat) (ready : ReadyBelow bound w) :
    Transparent (ReadyBelow bound) (removeTables ids) w := by
  induction ids generalizing w with
  | nil => exact .pure ready _
  | cons id ids inductionHypothesis =>
      refine (transparent_modifySelf rfl (ready.sublist List.filter_sublist rfl rfl)).bind
        (fun _ holds => holds) fun _ w₁ _ ready₁ => ?_
      exact (transparent_onSys ready₁ _).bind (fun _ holds => holds)
        fun _ w₂ _ ready₂ => inductionHypothesis ready₂

theorem transparent_finishCompaction (ids : List Nat) (ready : ReadyBelow bound w) :
    Transparent (ReadyBelow bound) (finishCompaction ids) w := by
  refine (transparent_removeTables ids ready).bind (fun _ holds => holds) fun _ w₁ _ ready₁ => ?_
  refine (transparent_saveManifest ready₁).bind (fun _ holds => holds) fun _ w₂ _ ready₂ => ?_
  exact transparent_modifySelf rfl (ready₂.congr rfl rfl rfl)

/-- A table that was just opened carries the id it was opened under. -/
theorem sstId_openWithCache {sstId : Nat} {r : SSTableReader} {w' : World}
    (opened : onSys (SSTableReader.openWithCache (.sst sstId) sstId) w = .ok r w') :
    r.sstId = sstId ∧ w'.eng = w.eng := by
  obtain ⟨s, run, rfl⟩ := ends_onSys.mp opened
  simp only [SSTableReader.openWithCache, ends_bind, ends_liftResult] at run
  obtain ⟨data, s₁, -, parsed, -⟩ := run
  exact ⟨SSTableReader.sstId_parse parsed, rfl⟩

/-- An id that was given out: nothing is cached for it, and it is not given out again. -/
structure Taken (id : Nat) (w : World) : Prop where
  below : ReadyBelow id w
  room : id < w.eng.nextSstId

variable {id : Nat}

theorem Taken.ready (taken : Taken id w) : Ready w := taken.below.ready

theorem Taken.withSys (taken : Taken id w) (s : Sys) : Taken id { w with sys := s } :=
  ⟨taken.below.congr rfl rfl rfl, taken.room⟩

theorem transparent_writeTaken (entries : List (Bytes × Bytes)) (taken : Taken id w) :
    Transparent (Taken id) (writeSst id entries) w :=
  transparent_self_bind rfl (Forgets.zoom rfl (fun _ => rfl) taken.withSys)

theorem transparent_openTaken (taken : Taken id w) :
    Transparent (Taken id) (onSys (SSTableReader.openWithCache (.sst id) id)) w :=
  Forgets.zoom rfl (fun _ => rfl) taken.withSys

theorem ready_pushed (taken : Taken id w) {p : Table} {w' : World} (named : p.1.id = id)
    (opened : p.2.sstId = id) (readers : w'.eng.sstReaders = w.eng.sstReaders ++ [p])
    (cache : w'.eng.blockCache = w.eng.blockCache) (ids : w'.eng.nextSstId = w.eng.nextSstId) :
    Ready w' :=
  (taken.below.push named opened readers cache (ids ▸ taken.room)).ready

theorem transparent_installMerged (level : Nat) (entries : List (Bytes × Bytes)) (ready : Ready w) :
    Transparent Ready (installMerged level entries) w := by
  refine (transparent_takeSstId ready).bind (fun _ below => below.ready) fun id w₁ took below => ?_
  obtain ⟨rfl, rfl, -⟩ := ends_takeSstId took
  have taken : Taken w.eng.nextSstId _ := ⟨below, Nat.lt_succ_self _⟩
  refine (transparent_writeTaken entries taken).bind (fun _ t => t.ready) fun _ w₂ _ taken₂ => ?_
  refine (Forgets.liftResult taken₂ _).bind (fun _ t => t.ready) fun sst w₃ described taken₃ => ?_
  obtain ⟨isMeta, rfl⟩ := ends_liftResult.mp described
  obtain ⟨idIs, -⟩ := metaOf_ok isMeta
  refine (transparent_openTaken taken₃).bind (fun _ t => t.ready) fun r w₄ opened taken₄ => ?_
  obtain ⟨named, -⟩ := sstId_openWithCache opened
  refine (transparent_modifySelf rfl ⟨taken₄.below.congr rfl rfl rfl, taken₄.room⟩).bind
    (P := Taken w.eng.nextSstId) (fun _ t => t.ready) fun _ w₅ listed taken₅ => ?_
  cases listed
  refine transparent_self_bind rfl ?_
  refine (Forgets.liftResult taken₅ _).bind (fun _ t => t.ready) fun pushed w₆ last taken₆ => ?_
  obtain ⟨atEnd, rfl⟩ := ends_liftResult.mp last
  rw [orPanic_eq_ok, Manifest.sstsAtLevel_addSst, if_pos rfl, List.getLast?_concat] at atEnd
  cases atEnd
  exact transparent_modifySelf rfl (ready_pushed taken₆ idIs named rfl rfl rfl)

theorem transparent_compactLevel (level : Nat) (ready : Ready w) :
    Transparent Ready (compactLevel level) w := by
  refine transparent_self_bind rfl ?_
  refine (Forgets.liftResult ready _).bind (fun _ holds => holds) fun dst w₁ _ ready₁ => ?_
  refine (transparent_mergeTables _ ready₁ _).bind (fun _ below => below.ready)
    fun merged w₂ _ ready₂ => ?_
  refine (transparent_onSys ready₂.ready _).bind (fun _ below => below.ready)
    fun entries w₃ _ below => ?_
  have ready₃ : Ready w₃ := below.ready
  dsimp only
  split
  · exact (transparent_finishCompaction _ ready₃).mono fun _ below => below.ready
  · exact (transparent_installMerged _ _ ready₃).bind (fun _ holds => holds)
      fun _ w₄ _ ready₄ => (transparent_finishCompaction _ ready₄).mono fun _ below => below.ready

theorem transparent_compactFrom (n level : Nat) (ready : Ready w) :
    Transparent Ready (compactFrom n level) w := by
  induction n generalizing w level with
  | zero => exact .pure ready _
  | succ n inductionHypothesis =>
      have first : Transparent Ready (compactIfFull level) w := by
        refine transparent_self_bind rfl ?_
        refine (Forgets.liftResult ready _).bind (fun _ holds => holds) fun _ w₁ run ready₁ => ?_
        obtain ⟨-, rfl⟩ := ends_liftResult.mp run
        split
        · exact .pure ready₁ _
        · exact transparent_compactLevel level ready₁
      exact first.bind (fun _ holds => holds) fun _ w₁ _ ready₁ =>
        inductionHypothesis (level + 1) ready₁

theorem transparent_flushEntries (entries : List (Bytes × Bytes)) (taken : Taken id w) :
    Transparent Ready (flushEntries id entries) w := by
  refine (transparent_writeTaken entries taken).bind (fun _ t => t.ready) fun _ w₂ _ taken₂ => ?_
  refine (Forgets.liftResult taken₂ _).bind (fun _ t => t.ready) fun sst w₃ described taken₃ => ?_
  obtain ⟨isMeta, rfl⟩ := ends_liftResult.mp described
  obtain ⟨idIs, -⟩ := metaOf_ok isMeta
  refine (transparent_openTaken taken₃).bind (fun _ t => t.ready) fun r w₄ opened taken₄ => ?_
  obtain ⟨named, -⟩ := sstId_openWithCache opened
  refine (transparent_modifySelf rfl
    (ready_pushed taken₄ (p := (sst, r)) idIs named rfl rfl rfl)).bind (P := Ready)
    (fun _ holds => holds) fun _ w₅ _ ready₅ => ?_
  refine (transparent_saveManifest ready₅).bind (fun _ below => below.ready)
    fun _ w₆ _ below => ?_
  refine (transparent_resetWal below).bind (fun _ below => below.ready) fun _ w₇ _ below => ?_
  exact transparent_modifySelf rfl (Ready.congr below.ready rfl rfl rfl)

theorem transparent_maybeFlush (ready : Ready w) : Transparent Ready maybeFlush w := by
  refine transparent_self_bind rfl ?_
  split
  · exact .pure ready _
  · refine (transparent_modifySelf rfl (Ready.congr ready rfl rfl rfl)).bind (P := Ready)
      (fun _ holds => holds) fun _ w₁ _ ready₁ => ?_
    refine (transparent_takeSstId ready₁).bind (fun _ below => below.ready) fun id w₂ took below => ?_
    obtain ⟨rfl, rfl, -⟩ := ends_takeSstId took
    have taken : Taken w₁.eng.nextSstId _ := ⟨below, Nat.lt_succ_self _⟩
    refine (Forgets.liftResult taken _).bind (fun _ t => t.ready) fun entries w₃ _ taken₃ => ?_
    split
    · exact .pure taken₃.ready _
    · refine (transparent_flushEntries entries taken₃).bind (fun _ holds => holds)
        fun _ w₄ _ ready₄ => ?_
      exact transparent_self_bind rfl (transparent_compactFrom _ _ ready₄)

/-! ## Writes -/

theorem transparent_takeSeq (ready : Ready w) : Transparent Ready takeSeq w := by
  refine transparent_self_bind rfl ?_
  refine (Forgets.liftResult ready _).bind (fun _ holds => holds) fun _ w₁ run ready₁ => ?_
  obtain ⟨-, rfl⟩ := ends_liftResult.mp run
  exact (transparent_modifySelf rfl (Ready.congr ready₁ rfl rfl rfl)).bind (fun _ holds => holds)
    fun _ _ _ ready₂ => .pure ready₂ _

theorem transparent_wal (ready : Ready w) (x : WALWriter.M Unit) : Transparent Ready (onWal x) w :=
  (transparent_onWal ready x).mono fun _ below => below.ready

theorem transparent_sys {α : Type} (ready : Ready w) (x : SysM α) : Transparent Ready (onSys x) w :=
  (transparent_onSys ready x).mono fun _ below => below.ready

theorem transparent_syncWal (ready : Ready w) : Transparent Ready syncWal w := by
  refine transparent_self_bind rfl ?_
  split
  · exact transparent_wal ready _
  · exact .pure ready _

theorem transparent_memtablePut (key value : Bytes) (ready : Ready w) :
    Transparent Ready (memtablePut key value) w := by
  refine transparent_self_bind rfl ?_
  refine (transparent_sys ready _).bind (fun _ holds => holds) fun _ w₁ _ ready₁ => ?_
  refine (Forgets.liftResult ready₁ _).bind (fun _ holds => holds) fun _ w₂ _ ready₂ => ?_
  exact transparent_modifySelf rfl (Ready.congr ready₂ rfl rfl rfl)

theorem transparent_logAndApply (record : Record) (count : Metrics → Metrics) (ready : Ready w) :
    Transparent Ready (logAndApply record count) w := by
  refine (transparent_wal ready _).bind (fun _ holds => holds) fun _ w₁ _ ready₁ => ?_
  refine (transparent_syncWal ready₁).bind (fun _ holds => holds) fun _ w₂ _ ready₂ => ?_
  refine (transparent_memtablePut _ _ ready₂).bind (fun _ holds => holds) fun _ w₃ _ ready₃ => ?_
  exact transparent_modifySelf rfl (Ready.congr ready₃ rfl rfl rfl)

theorem transparent_logBatch (ops : List BatchOp) (ready : Ready w) :
    Transparent Ready (logBatch ops) w := by
  induction ops generalizing w with
  | nil => exact .pure ready _
  | cons op ops inductionHypothesis =>
      exact (transparent_wal ready _).bind (fun _ holds => holds)
        fun _ w₁ _ ready₁ => inductionHypothesis ready₁

theorem transparent_applyBatch (ops : List BatchOp) (ready : Ready w) :
    Transparent Ready (applyBatch ops) w := by
  induction ops generalizing w with
  | nil => exact .pure ready _
  | cons op ops inductionHypothesis =>
      exact (transparent_memtablePut _ _ ready).bind (fun _ holds => holds)
        fun _ w₁ _ ready₁ => inductionHypothesis ready₁

theorem transparent_store (call : Call) (ready : Ready w) : Transparent Ready call.store w := by
  cases call with
  | put key value =>
      exact (transparent_takeSeq ready).bind (fun _ holds => holds)
        fun _ w₁ _ ready₁ => transparent_logAndApply _ _ ready₁
  | delete key =>
      exact (transparent_takeSeq ready).bind (fun _ holds => holds)
        fun _ w₁ _ ready₁ => transparent_logAndApply _ _ ready₁
  | putWithTtl key value ttl =>
      refine (transparent_sys ready _).bind (fun _ holds => holds) fun _ w₁ _ ready₁ => ?_
      refine (Forgets.liftResult ready₁ _).bind (fun _ holds => holds) fun _ w₂ _ ready₂ => ?_
      exact (transparent_takeSeq ready₂).bind (fun _ holds => holds)
        fun _ w₃ _ ready₃ => transparent_logAndApply _ _ ready₃
  | writeBatch batch =>
      change Transparent Ready (if batch.isEmpty then pure () else storeBatch batch.ops) w
      split
      · exact .pure ready _
      · refine (transparent_logBatch _ ready).bind (fun _ holds => holds) fun _ w₁ _ ready₁ => ?_
        refine (transparent_wal ready₁ _).bind (fun _ holds => holds) fun _ w₂ _ ready₂ => ?_
        exact transparent_applyBatch _ ready₂

theorem transparent_call (call : Call) (ready : Ready w) : Transparent Ready call.run w := by
  have stores := transparent_store call ready
  cases call with
  | writeBatch batch =>
      change Transparent Ready (writeBatch batch) w
      unfold writeBatch
      change Transparent Ready (if batch.isEmpty then pure () else storeBatch batch.ops) w at stores
      split
      · exact .pure ready _
      · next nonempty =>
          rw [if_neg nonempty] at stores
          exact stores.bind (fun _ holds => holds) fun _ _ _ ready₁ => transparent_maybeFlush ready₁
  | _ => exact stores.bind (fun _ holds => holds) fun _ _ _ ready₁ => transparent_maybeFlush ready₁

/-! ## Requests -/

/-- **One request** is answered as without the cache. -/
theorem transparent_request (request : Request) (ready : Ready w) :
    Transparent Ready request.run w := by
  cases request with
  | write call =>
      exact (transparent_call call ready).bind (fun _ holds => holds)
        fun _ _ _ ready₁ => .pure ready₁ _
  | get key =>
      exact (transparent_get key ready).bind (fun _ below => below.ready)
        fun _ _ _ below => .pure below.ready _
  | getAt key snap =>
      exact (transparent_getAt key snap ready).bind (fun _ below => below.ready)
        fun _ _ _ below => .pure below.ready _
  | scan start stop =>
      exact (transparent_scan start stop ready).bind (fun _ below => below.ready)
        fun _ _ _ below => .pure below.ready _

/-- **A run of requests**: the same answers, and the same world but for the cache. -/
theorem serve_uncached (requests : List Request) (ready : Ready w) :
    serve requests w.uncached = ((serve requests w).1, (serve requests w).2.uncached) ∧
      Ready (serve requests w).2 := by
  induction requests generalizing w with
  | nil => exact ⟨rfl, ready⟩
  | cons request requests inductionHypothesis =>
      obtain ⟨t, readyT, ⟨response, run, run'⟩ | ⟨e, run, run'⟩⟩ := transparent_request request ready
      all_goals
        obtain ⟨rest, readyLast⟩ := inductionHypothesis readyT
        simp only [serve, run, run', rest]
        exact ⟨trivial, readyLast⟩

/-! ## Opening with and without the cache -/

theorem openWithOptions_uncached (opts : Options) :
    openWithOptions { opts with blockCacheSize := 0 } = Engine.uncached <$> openWithOptions opts := by
  simp only [openWithOptions, map_bind, map_pure]
  rfl

/-- An engine that was just opened, on whatever directory, is ready. -/
theorem ready_opened {opts : Options} {s s' : Sys} {e : Engine}
    (run : Ends (openWithOptions opts) s e s') : Ready ⟨e, s'⟩ := by
  obtain ⟨recovered, -⟩ := ends_openWithOptions run
  refine ⟨fun p hp => ?_, fun p hp => ?_, fun p hp q hq same => ?_, ?_, le_rfl⟩
  · obtain ⟨data, -, parsed⟩ := mem_tablesOf recovered.readers hp
    exact SSTableReader.sstId_parse parsed
  · rw [recovered.nextSstId]
    exact lt_nextIdAfter hp
  · obtain ⟨data, found, parsed⟩ := mem_tablesOf recovered.readers hp
    obtain ⟨data', found', parsed'⟩ := mem_tablesOf recovered.readers hq
    rw [same, found'] at found
    cases found
    rw [same, parsed'] at parsed
    exact (Except.ok.inj parsed).symm
  · rw [recovered.blockCache]
    exact coherent_new opts

/-- What a client is answered that opens a directory and sends requests, and what is
left of the outside world. -/
def session (opts : Options) (s : Sys) (requests : List Request) :
    Except Failure (List (Except Failure Response)) × Sys :=
  match openWithOptions opts s with
  | .error e s' => (.error e, s')
  | .ok e s' =>
      let (responses, last) := serve requests ⟨e, s'⟩
      (.ok responses, last.sys)

/-- **The block cache is transparent.** A client is answered as without the cache and the
same files are left; and a block that is cached for an open table is the one that this
table decodes. -/
theorem block_cache_transparent (opts : Options) (s : Sys) (requests : List Request) :
    session opts s requests = session { opts with blockCacheSize := 0 } s requests ∧
      ∀ e s', Ends (openWithOptions opts) s e s' →
        ∀ p ∈ (serve requests ⟨e, s'⟩).2.eng.sstReaders, ∀ cache,
          (serve requests ⟨e, s'⟩).2.eng.blockCache = some cache → ∀ i held,
            cache.map.lookup ⟨p.2.sstId, i⟩ = some held → p.2.decodeBlock i = .ok held.1 := by
  constructor
  · unfold session
    rw [openWithOptions_uncached]
    cases run : openWithOptions opts s with
    | error e s' =>
        have run' : (Engine.uncached <$> openWithOptions opts) s = .error e s' := by
          change EStateM.map _ _ s = _
          simp only [EStateM.map, run]
        rw [run']
    | ok e s' =>
        have run' : (Engine.uncached <$> openWithOptions opts) s = .ok e.uncached s' := by
          change EStateM.map _ _ s = _
          simp only [EStateM.map, run]
        rw [run']
        obtain ⟨same, -⟩ := serve_uncached requests (ready_opened run)
        change _ = (Except.ok (serve requests (World.uncached ⟨e, s'⟩)).1,
          (serve requests (World.uncached ⟨e, s'⟩)).2.sys)
        rw [same]
        rfl
  · intro e s' run p member cache cached i held found
    obtain ⟨-, ready⟩ := serve_uncached requests (ready_opened run)
    exact (ready.serves member i held.1).mp (ready.coherent.held cache cached _ held found)

end Engine

end KvEngine
