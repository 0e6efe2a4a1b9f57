import KvEngine.Slice
import KvEngine.System

/-!
# Manifest

Records which SSTable files belong to each level (all integers little-endian):

```text
[magic: 4 bytes "KVDB"] [version: u32] [num_levels: u32]
for each level:
    [num_ssts: u32]
    for each SST:
        [id: u64] [min_key_len: u32] [min_key] [max_key_len: u32] [max_key]
```
-/

namespace KvEngine

open Foundations

/-- Metadata for a single SSTable file. -/
structure SSTMeta where
  id : Nat
  level : Nat
  minKey : Bytes
  maxKey : Bytes
  deriving DecidableEq, Repr

/-- The list of active SSTable files across all levels. -/
structure Manifest where
  levels : List (List SSTMeta)
  deriving DecidableEq, Repr

namespace Manifest

/-- Magic bytes identifying a valid manifest file: `KVDB`. -/
def magic : Bytes := [0x4B, 0x56, 0x44, 0x42]

/-- Current manifest format version. -/
def version : Nat := 1

/-- A manifest without levels. -/
def new : Manifest := ⟨[]⟩

/-- Add an SSTable entry to the given level, which is created if it is missing. -/
def addSst (m : Manifest) (level : Nat) (sst : SSTMeta) : Manifest :=
  let levels := m.levels ++ List.replicate (level + 1 - m.levels.length) []
  ⟨levels.modify level (fun l => l ++ [sst])⟩

/-- Remove an SSTable by id from the first level that holds it. -/
def removeFrom (id : Nat) : List (List SSTMeta) → List (List SSTMeta) × Bool
  | [] => ([], false)
  | level :: rest =>
      let kept := level.filter (fun m => m.id ≠ id)
      if kept.length < level.length then (kept :: rest, true)
      else
        let (rest', found) := removeFrom id rest
        (kept :: rest', found)

/-- Remove an SSTable by id.  The flag says whether it was found. -/
def removeSst (m : Manifest) (id : Nat) : Manifest × Bool :=
  let (levels, found) := removeFrom id m.levels
  (⟨levels⟩, found)

/-- All SSTable metadata at a given level. -/
def sstsAtLevel (m : Manifest) (level : Nat) : List SSTMeta := m.levels[level]?.getD []

/-- `[len: u32] [bytes]` -/
def encodeBytes (bytes : Bytes) : Bytes := leBytes 4 bytes.length ++ bytes

/-- One SSTable entry. -/
def encodeSst (sst : SSTMeta) : Bytes :=
  leBytes 8 sst.id ++ encodeBytes sst.minKey ++ encodeBytes sst.maxKey

/-- One level. -/
def encodeLevel (level : List SSTMeta) : Bytes :=
  leBytes 4 level.length ++ level.flatMap encodeSst

/-- Serialize the manifest to bytes. -/
def encode (m : Manifest) : Bytes :=
  magic ++ leBytes 4 version ++ leBytes 4 m.levels.length ++ m.levels.flatMap encodeLevel

/-- Read a length-prefixed byte string at `pos`. -/
def decodeBytes (data : Bytes) (pos : Nat) (field : String) : Result (Bytes × Nat) :=
  if data.length < pos + 4 then corruption s!"manifest truncated at {field} len"
  else do
    let len ← u32At data pos
    let pos := pos + 4
    if data.length < pos + len then corruption s!"manifest truncated at {field} data"
    else do
      let bytes ← slice data pos (pos + len)
      .ok (bytes, pos + len)

/-- Read one SSTable entry at `pos`.  The level is not stored and stays `0`. -/
def decodeSstMeta (data : Bytes) (pos : Nat) : Result (SSTMeta × Nat) :=
  if data.length < pos + 8 then corruption "manifest truncated at sst id"
  else do
    let id ← u64At data pos
    let (minKey, pos) ← decodeBytes data (pos + 8) "min_key"
    let (maxKey, pos) ← decodeBytes data pos "max_key"
    .ok ({ id, level := 0, minKey, maxKey }, pos)

/-- Read `n` SSTable entries from `pos` on. -/
def decodeSsts (data : Bytes) : Nat → Nat → Result (List SSTMeta × Nat)
  | 0, pos => .ok ([], pos)
  | n + 1, pos => do
      let (sst, pos) ← decodeSstMeta data pos
      let (rest, pos) ← decodeSsts data n pos
      .ok (sst :: rest, pos)

/-- Read `n` levels from `pos` on. -/
def decodeLevels (data : Bytes) : Nat → Nat → Result (List (List SSTMeta) × Nat)
  | 0, pos => .ok ([], pos)
  | n + 1, pos =>
      if data.length < pos + 4 then corruption "manifest truncated at level count"
      else do
        let numSsts ← u32At data pos
        let (ssts, pos) ← decodeSsts data numSsts (pos + 4)
        let (rest, pos) ← decodeLevels data n pos
        .ok (ssts :: rest, pos)

/-- Deserialize a manifest from bytes. -/
def decode (data : Bytes) : Result Manifest :=
  if data.length < 12 then corruption "manifest too short (need at least 12 bytes)"
  else do
    let found ← slice data 0 4
    if found ≠ magic then corruption s!"invalid manifest magic: {repr found}"
    else do
      let foundVersion ← u32At data 4
      if foundVersion ≠ version then corruption s!"unsupported manifest version: {foundVersion}"
      else do
        let numLevels ← u32At data 8
        let (levels, _) ← decodeLevels data numLevels 12
        .ok ⟨levels⟩

/-- Load a manifest from a file on disk; a missing file is an empty manifest. -/
def load (path : FileName) : SysM Manifest := do
  if ← fileExists path then do
    let data ← readFile path
    liftResult (decode data)
  else pure new

/-- Save the manifest to a file on disk. -/
def save (m : Manifest) (path : FileName) : SysM Unit := do
  createTruncate path
  writeFile path m.encode
  syncFile

/-! ## Levels -/

/-- All entries, level by level. -/
def entries (m : Manifest) : List SSTMeta := m.levels.flatten

/-- No id is listed twice. -/
def Distinct (m : Manifest) : Prop := (m.entries.map SSTMeta.id).Nodup

theorem mem_entries {m : Manifest} {sst : SSTMeta} :
    sst ∈ m.entries ↔ ∃ level, sst ∈ m.sstsAtLevel level := by
  unfold entries sstsAtLevel
  rw [List.mem_flatten]
  constructor
  · rintro ⟨l, hl, member⟩
    obtain ⟨i, found⟩ := List.mem_iff_getElem?.mp hl
    exact ⟨i, by simpa [found] using member⟩
  · rintro ⟨i, member⟩
    cases found : m.levels[i]? with
    | none => simp [found] at member
    | some l => exact ⟨l, List.mem_of_getElem? found, by simpa [found] using member⟩

theorem sstsAtLevel_addSst (m : Manifest) (level : Nat) (sst : SSTMeta) (l : Nat) :
    (m.addSst level sst).sstsAtLevel l =
      if l = level then m.sstsAtLevel l ++ [sst] else m.sstsAtLevel l := by
  have padded : ∀ i : Nat, ((m.levels ++ List.replicate (level + 1 - m.levels.length) [])[i]?).getD [] =
      m.levels[i]?.getD [] := by
    intro i
    by_cases inside : i < m.levels.length
    · rw [List.getElem?_append_left inside]
    · rw [List.getElem?_append_right (by omega), List.getElem?_eq_none (l := m.levels) (by omega),
        List.getElem?_replicate]
      split <;> rfl
  have present : level < (m.levels ++ List.replicate (level + 1 - m.levels.length) []).length := by
    rw [List.length_append, List.length_replicate]
    omega
  unfold addSst sstsAtLevel
  simp only
  rw [List.getElem?_modify]
  by_cases same : l = level
  · subst same
    rw [if_pos rfl, ← padded l, List.getElem?_eq_getElem present]
    simp
  · rw [if_neg same, ← padded l]
    simp [Ne.symm same]

/-- The entries of the levels up to one and of those beyond it. -/
theorem entries_parts (m : Manifest) (level : Nat) : m.entries =
    (m.levels.take (level + 1)).flatten ++ (m.levels.drop (level + 1)).flatten := by
  rw [← List.flatten_append, List.take_append_drop, entries]

/-- A new entry is listed behind those of its level. -/
theorem entries_addSst (m : Manifest) (level : Nat) (sst : SSTMeta) :
    (m.addSst level sst).entries =
      (m.levels.take (level + 1)).flatten ++ sst :: (m.levels.drop (level + 1)).flatten := by
  have pushed : ∀ (levels : List (List SSTMeta)) (l : Nat), l < levels.length →
      (levels.modify l (fun ssts => ssts ++ [sst])).flatten =
        (levels.take (l + 1)).flatten ++ sst :: (levels.drop (l + 1)).flatten := by
    intro levels
    induction levels with
    | nil => intro l present; cases present
    | cons first levels inductionHypothesis =>
        intro l present
        cases l with
        | zero => simp
        | succ l =>
            have later := inductionHypothesis l (Nat.lt_of_succ_lt_succ present)
            rw [List.modify_succ_cons, List.flatten_cons, later, List.take_succ_cons,
              List.drop_succ_cons, List.flatten_cons, List.append_assoc]
  have present : level < (m.levels ++ List.replicate (level + 1 - m.levels.length) []).length := by
    rw [List.length_append, List.length_replicate]
    omega
  unfold addSst entries
  simp only [pushed _ level present, List.take_append, List.drop_append, List.take_replicate,
    List.drop_replicate, List.flatten_append, List.flatten_replicate_nil, List.append_nil]

theorem perm_entries_addSst (m : Manifest) (level : Nat) (sst : SSTMeta) :
    (m.addSst level sst).entries.Perm (sst :: m.entries) := by
  rw [entries_addSst, m.entries_parts level]
  exact List.perm_middle

/-- On distinct ids, removal filters every level. -/
theorem removeFrom_eq {id : Nat} {levels : List (List SSTMeta)}
    (distinct : (levels.flatten.map SSTMeta.id).Nodup) :
    (removeFrom id levels).1 = levels.map (fun level => level.filter (fun m => m.id ≠ id)) := by
  induction levels with
  | nil => rfl
  | cons level rest inductionHypothesis =>
      rw [List.flatten_cons, List.map_append, List.nodup_append] at distinct
      obtain ⟨-, distinctRest, apart⟩ := distinct
      rw [removeFrom]
      by_cases found : (level.filter (fun m => m.id ≠ id)).length < level.length
      · have keep : ∀ l ∈ rest, l.filter (fun m => m.id ≠ id) = l := by
          intro l hl
          rw [List.filter_eq_self]
          intro m hm
          obtain ⟨m', hm', same⟩ := List.length_filter_lt_length_iff_exists.mp found
          have same : m'.id = id := by simpa using same
          have different := apart m'.id (List.mem_map_of_mem hm') m.id
            (List.mem_map_of_mem (List.mem_flatten_of_mem hl hm))
          simpa [same] using Ne.symm different
        rw [if_pos found, List.map_cons, List.map_congr_left keep, List.map_id']
      · rw [if_neg found]
        simp only [List.map_cons, inductionHypothesis distinctRest]

theorem sstsAtLevel_removeSst {m : Manifest} (distinct : Distinct m) (id l : Nat) :
    (m.removeSst id).1.sstsAtLevel l = (m.sstsAtLevel l).filter (fun s => s.id ≠ id) := by
  unfold removeSst sstsAtLevel
  simp only [removeFrom_eq distinct, List.getElem?_map]
  cases m.levels[l]? <;> rfl

theorem entries_removeSst {m : Manifest} (distinct : Distinct m) (id : Nat) :
    (m.removeSst id).1.entries = m.entries.filter (fun s => s.id ≠ id) := by
  unfold removeSst entries
  simp only [removeFrom_eq distinct, List.filter_flatten]

theorem Distinct.removeSst {m : Manifest} (distinct : Distinct m) (id : Nat) :
    Distinct (m.removeSst id).1 := by
  unfold Distinct
  rw [entries_removeSst distinct]
  exact distinct.sublist (List.filter_sublist.map _)

theorem Distinct.addSst {m : Manifest} (distinct : Distinct m) (level : Nat) {sst : SSTMeta}
    (fresh : ∀ s ∈ m.entries, s.id ≠ sst.id) : Distinct (m.addSst level sst) := by
  unfold Distinct
  rw [((perm_entries_addSst m level sst).map _).nodup_iff, List.map_cons, List.nodup_cons]
  refine ⟨fun member => ?_, distinct⟩
  obtain ⟨s, hs, same⟩ := List.mem_map.mp member
  exact fresh s hs same

/-- The manifest without the entries with the given ids. -/
def removeAll (ids : List Nat) (m : Manifest) : Manifest :=
  ids.foldl (fun m id => (m.removeSst id).1) m

theorem sstsAtLevel_removeAll {m : Manifest} (distinct : Distinct m) (ids : List Nat) (l : Nat) :
    (m.removeAll ids).sstsAtLevel l = (m.sstsAtLevel l).filter (fun s => s.id ∉ ids) := by
  induction ids generalizing m with
  | nil => simp [removeAll]
  | cons id ids inductionHypothesis =>
      have later := inductionHypothesis (distinct.removeSst id)
      rw [sstsAtLevel_removeSst distinct, List.filter_filter] at later
      refine later.trans (List.filter_congr fun s _ => ?_)
      simp [Bool.and_comm]

/-! ## Round trip

The level of an SSTable is not stored, so a manifest is read back up to the
`level` fields. -/

/-- The metadata as `decode` leaves it. -/
def withoutLevel (sst : SSTMeta) : SSTMeta := { sst with level := 0 }

/-- The manifest as `decode` leaves it. -/
def reloaded (m : Manifest) : Manifest := ⟨m.levels.map (fun level => level.map withoutLevel)⟩

/-- The fields of an entry fit the format. -/
def SstFits (sst : SSTMeta) : Prop :=
  sst.id < 2 ^ 64 ∧ sst.minKey.length < 2 ^ 32 ∧ sst.maxKey.length < 2 ^ 32

instance (sst : SSTMeta) : Decidable (SstFits sst) := inferInstanceAs (Decidable (_ ∧ _))

/-- A manifest within the limits of the format. -/
structure Fits (m : Manifest) : Prop where
  levels : m.levels.length < 2 ^ 32
  counts : ∀ level ∈ m.levels, level.length < 2 ^ 32
  ssts : ∀ level ∈ m.levels, ∀ sst ∈ level, SstFits sst

theorem decodeBytes_encodeBytes (data : Bytes) (pos : Nat) (before after : Bytes) {bytes : Bytes}
    (field : String)
    (layout : data = before ++ (encodeBytes bytes ++ after)) (start : pos = before.length)
    (fits : bytes.length < 2 ^ 32) :
    decodeBytes data pos field = .ok (bytes, pos + (encodeBytes bytes).length) := by
  have total : data.length = before.length + ((4 + bytes.length) + after.length) := by
    rw [layout]
    simp only [encodeBytes, List.length_append, length_leBytes]
  rw [encodeBytes] at layout
  have readLength : u32At data pos = .ok bytes.length :=
    leAt_append before (bytes ++ after)
      (by rw [layout]; simp only [List.append_assoc]) start fits
  have readBytes : slice data (pos + 4) (pos + 4 + bytes.length) = .ok bytes :=
    slice_append (before ++ leBytes 4 bytes.length) after
      (by rw [layout]; simp only [List.append_assoc]) (by simp [start]) rfl
  rw [decodeBytes, if_neg (by omega)]
  simp only [readLength, Result.ok_bind]
  rw [if_neg (by omega)]
  simp only [readBytes, Result.ok_bind]
  simp only [encodeBytes, List.length_append, length_leBytes, Nat.add_assoc]

theorem decodeSstMeta_encodeSst (data : Bytes) (pos : Nat) (before after : Bytes) {sst : SSTMeta}
    (layout : data = before ++ (encodeSst sst ++ after)) (start : pos = before.length)
    (fits : SstFits sst) :
    decodeSstMeta data pos = .ok (withoutLevel sst, pos + (encodeSst sst).length) := by
  obtain ⟨idFits, minFits, maxFits⟩ := fits
  rw [encodeSst] at layout
  have readId : u64At data pos = .ok sst.id :=
    leAt_append before (encodeBytes sst.minKey ++ (encodeBytes sst.maxKey ++ after))
      (by rw [layout]; simp only [List.append_assoc]) start idFits
  have readMin := decodeBytes_encodeBytes data (pos + 8) (before ++ leBytes 8 sst.id)
    (encodeBytes sst.maxKey ++ after) "min_key"
    (by rw [layout]; simp only [List.append_assoc]) (by simp [start]) minFits
  have readMax := decodeBytes_encodeBytes data (pos + 8 + (encodeBytes sst.minKey).length)
    (before ++ leBytes 8 sst.id ++ encodeBytes sst.minKey) after "max_key"
    (by rw [layout]; simp only [List.append_assoc]) (by simp [start, Nat.add_assoc]) maxFits
  have long : ¬ data.length < pos + 8 := by
    rw [layout, start]
    simp only [List.length_append, length_leBytes]
    omega
  rw [decodeSstMeta, if_neg long]
  simp only [readId, Result.ok_bind, readMin, readMax]
  simp only [withoutLevel, encodeSst, List.length_append, length_leBytes, Nat.add_assoc]

theorem decodeSsts_flatMap (data : Bytes) (pos : Nat) (ssts : List SSTMeta) (before after : Bytes)
    (layout : data = before ++ (ssts.flatMap encodeSst ++ after)) (start : pos = before.length)
    (fits : ∀ sst ∈ ssts, SstFits sst) :
    decodeSsts data ssts.length pos =
      .ok (ssts.map withoutLevel, pos + (ssts.flatMap encodeSst).length) := by
  induction ssts generalizing before pos with
  | nil => rfl
  | cons sst ssts inductionHypothesis =>
      rw [List.flatMap_cons] at layout
      have first := decodeSstMeta_encodeSst data pos before (ssts.flatMap encodeSst ++ after)
        (by rw [layout]; simp only [List.append_assoc]) start (fits sst List.mem_cons_self)
      have rest := inductionHypothesis (pos + (encodeSst sst).length) (before ++ encodeSst sst)
        (by rw [layout]; simp only [List.append_assoc]) (by simp [start])
        (fun s hs => fits s (List.mem_cons_of_mem _ hs))
      simp only [List.length_cons, decodeSsts, first, Result.ok_bind, rest]
      simp only [List.map_cons, List.flatMap_cons, List.length_append, Nat.add_assoc]

theorem decodeLevels_flatMap (data : Bytes) (pos : Nat) (levels : List (List SSTMeta))
    (before after : Bytes)
    (layout : data = before ++ (levels.flatMap encodeLevel ++ after)) (start : pos = before.length)
    (counts : ∀ level ∈ levels, level.length < 2 ^ 32)
    (fits : ∀ level ∈ levels, ∀ sst ∈ level, SstFits sst) :
    decodeLevels data levels.length pos =
      .ok (levels.map (fun level => level.map withoutLevel),
        pos + (levels.flatMap encodeLevel).length) := by
  induction levels generalizing before pos with
  | nil => rfl
  | cons level levels inductionHypothesis =>
      rw [List.flatMap_cons, encodeLevel] at layout
      have readCount : u32At data pos = .ok level.length :=
        leAt_append before (level.flatMap encodeSst ++ (levels.flatMap encodeLevel ++ after))
          (by rw [layout]; simp only [List.append_assoc]) start (counts level List.mem_cons_self)
      have readSsts := decodeSsts_flatMap data (pos + 4) level (before ++ leBytes 4 level.length)
        (levels.flatMap encodeLevel ++ after)
        (by rw [layout]; simp only [List.append_assoc]) (by simp [start])
        (fits level List.mem_cons_self)
      have rest := inductionHypothesis (pos + 4 + (level.flatMap encodeSst).length)
        (before ++ leBytes 4 level.length ++ level.flatMap encodeSst)
        (by rw [layout]; simp only [List.append_assoc]) (by simp [start, Nat.add_assoc])
        (fun l hl => counts l (List.mem_cons_of_mem _ hl))
        (fun l hl => fits l (List.mem_cons_of_mem _ hl))
      have long : ¬ data.length < pos + 4 := by
        rw [layout, start]
        simp only [List.length_append, length_leBytes]
        omega
      rw [List.length_cons, decodeLevels, if_neg long]
      simp only [readCount, Result.ok_bind, readSsts, rest]
      simp only [List.map_cons, List.flatMap_cons, encodeLevel, List.length_append, length_leBytes,
        Nat.add_assoc]

/-- **Round trip.** A manifest within the limits is read back, without the levels
of its entries; what follows it is not looked at. -/
theorem decode_append {m : Manifest} (fits : Fits m) (rest : Bytes) :
    decode (m.encode ++ rest) = .ok m.reloaded := by
  have readMagic : slice (m.encode ++ rest) 0 4 = .ok magic :=
    slice_append []
      (leBytes 4 version ++ (leBytes 4 m.levels.length ++ (m.levels.flatMap encodeLevel ++ rest)))
      (by simp [encode]) rfl rfl
  have readVersion : u32At (m.encode ++ rest) 4 = .ok version :=
    leAt_append magic (leBytes 4 m.levels.length ++ (m.levels.flatMap encodeLevel ++ rest))
      (by simp [encode]) rfl (by decide)
  have readCount : u32At (m.encode ++ rest) 8 = .ok m.levels.length :=
    leAt_append (magic ++ leBytes 4 version) (m.levels.flatMap encodeLevel ++ rest)
      (by simp [encode]) rfl fits.levels
  have readLevels := decodeLevels_flatMap (m.encode ++ rest) 12 m.levels
    (magic ++ leBytes 4 version ++ leBytes 4 m.levels.length) rest
    (by simp [encode]) (by simp [magic]) fits.counts fits.ssts
  have long : ¬ (m.encode ++ rest).length < 12 := by
    simp [encode, magic]
    omega
  rw [decode, if_neg long]
  simp only [readMagic, Result.ok_bind, ne_eq, not_true_eq_false, if_false, readVersion, readCount,
    readLevels, reloaded]

theorem decode_encode {m : Manifest} (fits : Fits m) : decode m.encode = .ok m.reloaded := by
  simpa using decode_append fits []

end Manifest

end KvEngine
