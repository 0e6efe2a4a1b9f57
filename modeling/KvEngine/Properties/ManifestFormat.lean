import KvEngine.Manifest

/-!
# The manifest format

`decode` accepts exactly the byte strings that begin with an encoded manifest.
Each decoder is shown to return, with what it read standing in the data where it
read it, or to report corruption; the outer loop puts the levels together.  The
level of an entry is not part of the format and is read back as `0`.
-/

namespace KvEngine

open Foundations

namespace Manifest

/-! ## What the decoders accept -/

theorem meets_decodeBytes (data : Bytes) (pos : Nat) (field : String) :
    Result.Meets
      (fun read : Bytes × Nat => read.1.length < 2 ^ 32 ∧ read.2 = pos + (encodeBytes read.1).length ∧
        StandsAt data pos (encodeBytes read.1))
      KvError.IsCorruption (decodeBytes data pos field) := by
  unfold decodeBytes
  refine Result.Meets.ite (fun _ => Result.meets_corruption _) (fun room => ?_)
  refine (meets_leAt _ (by omega)).bind ?_
  rintro len ⟨lenFits, lenHere⟩
  refine Result.Meets.ite (fun _ => Result.meets_corruption _) (fun roomBytes => ?_)
  refine (meets_slice _ (by omega) (by omega)).bind ?_
  rintro bytes ⟨size, bytesHere⟩
  have size : bytes.length = len := by omega
  subst size
  refine ⟨lenFits, ?_, ?_⟩
  · simp only [encodeBytes, List.length_append, length_leBytes, Nat.add_assoc]
  · exact lenHere.append (by rw [length_leBytes]; exact bytesHere)

theorem meets_decodeSstMeta (data : Bytes) (pos : Nat) :
    Result.Meets
      (fun read : SSTMeta × Nat => SstFits read.1 ∧ withoutLevel read.1 = read.1 ∧
        read.2 = pos + (encodeSst read.1).length ∧ StandsAt data pos (encodeSst read.1))
      KvError.IsCorruption (decodeSstMeta data pos) := by
  unfold decodeSstMeta
  refine Result.Meets.ite (fun _ => Result.meets_corruption _) (fun room => ?_)
  refine (meets_leAt _ (by omega)).bind ?_
  rintro id ⟨idFits, idHere⟩
  refine (meets_decodeBytes data (pos + 8) "min_key").bind ?_
  rintro ⟨minKey, pos₁⟩ ⟨minFits, minEnd, minHere⟩
  refine (meets_decodeBytes data pos₁ "max_key").bind ?_
  rintro ⟨maxKey, pos₂⟩ ⟨maxFits, maxEnd, maxHere⟩
  simp only at minFits minEnd minHere maxFits maxEnd maxHere
  refine ⟨⟨idFits, minFits, maxFits⟩, rfl, ?_, ?_⟩
  · simp only [encodeSst, List.length_append, length_leBytes]
    omega
  · refine (idHere.append ?_).append ?_
    · rw [length_leBytes]
      exact minHere
    · rw [List.length_append, length_leBytes, ← Nat.add_assoc, ← minEnd]
      exact maxHere

/-- The inner loop, by induction on the number of entries. -/
theorem meets_decodeSsts (data : Bytes) (n pos : Nat) :
    Result.Meets
      (fun read : List SSTMeta × Nat => read.1.length = n ∧ (∀ sst ∈ read.1, SstFits sst) ∧
        read.1.map withoutLevel = read.1 ∧ read.2 = pos + (read.1.flatMap encodeSst).length ∧
        StandsAt data pos (read.1.flatMap encodeSst))
      KvError.IsCorruption (decodeSsts data n pos) := by
  induction n generalizing pos with
  | zero => exact ⟨rfl, by simp, rfl, rfl, StandsAt.nil data pos⟩
  | succ n inductionHypothesis =>
      unfold decodeSsts
      refine (meets_decodeSstMeta data pos).bind ?_
      rintro ⟨sst, pos₁⟩ ⟨sstFits, sstLevel, sstEnd, sstHere⟩
      refine (inductionHypothesis pos₁).bind ?_
      rintro ⟨rest, pos₂⟩ ⟨count, restFit, restLevels, restEnd, restHere⟩
      simp only at sstFits sstLevel sstEnd sstHere count restFit restLevels restEnd restHere
      refine ⟨by rw [List.length_cons, count], ?_, ?_, ?_, ?_⟩
      · intro s hs
        rcases List.mem_cons.mp hs with rfl | later
        · exact sstFits
        · exact restFit s later
      · rw [List.map_cons, sstLevel, restLevels]
      · simp only [List.flatMap_cons, List.length_append]
        omega
      · rw [List.flatMap_cons]
        exact sstHere.append (by rw [← sstEnd]; exact restHere)

/-- The outer loop, by induction on the number of levels. -/
theorem meets_decodeLevels (data : Bytes) (n pos : Nat) :
    Result.Meets
      (fun read : List (List SSTMeta) × Nat => read.1.length = n ∧
        (∀ level ∈ read.1, level.length < 2 ^ 32) ∧
        (∀ level ∈ read.1, ∀ sst ∈ level, SstFits sst) ∧
        read.1.map (fun level => level.map withoutLevel) = read.1 ∧
        StandsAt data pos (read.1.flatMap encodeLevel))
      KvError.IsCorruption (decodeLevels data n pos) := by
  induction n generalizing pos with
  | zero => exact ⟨rfl, by simp, by simp, rfl, StandsAt.nil data pos⟩
  | succ n inductionHypothesis =>
      unfold decodeLevels
      refine Result.Meets.ite (fun _ => Result.meets_corruption _) (fun room => ?_)
      refine (meets_leAt _ (by omega)).bind ?_
      rintro numSsts ⟨countFits, countHere⟩
      refine (meets_decodeSsts data numSsts (pos + 4)).bind ?_
      rintro ⟨level, pos₁⟩ ⟨count, levelFits, levelless, levelEnd, levelHere⟩
      refine (inductionHypothesis pos₁).bind ?_
      rintro ⟨rest, pos₂⟩ ⟨restCount, restCounts, restFit, restLevelless, restHere⟩
      simp only at count levelFits levelless levelEnd levelHere
      simp only at restCount restCounts restFit restLevelless restHere
      subst count
      refine ⟨by rw [List.length_cons, restCount], ?_, ?_, ?_, ?_⟩
      · intro l hl
        rcases List.mem_cons.mp hl with rfl | later
        · exact countFits
        · exact restCounts l later
      · intro l hl
        rcases List.mem_cons.mp hl with rfl | later
        · exact levelFits
        · exact restFit l later
      · rw [List.map_cons, levelless, restLevelless]
      · rw [List.flatMap_cons, encodeLevel]
        refine (countHere.append ?_).append ?_
        · rw [length_leBytes]
          exact levelHere
        · rw [List.length_append, length_leBytes, ← Nat.add_assoc, ← levelEnd]
          exact restHere

/-- **Soundness.** Decoding returns a manifest within the limits that the data
begins with, or reports corruption. -/
theorem meets_decode (data : Bytes) :
    Result.Meets (fun m => m.encode <+: data ∧ Fits m ∧ m.reloaded = m) KvError.IsCorruption
      (decode data) := by
  unfold decode
  refine Result.Meets.ite (fun _ => Result.meets_corruption _) (fun long => ?_)
  refine (meets_slice _ (by omega) (by omega)).bind ?_
  rintro found ⟨-, magicHere⟩
  refine Result.Meets.ite (fun _ => Result.meets_corruption _) (fun sameMagic => ?_)
  refine (meets_leAt _ (by omega)).bind ?_
  rintro foundVersion ⟨-, versionHere⟩
  refine Result.Meets.ite (fun _ => Result.meets_corruption _) (fun sameVersion => ?_)
  refine (meets_leAt _ (by omega)).bind ?_
  rintro numLevels ⟨countFits, countHere⟩
  refine (meets_decodeLevels data numLevels 12).bind ?_
  rintro ⟨levels, last⟩ ⟨count, counts, fit, levelless, levelsHere⟩
  simp only [ne_eq, not_not] at sameMagic sameVersion
  simp only at count counts fit levelless levelsHere
  subst sameMagic sameVersion count
  refine ⟨?_, ⟨countFits, counts, fit⟩, ?_⟩
  · have whole : StandsAt data 0 (encode ⟨levels⟩) :=
      ((magicHere.append versionHere).append countHere).append levelsHere
    simpa [StandsAt] using whole
  · rw [reloaded, levelless]

/-- **The decoder accepts its format and nothing else.**  What it returns is a
manifest that the data begins with; it returns every manifest within the limits
that the data begins with, up to the levels of its entries; and where there is
none it reports corruption.  In particular no index is out of bounds. -/
theorem decode_accepts_format (data : Bytes) :
    (∀ m, decode data = .ok m ↔ m.encode <+: data ∧ Fits m ∧ m.reloaded = m) ∧
      (∀ m, Fits m → m.encode <+: data → decode data = .ok m.reloaded) ∧
      ((∃ m, Fits m ∧ m.encode <+: data) ∨ ∃ msg, decode data = corruption msg) := by
  have complete : ∀ m, Fits m → m.encode <+: data → decode data = .ok m.reloaded := by
    rintro m fits ⟨rest, split⟩
    rw [← split]
    exact decode_append fits rest
  refine ⟨fun m => ⟨fun decoded => (meets_decode data).of_ok decoded, ?_⟩, complete, ?_⟩
  · rintro ⟨begins, fits, levelless⟩
    rw [complete m fits begins, levelless]
  · cases decoded : decode data with
    | ok m =>
        obtain ⟨begins, fits, -⟩ := (meets_decode data).of_ok decoded
        exact Or.inl ⟨m, fits, begins⟩
    | error e =>
        obtain ⟨e', rfl, msg, rfl⟩ := (meets_decode data).of_error decoded
        exact Or.inr ⟨msg, rfl⟩

/-- A manifest with entries at two levels and a trailing byte. -/
theorem decode_accepts_format_levels :
    decode (encode ⟨[[⟨3, 0, [1], [2]⟩], [⟨4, 1, [1], [9]⟩, ⟨5, 1, [10], [12]⟩]]⟩ ++ [7]) =
      .ok ⟨[[⟨3, 0, [1], [2]⟩], [⟨4, 0, [1], [9]⟩, ⟨5, 0, [10], [12]⟩]]⟩ :=
  (decode_accepts_format _).2.1 ⟨[[⟨3, 0, [1], [2]⟩], [⟨4, 1, [1], [9]⟩, ⟨5, 1, [10], [12]⟩]]⟩
    ⟨by decide, by simp, by simp [SstFits]⟩ (List.prefix_append _ _)

/-! ## The levels of the entries -/

/-- Every entry carries the level it is stored at. -/
def Placed (m : Manifest) : Prop := ∀ i, ∀ sst ∈ m.sstsAtLevel i, sst.level = i

theorem placed_new : Placed new := by
  intro i sst member
  simp [new, sstsAtLevel] at member

/-- Adding an entry at the level it carries, as the engine does. -/
theorem Placed.addSst {m : Manifest} (placed : Placed m) {level : Nat} {sst : SSTMeta}
    (carries : sst.level = level) : Placed (m.addSst level sst) := by
  intro i s member
  rw [sstsAtLevel_addSst] at member
  split at member
  · next here =>
      rcases List.mem_append.mp member with old | added
      · exact placed i s old
      · rw [List.mem_singleton.mp added, carries, here]
  · exact placed i s member

/-- A map that fixes a list fixes each of its elements. -/
theorem map_eq_self {α : Type} {f : α → α} {l : List α} : l.map f = l ↔ ∀ a ∈ l, f a = a := by
  simpa using List.map_inj_left (f := f) (g := id) (l := l)

/-- Reading back keeps exactly the entries that carry level `0`. -/
theorem reloaded_eq_iff {m : Manifest} :
    m.reloaded = m ↔ ∀ i, ∀ sst ∈ m.sstsAtLevel i, sst.level = 0 := by
  have entry : ∀ sst : SSTMeta, withoutLevel sst = sst ↔ sst.level = 0 := by
    intro sst
    cases sst
    simp [withoutLevel, eq_comm]
  have level : ∀ ssts : List SSTMeta, ssts.map withoutLevel = ssts ↔ ∀ sst ∈ ssts, sst.level = 0 := by
    intro ssts
    rw [map_eq_self]
    exact forall₂_congr fun sst _ => entry sst
  obtain ⟨levels⟩ := m
  rw [reloaded, Manifest.mk.injEq, map_eq_self]
  constructor
  · intro kept i sst member
    cases found : levels[i]? with
    | none => simp [sstsAtLevel, found] at member
    | some ssts =>
        have member : sst ∈ ssts := by simpa [sstsAtLevel, found] using member
        exact (level ssts).mp (kept ssts (List.mem_of_getElem? found)) sst member
  · intro zero ssts member
    obtain ⟨i, found⟩ := List.mem_iff_getElem?.mp member
    exact (level ssts).mpr fun sst hsst => zero i sst (by simpa [sstsAtLevel, found] using hsst)

/-- **The round trip loses the levels.**  A manifest whose entries carry the level
they are stored at is read back as it was exactly when all of them are at level
`0`: `decode_sst_meta` sets the level to `0` and its caller does not set it. -/
theorem decode_encode_iff {m : Manifest} (placed : Placed m) (fits : Fits m) :
    decode m.encode = .ok m ↔ ∀ i, 0 < i → m.sstsAtLevel i = [] := by
  have readBack : decode m.encode = .ok m ↔ m.reloaded = m := by
    rw [decode_encode fits, Except.ok.injEq]
  rw [readBack, reloaded_eq_iff]
  constructor
  · intro zero i positive
    by_contra filled
    obtain ⟨sst, member⟩ := List.exists_mem_of_ne_nil _ filled
    have here := placed i sst member
    have atZero := zero i sst member
    omega
  · intro empty i sst member
    by_cases atZero : i = 0
    · rw [placed i sst member, atZero]
    · rw [empty i (by omega)] at member
      cases member

/-- One entry at level `0`. -/
theorem decode_encode_iff_flushed :
    decode (new.addSst 0 ⟨1, 0, [1], [2]⟩).encode = .ok (new.addSst 0 ⟨1, 0, [1], [2]⟩) := by
  refine (decode_encode_iff (placed_new.addSst rfl) ⟨by decide, by decide, by decide⟩).mpr ?_
  intro i positive
  rw [sstsAtLevel_addSst, if_neg (Nat.ne_of_gt positive)]
  rfl

/-- One entry at level `1`, which is read back with level `0`. -/
theorem not_alwaysRoundTrips :
    ¬ ∀ m : Manifest, Placed m → Fits m → decode m.encode = .ok m := by
  intro roundTrips
  have compacted := roundTrips (new.addSst 1 ⟨1, 1, [1], [2]⟩) (placed_new.addSst rfl)
    ⟨by decide, by decide, by decide⟩
  revert compacted
  decide

end Manifest

end KvEngine
