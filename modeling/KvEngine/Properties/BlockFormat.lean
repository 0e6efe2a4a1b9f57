import KvEngine.Sstable.Block

/-!
# The block format

`Block::encode` writes the length of the shared prefix and of the suffix of each
key as a `u16`.  A block is therefore read back exactly when these lengths fit,
whatever the order of the keys.
-/

namespace KvEngine

open Foundations

namespace Block

/-- The block that holds the entries, added one after the other. -/
def built (entries : List (Bytes × Bytes)) : Block :=
  entries.foldl (fun b e => b.add e.1 e.2) new

@[simp] theorem entries_built (entries : List (Bytes × Bytes)) :
    (built entries).entries = entries := by
  have onto : ∀ b : Block,
      (entries.foldl (fun b e => b.add e.1 e.2) b).entries = b.entries ++ entries := by
    induction entries with
    | nil => simp
    | cons e entries inductionHypothesis =>
        intro b
        rw [List.foldl_cons, inductionHypothesis, add, List.append_assoc, List.singleton_append]
  simpa [built, new] using onto new

/-! ## A decoded key is as long as its two length fields say -/

theorem length_of_decodeEntry {buf prevKey key value : Bytes} {offset next shared suffixLen : Nat}
    (readShared : u16At buf offset = .ok shared)
    (readSuffixLen : u16At buf (offset + 2) = .ok suffixLen)
    (decoded : decodeEntry buf offset prevKey = .ok (key, value, next)) :
    key.length = shared + suffixLen := by
  unfold decodeEntry at decoded
  simp only [readShared, readSuffixLen, Result.ok_bind] at decoded
  split at decoded
  · cases decoded
  · split at decoded
    · cases decoded
    · next roomSuffix =>
        simp only [Result.bind_eq_ok] at decoded
        obtain ⟨kept, readKept, suffix, readSuffix, decoded⟩ := decoded
        have keptLength : kept.length = shared := by
          unfold slice at readKept
          split at readKept
          · next inside =>
              cases readKept
              rw [List.length_take, List.drop_zero]
              omega
          · cases readKept
        rw [slice_ok (by omega) (by omega)] at readSuffix
        cases readSuffix
        split at decoded
        · cases decoded
        · simp only [Result.bind_eq_ok] at decoded
          obtain ⟨valueLen, -, decoded⟩ := decoded
          split at decoded
          · cases decoded
          · simp only [Result.bind_eq_ok] at decoded
            obtain ⟨value', -, decoded⟩ := decoded
            cases decoded
            simp only [List.length_append, List.length_take, List.length_drop, keptLength]
            omega

/-- A key that is read back fits. -/
theorem keyFits_of_decodeEntry (buf prevKey key value before after : Bytes) {value' : Bytes}
    {next : Nat} (layout : buf = before ++ (encodeEntry prevKey key value ++ after))
    (decoded : decodeEntry buf before.length prevKey = .ok (key, value', next)) :
    KeyFits prevKey key := by
  rw [encodeEntry] at layout
  have shorter := prefixSharedLen_le prevKey key
  have readShared : u16At buf before.length = .ok (prefixSharedLen prevKey key % 256 ^ 2) :=
    leAt_append_mod before (leBytes 2 (key.drop (prefixSharedLen prevKey key)).length ++
      (key.drop (prefixSharedLen prevKey key) ++ (leBytes 4 value.length ++ (value ++ after))))
      (by rw [layout]; simp only [List.append_assoc]) rfl
  have readSuffixLen : u16At buf (before.length + 2) =
      .ok ((key.drop (prefixSharedLen prevKey key)).length % 256 ^ 2) :=
    leAt_append_mod (before ++ leBytes 2 (prefixSharedLen prevKey key))
      (key.drop (prefixSharedLen prevKey key) ++ (leBytes 4 value.length ++ (value ++ after)))
      (by rw [layout]; simp only [List.append_assoc]) (by simp)
  have length := length_of_decodeEntry readShared readSuffixLen decoded
  rw [List.length_drop] at length
  unfold KeyFits
  omega

/-- Entries that are read back fit, one behind the other. -/
theorem keysFit_of_decodeEntries {entries : List (Bytes × Bytes)} {last : Nat}
    (buf prevKey before after : Bytes)
    (layout : buf = before ++ (encodeEntries prevKey entries ++ after))
    (valuesFit : ∀ e ∈ entries, e.2.length < 2 ^ 32)
    (decoded : decodeEntries buf entries.length before.length prevKey = .ok (entries, last)) :
    KeysFit prevKey entries := by
  induction entries generalizing prevKey before with
  | nil => trivial
  | cons e entries inductionHypothesis =>
      obtain ⟨key, value⟩ := e
      rw [encodeEntries, List.append_assoc] at layout
      simp only [List.length_cons, decodeEntries, Result.bind_eq_ok] at decoded
      obtain ⟨⟨key', value', next⟩, first, ⟨rest, last'⟩, later, same⟩ := decoded
      cases same
      have keyFits := keyFits_of_decodeEntry buf prevKey key' value' before _ layout first
      -- The entry fits, so the next one is looked for behind it.
      rw [decodeEntry_encodeEntry buf prevKey key' value' before _ layout keyFits
        (valuesFit _ List.mem_cons_self)] at first
      cases first
      refine ⟨keyFits, inductionHypothesis key' (before ++ encodeEntry prevKey key' value') ?_ ?_ ?_⟩
      · rw [layout, List.append_assoc]
      · exact fun e he => valuesFit e (List.mem_cons_of_mem _ he)
      · rw [List.length_append]
        exact later

theorem keysFit_of_decode {entries : List (Bytes × Bytes)} {b : Block}
    (count : entries.length < 2 ^ 32) (valuesFit : ∀ e ∈ entries, e.2.length < 2 ^ 32)
    (decoded : decode (built entries).encode = .ok b) (same : b.entries = entries) :
    KeysFit [] entries := by
  have readCount : u32At (built entries).encode 0 = .ok entries.length :=
    leAt_append [] (encodeEntries [] entries) (by simp [encode]) rfl (by omega)
  unfold decode at decoded
  split at decoded
  · cases decoded
  · simp only [readCount, Result.ok_bind, Result.bind_eq_ok] at decoded
    obtain ⟨⟨read, last⟩, readEntries, decoded⟩ := decoded
    cases decoded
    simp only at same
    subst same
    exact keysFit_of_decodeEntries (built read).encode [] (leBytes 4 read.length) []
      (by simp [encode]) valuesFit (by rw [length_leBytes]; exact readEntries)

/-- Decoding the encoded entries returns them, in the same order. -/
def ReadsBack (entries : List (Bytes × Bytes)) : Prop :=
  ∃ b, decode (built entries).encode = .ok b ∧ b.entries = entries

/-- **Exactly the blocks with short enough key parts are read back.** -/
theorem readsBack_iff {entries : List (Bytes × Bytes)} (count : entries.length < 2 ^ 32)
    (valuesFit : ∀ e ∈ entries, e.2.length < 2 ^ 32) :
    ReadsBack entries ↔ KeysFit [] entries := by
  constructor
  · rintro ⟨b, decoded, same⟩
    exact keysFit_of_decode count valuesFit decoded same
  · intro keysFit
    have decoded := decode_encode_of_keysFit (b := built entries) (by simpa using count)
      (by simpa using keysFit) (by simpa using valuesFit)
    exact ⟨_, decoded, entries_built entries⟩

/-- Two keys in descending order. -/
theorem readsBack_iff_unordered : ReadsBack [([2], [7]), ([1], [8])] :=
  (readsBack_iff (by decide) (by decide)).mpr (by decide)

/-- The length of a long key on its own is not written. -/
theorem not_readsBack_of_long {key : Bytes} (long : 2 ^ 16 ≤ key.length) :
    ¬ ReadsBack [(key, [])] := by
  rintro ⟨b, decoded, same⟩
  have suffixFits := (keysFit_of_decode (by simp) (by simp) decoded same).1.2
  rw [prefixSharedLen] at suffixFits
  · omega
  · intro x xs y ys isCons
    cases isCons

/-- A key of 65536 bytes. -/
theorem not_alwaysReadsBack :
    ¬ ∀ entries : List (Bytes × Bytes), entries.length < 2 ^ 32 →
      (∀ e ∈ entries, e.2.length < 2 ^ 32) → ReadsBack entries := by
  intro always
  have single : ∀ key : Bytes, ReadsBack [(key, [])] := fun key => always _ (by simp) (by simp)
  exact not_readsBack_of_long (List.length_replicate (n := 2 ^ 16) (a := 0)).ge (single _)

end Block

end KvEngine
