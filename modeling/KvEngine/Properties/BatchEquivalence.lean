import KvEngine.Properties.MemtableMap
import KvEngine.Properties.SparedKeys

/-!
# Batches and single writes

`put` and `delete` store a sequence number before the value, `write_batch` stores the
value alone.  Readers drop the first eight bytes of every stored value that has them,
so a batch means the same as its operations one by one only for short values.
-/

namespace KvEngine

open Foundations Engine

variable {w w₁ w₂ w' : World} {key : Bytes} {t : Nat}

/-! ## What a call leaves visible -/

theorem lastValue_cons (b : Bytes × Bytes) (bindings : List (Bytes × Bytes)) (key : Bytes) :
    lastValue (b :: bindings) key =
      (lastValue bindings key).or (if key = b.1 then some b.2 else none) := by
  rw [lastValue, List.reverse_cons, lookupList_append, lookupList_cons, lookupList_nil, ← lastValue]
  by_cases same : key = b.1
  · rw [if_pos same, if_pos same]
  · rw [if_neg same, if_neg same]

/-- After several writes the last one of a key is its newest version. -/
theorem MemTable.Puts.head?_versionsOf {m m' : MemTable} {bindings : List (Bytes × Bytes)}
    (puts : Puts m bindings m') (valid : m.Valid) (key : Bytes) :
    (m'.versionsOf key).head? = (lastValue bindings key).or (m.versionsOf key).head? := by
  induction puts with
  | nil => rfl
  | @cons m m₁ m' trailing k v rest first later inductionHypothesis =>
      obtain ⟨m₂, run, valid₁, -⟩ := valid.put_ok trailing k v
      rw [first] at run
      cases run
      rw [inductionHypothesis valid₁, valid.versionsOf_put first, lastValue_cons, Option.or_assoc]
      by_cases same : key = k
      · rw [if_pos same, if_pos same]
        rfl
      · rw [if_neg same, if_neg same]
        rfl

/-- What a call stores last under a key is the key's newest version. -/
theorem Accepted.head?_versionsOf {stores : List Store} {seqs : Nat}
    (accepted : Accepted w stores seqs w') (inv : Inv w) (key : Bytes) :
    (w'.eng.versionsOf key).head? =
      (lastValue (stores.map Store.binding) key).or (w.eng.versionsOf key).head? := by
  rw [accepted.versionsOf_eq, List.head?_append, accepted.memtable.head?_versionsOf inv.memtable,
    Engine.versionsOf, List.head?_append, Option.or_assoc]

/-- **What a call leaves visible**, when the clock stands still and its compactions spare
the key: the value it stored last, and otherwise what was visible before. -/
theorem Resting.visible_call {call : Call} (resting : Resting w) (keys : call.KeysFit)
    (limits : WithinLimits w'.sys) (still : w.sys.ClockAt t) (run : Ends call.run w () w')
    (spared : SparedBy w call key) :
    w'.eng.visible t key =
      ((lastValue ((call.stores w.eng.nextSeq t).map Store.binding) key).or
        (w.eng.versionsOf key).head?).bind (shown t) := by
  have kept : ShowsAt t key (((lastValue ((call.stores w.eng.nextSeq t).map Store.binding) key).or
      (w.eng.versionsOf key).head?).bind (shown t)) w' := by
    refine resting.inv.call_keeps keys limits run ?_ ?_ ?_
    · intro w₁ accepted goesOn
      rw [still.time] at accepted
      refine ⟨still.of_extends goesOn, ?_⟩
      rw [visible, accepted.head?_versionsOf resting.inv]
    · intro w₁ imm p w₂ isFrozen flush map held
      exact held.flushed isFrozen flush map
    · intro level w₁ w₂ point inv limits₂ compacts held
      exact held.compacted inv limits₂ (spared level w₁ point) compacts
  exact kept.2

/-! ## Both ways of writing -/

/-- The call that does what one operation of a batch asks for. -/
def BatchOp.call : BatchOp → Call
  | .put key value => .put key value
  | .delete key => .delete key

/-- What the operations bind, the tombstone standing for a deletion. -/
def opBindings (ops : List BatchOp) : List (Bytes × Bytes) :=
  ops.map (fun op => (op.key, batchValue op))

theorem stores_single (op : BatchOp) (seq : Nat) :
    (op.call.stores seq t).map Store.binding =
      [(op.key, encodeWithSeq (batchValue op) seq)] := by
  cases op <;> rfl

theorem stores_batch (batch : WriteBatch) (seq : Nat) :
    ((Call.writeBatch batch).stores seq t).map Store.binding = opBindings batch.ops := by
  rw [Call.stores, List.map_map]
  refine List.map_congr_left fun op _ => ?_
  cases op <;> rfl

/-- A single operation shows the value that it writes. -/
theorem Resting.visible_single (resting : Resting w) {op : BatchOp} (keys : op.call.KeysFit)
    (limits : WithinLimits w'.sys) (still : w.sys.ClockAt t) (run : Ends op.call.run w () w')
    (spared : SparedBy w op.call key) :
    w'.eng.visible t key =
      if key = op.key then shownInner t (batchValue op) else w.eng.visible t key := by
  rw [resting.visible_call keys limits still run spared, stores_single]
  rw [lastValue_cons]
  by_cases same : key = op.key
  · rw [if_pos same, if_pos same]
    show shown t (encodeWithSeq (batchValue op) w.eng.nextSeq) = _
    rw [shown, innerOf_encodeWithSeq]
  · rw [if_neg same, if_neg same]
    rfl

/-- **One by one** the operations show, of each key, the value that is written last. -/
theorem Resting.visible_singles {ops : List BatchOp} (resting : Resting w)
    (keys : ∀ op ∈ ops, op.key.length < 2 ^ 16) (limits : WithinLimits w'.sys)
    (still : w.sys.ClockAt t) (run : Ends (runCalls (ops.map BatchOp.call)) w () w')
    (spared : SparedIn w (ops.map BatchOp.call) key) :
    Resting w' ∧ w'.eng.visible t key =
      match lastValue (opBindings ops) key with
      | some v => shownInner t v
      | none => w.eng.visible t key := by
  induction ops generalizing w with
  | nil =>
      obtain ⟨-, rfl⟩ := ends_pure.mp run
      exact ⟨resting, rfl⟩
  | cons op ops inductionHypothesis =>
      obtain ⟨u, w₁, first, rest⟩ := ends_bind.mp run
      have goesOn := (extending_call op.call _ _ _ first).sys
      have limits₁ : WithinLimits w₁.sys := limits.of_extends (extending_runCalls _ _ _ _ rest).sys
      have fit : op.call.KeysFit := by
        intro k member
        have isKey : k = op.key := by
          cases op <;> exact List.mem_singleton.mp member
        exact isKey ▸ keys op List.mem_cons_self
      have single := resting.visible_single fit limits₁ still first
        (spared [] _ _ w rfl (ends_pure.mpr ⟨rfl, rfl⟩))
      obtain ⟨resting', later⟩ := inductionHypothesis (resting.ends_call fit limits₁ first).1
        (fun op' h => keys op' (List.mem_cons_of_mem _ h)) (still.of_extends goesOn) rest
        (fun before call after w₂ split ran => spared (op.call :: before) call after w₂
          (congrArg (op.call :: ·) split) (ends_bind.mpr ⟨u, w₁, first, ran⟩))
      refine ⟨resting', ?_⟩
      rw [later, show opBindings (op :: ops) = (op.key, batchValue op) :: opBindings ops from rfl,
        lastValue_cons]
      cases found : lastValue (opBindings ops) key with
      | some v => rfl
      | none =>
          rw [Option.none_or, single]
          by_cases same : key = op.key
          · rw [if_pos same, if_pos same]
          · rw [if_neg same, if_neg same]

/-- **A batch** shows, of each key, what remains of the value that is written last when its
first eight bytes are dropped. -/
theorem Resting.visible_batch {batch : WriteBatch} (resting : Resting w)
    (keys : (Call.writeBatch batch).KeysFit) (limits : WithinLimits w'.sys)
    (still : w.sys.ClockAt t) (run : Ends (writeBatch batch) w () w')
    (spared : SparedBy w (.writeBatch batch) key) :
    w'.eng.visible t key =
      match lastValue (opBindings batch.ops) key with
      | some v => shown t v
      | none => w.eng.visible t key := by
  have ran : Ends (Call.writeBatch batch).run w () w' := run
  rw [resting.visible_call keys limits still ran spared, stores_batch]
  cases lastValue (opBindings batch.ops) key <;> rfl

/-- The value shows the same with and without its first eight bytes: it is shorter, or
neither it nor what follows them shows anything. -/
def SameInBatch (t : Nat) (v : Bytes) : Prop :=
  v.length < 8 ∨ (shownInner t v = none ∧ shownInner t (v.drop 8) = none)

/-- What a value shows is as long as the value or nine bytes shorter. -/
theorem length_of_shownInner {v shows : Bytes} (found : shownInner t v = some shows) :
    shows.length = v.length ∨ shows.length + 9 = v.length := by
  unfold shownInner at found
  split at found
  · cases found
  · split at found
    · next marked =>
        split at found
        · cases found
        · cases found
          simp only [isTtl, decide_eq_true_eq] at marked
          rw [List.length_drop]
          omega
    · cases found
      exact .inl rfl

/-- Dropping the first eight bytes changes what a value shows, unless neither shows
anything. -/
theorem sameInBatch_iff (t : Nat) (v : Bytes) : SameInBatch t v ↔ shown t v = shownInner t v := by
  by_cases short : v.length < 8
  · have inner : innerOf v = v := if_neg (not_le.mpr short)
    rw [SameInBatch, shown, inner]
    exact iff_of_true (.inl short) rfl
  · have inner : innerOf v = v.drop 8 := if_pos (not_lt.mp short)
    rw [SameInBatch, shown, inner]
    constructor
    · rintro (short' | ⟨whole, rest⟩)
      · exact absurd short' short
      · rw [whole, rest]
    · intro same
      cases whole : shownInner t v with
      | none => exact .inr ⟨rfl, same.trans whole⟩
      | some shows =>
          -- the two would show values of different lengths
          have length₁ := length_of_shownInner whole
          have length₂ := length_of_shownInner (same.trans whole)
          rw [List.length_drop] at length₂
          omega

/-- **When a batch means the same as its operations one by one**, if no compaction of
either run makes a difference: exactly when every value that is written last under its
key shows the same without its first eight bytes. -/
theorem batch_agrees_iff {env : Env} {batch : WriteBatch} (reached : Reached env w)
    (keys : ∀ op ∈ batch.ops, op.key.length < 2 ^ 16) (together : Ends (writeBatch batch) w () w₁)
    (oneByOne : Ends (runCalls (batch.ops.map BatchOp.call)) w () w₂) (fits₁ : FilesFit w₁.sys)
    (fits₂ : FilesFit w₂.sys) (still : w.sys.ClockAt t)
    (spared₁ : ∀ key, SparedBy w (.writeBatch batch) key)
    (spared₂ : ∀ key, SparedIn w (batch.ops.map BatchOp.call) key) :
    SameReads w₁ w₂ ↔
      ∀ key v, lastValue (opBindings batch.ops) key = some v → SameInBatch t v := by
  have goesOn₁ := (extending_call (.writeBatch batch) _ _ _ together).sys
  have goesOn₂ := (extending_runCalls _ _ _ _ oneByOne).sys
  have resting := reached.resting (fits₁.of_extends goesOn₁)
  have keysFit : (Call.writeBatch batch).KeysFit := by
    intro k member
    obtain ⟨op, here, rfl⟩ := List.mem_map.mp member
    exact keys op here
  have resting₁ := (resting.ends_call keysFit fits₁.withinLimits together).1
  have singles := fun key =>
    resting.visible_singles keys fits₂.withinLimits still oneByOne (spared₂ key)
  have batched := fun key =>
    resting.visible_batch keysFit fits₁.withinLimits still together (spared₁ key)
  rw [sameReads_iff resting₁.inv (singles []).1.inv (still.of_extends goesOn₁)
    (still.of_extends goesOn₂)]
  refine forall_congr' fun key => ?_
  rw [(singles key).2, batched key]
  cases lastValue (opBindings batch.ops) key with
  | none => simp
  | some v =>
      simp only [Option.some.injEq, forall_eq']
      rw [sameInBatch_iff]
      exact eq_comm

/-- A batch always means the same as its operations one by one. -/
def BatchesAgree : Prop :=
  ∀ (env : Env) (batch : WriteBatch) (w w₁ w₂ : World) (t : Nat), Reached env w →
    (∀ op ∈ batch.ops, op.key.length < 2 ^ 16) → Ends (writeBatch batch) w () w₁ →
    Ends (runCalls (batch.ops.map BatchOp.call)) w () w₂ → FilesFit w₁.sys → FilesFit w₂.sys →
    w.sys.ClockAt t → SameReads w₁ w₂

/-- A batch with one `put` in a new directory: both ways of writing end, freeze nothing,
and answer a lookup. -/
theorem exists_single_batch (key value : Bytes) (found₁ found₂ : Option Bytes)
    (passed : sessionPasses {} .steady [] (fun w =>
      passes (Call.writeBatch ⟨[.put key value]⟩).store w
          (fun _ w' => w'.eng.memtable.immutable.isNone) &&
        passes (Call.put key value).store w (fun _ w' => w'.eng.memtable.immutable.isNone) &&
        passes (writeBatch ⟨[.put key value]⟩) w (fun _ w₁ =>
          passes (get key) w₁ (fun v _ => v == found₁) &&
            decide ((w₁.sys.journal.map FsOp.added).sum < 2 ^ 32)) &&
        passes (runCalls [.put key value]) w (fun _ w₂ =>
          passes (get key) w₂ (fun v _ => v == found₂) &&
            decide ((w₂.sys.journal.map FsOp.added).sum < 2 ^ 32))) = true) :
    ∃ w w₁ w₂, Reached .steady w ∧ w.sys.ClockAt 1700000000 ∧
      (∀ k, SparedBy w (.writeBatch ⟨[.put key value]⟩) k) ∧
      (∀ k, SparedIn w [.put key value] k) ∧
      Ends (writeBatch ⟨[.put key value]⟩) w () w₁ ∧
      Ends (runCalls [.put key value]) w () w₂ ∧ FilesFit w₁.sys ∧ FilesFit w₂.sys ∧
      answer (get key) w₁ = .ok found₁ ∧ answer (get key) w₂ = .ok found₂ := by
  obtain ⟨e, s, w, opened, ran, -, tested⟩ := exists_session _ _ _ _ passed
  simp only [Bool.and_eq_true] at tested
  obtain ⟨⟨⟨storing₁, storing₂⟩, together⟩, oneByOne⟩ := tested
  obtain ⟨u₁, v₁, stored₁, free₁⟩ := ends_of_passes storing₁
  obtain ⟨u₂, v₂, stored₂, free₂⟩ := ends_of_passes storing₂
  obtain ⟨u₃, w₁, run₁, rest₁⟩ := ends_of_passes together
  obtain ⟨u₄, w₂, run₂, rest₂⟩ := ends_of_passes oneByOne
  obtain ⟨gets₁, few₁⟩ := Bool.and_eq_true_iff.mp rest₁
  obtain ⟨gets₂, few₂⟩ := Bool.and_eq_true_iff.mp rest₂
  obtain ⟨x₁, w₃, got₁, same₁⟩ := ends_of_passes gets₁
  obtain ⟨x₂, w₄, got₂, same₂⟩ := ends_of_passes gets₂
  have reached : Reached .steady w := (ReachedBy.opened opened).runCalls
    (List.forall_mem_nil _) (List.forall_mem_nil _) ran
  have still : w.sys.ClockAt 1700000000 := fun n _ => by
    rw [reached.env_eq]
    rfl
  refine ⟨w, w₁, w₂, reached, still,
    sparedBy_of_unfrozen stored₁ (Option.isNone_iff_eq_none.mp free₁), ?_, run₁, run₂,
    filesFit_of_added (of_decide_eq_true few₁), filesFit_of_added (of_decide_eq_true few₂), ?_, ?_⟩
  · intro k before call after w' split before_run
    obtain ⟨rfl, rfl, rfl⟩ : before = [] ∧ call = .put key value ∧ after = [] := by
      cases before with
      | nil =>
          cases split
          exact ⟨rfl, rfl, rfl⟩
      | cons first more => simp at split
    obtain ⟨-, rfl⟩ := ends_pure.mp before_run
    exact sparedBy_of_unfrozen stored₂ (Option.isNone_iff_eq_none.mp free₂) k
  · rw [answer_of_ok got₁, eq_of_beq same₁]
  · rw [answer_of_ok got₂, eq_of_beq same₂]

/-- A batch that overwrites one key and deletes another agrees with its operations, although
these flush and compact in between and the batch does not. -/
theorem batch_agrees_iff_overwritten : ∃ w w₁ w₂, answer (get [1]) w = .ok (some [7]) ∧
    Ends (writeBatch ⟨[.put [1] [9], .delete [2]]⟩) w () w₁ ∧
    Ends (runCalls [.put [1] [9], .delete [2]]) w () w₂ ∧
    w₂.eng.metrics.compactions = w₁.eng.metrics.compactions + 1 ∧ SameReads w₁ w₂ := by
  let ops : List BatchOp := [.put [1] [9], .delete [2]]
  have keys : ∀ c ∈ ops.map BatchOp.call, c.KeysFit := by
    unfold Call.KeysFit
    decide
  obtain ⟨w, w₁, reached, session, shallow, opts, together, fits₁, spared₁, tested⟩ := exists_spared
    { memtableSize := 0, l0CompactionThreshold := 1, maxLevels := 2 } .steady
    [.put [1] [7], .put [2] [8]] (.writeBatch ⟨ops⟩)
    (fun w w₁ => passes (get [1]) w (fun x _ => x == some [7]) &&
      passes (runCalls (ops.map BatchOp.call)) w fun _ w₂ =>
        decide (w₂.eng.metrics.compactions = w₁.eng.metrics.compactions + 1) &&
          decide ((w₂.sys.journal.map FsOp.added).sum < 2 ^ 32))
    (by decide) (by unfold Call.KeysFit; decide) (by decide +kernel)
  obtain ⟨before, singles⟩ := Bool.and_eq_true_iff.mp tested
  obtain ⟨u, w₂, oneByOne, rest⟩ := ends_of_passes singles
  obtain ⟨counted, few⟩ := Bool.and_eq_true_iff.mp rest
  have fits₂ := filesFit_of_added (of_decide_eq_true few)
  have still : w.sys.ClockAt 1700000000 := fun n _ => by
    rw [reached.env_eq]
    rfl
  have spared₂ := session.sparedIn shallow (by rw [opts]) keys fits₂.withinLimits oneByOne
  have batched : Ends (writeBatch ⟨ops⟩) w () w₁ := together
  refine ⟨w, w₁, w₂, answer_of_passes before, batched, oneByOne, of_decide_eq_true counted,
    (batch_agrees_iff reached (by decide) batched oneByOne fits₁ fits₂ still
      spared₁ spared₂).mpr fun key v last => ?_⟩
  rw [show opBindings ops = [([1], [9]), ([2], tombstone)] from rfl, lastValue_cons, lastValue_cons,
    show lastValue [] key = none from rfl, Option.none_or] at last
  split at last
  · cases last
    exact .inl (by decide)
  · rw [Option.none_or] at last
    split at last
    · cases last
      exact .inl (by decide)
    · cases last

/-- **A value of eight bytes** in a batch loses them: it is found empty. -/
theorem not_batchesAgree : ¬ BatchesAgree := by
  intro agree
  obtain ⟨w, w₁, w₂, reached, still, -, -, run₁, run₂, fits₁, fits₂, got₁, got₂⟩ :=
    exists_single_batch [1] [1, 2, 3, 4, 5, 6, 7, 8] (some []) (some [1, 2, 3, 4, 5, 6, 7, 8])
      (by decide +kernel)
  have same := (agree _ _ w w₁ w₂ _ reached (by decide) run₁ run₂ fits₁ fits₂ still).1 [1]
  rw [got₁, got₂] at same
  cases same

end KvEngine
