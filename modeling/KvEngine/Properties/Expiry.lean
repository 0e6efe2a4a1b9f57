import KvEngine.Properties.SparedKeys

/-!
# Values with a lifetime

`put_with_ttl` stores the sum of the clock reading and the lifetime with the value,
and every reader compares this sum with its own reading.  As long as it is the newest
version of its key, the value is shown until then and not afterwards.  A compaction
drops it once it has expired; what the key shows then is up to the older versions that
were left in other tables.
-/

namespace KvEngine

open Foundations Engine

variable {w w₀ w₁ w₂ w₃ w' : World} {call : Call} {key value : Bytes} {level t : Nat}

/-! ## Expiring values -/

/-- A value with a lifetime shows until it expires. -/
theorem shown_encodeTtl {expiry : Nat} (fits : expiry < u64Limit) (value : Bytes) (seq t : Nat) :
    shown t (encodeWithSeq (encodeTtl expiry value) seq) =
      if t < expiry then some value else none := by
  have field : ttlExpiry (encodeTtl expiry value) = expiry := by
    show leValue ((leBytes 8 expiry ++ value).take 8) = expiry
    rw [List.take_left' (length_leBytes 8 expiry), leValue_leBytes_of_lt fits]
  have payload : (encodeTtl expiry value).drop 9 = value := by
    show (leBytes 8 expiry ++ value).drop 8 = value
    rw [List.drop_left' (length_leBytes 8 expiry)]
  have marked : isTtl (encodeTtl expiry value) = true := by simp [isTtl, encodeTtl]
  have alive : encodeTtl expiry value ≠ tombstone := by simp [encodeTtl, tombstone]
  rw [shown, innerOf_encodeWithSeq, shownInner, if_neg alive, if_pos marked, field, payload]
  by_cases early : t < expiry
  · rw [if_neg (not_le.mpr early), if_pos early]
  · rw [if_pos (not_lt.mp early), if_neg early]

/-- The clock does not go back. -/
theorem Sys.Extends.time_le {s s' : Sys} (goesOn : s.Extends s') (forward : Monotone s.env.clock) :
    s.time ≤ s'.time := by
  show s.env.clock s.ticks ≤ s'.env.clock s'.ticks
  rw [goesOn.env]
  exact forward goesOn.ticks_le

/-! ## The law of the lifetime -/

/-- From now on the key shows what the version `x` shows. -/
def ShowsOnly (key x : Bytes) (w : World) : Prop :=
  ∀ t, w.sys.time ≤ t → w.eng.visible t key = shown t x

theorem ShowsOnly.of_versionsOf {x : Bytes} (shows : ShowsOnly key x w)
    (goesOn : w.sys.Extends w'.sys) (forward : Monotone w.sys.env.clock)
    (same : w'.eng.versionsOf key = w.eng.versionsOf key) : ShowsOnly key x w' := by
  intro t later
  rw [visible, same]
  exact shows t ((goesOn.time_le forward).trans later)

/-- A compaction that spares the key leaves what it shows. -/
theorem ShowsOnly.compacted {x : Bytes} (shows : ShowsOnly key x w) (inv : Inv w)
    (limits : WithinLimits w'.sys) (forward : Monotone w.sys.env.clock)
    (spares : Spares w level key) (run : Ends (compactLevel level) w () w') :
    ShowsOnly key x w' := by
  obtain ⟨added, compaction, ticks⟩ := ends_compactLevel_examined inv limits run
  have goesOn := (extending_compactLevel level _ _ _ run).sys
  intro t later
  have examined : examinedAt w level key ≤ t := by
    refine le_trans ?_ later
    show w.sys.env.clock _ ≤ w'.sys.env.clock w'.sys.ticks
    rw [goesOn.env]
    exact forward (ticks key)
  rw [compaction.visible_of_spares spares examined]
  exact shows t ((goesOn.time_le forward).trans later)

/-- In the course of a call whose compactions spare the key, it goes on showing what it
shows once the call has stored. -/
theorem ShowsOnly.of_call {x : Bytes} (resting : Resting w₀) (keys : call.KeysFit)
    (limits : WithinLimits w'.sys) (forward : Monotone w₀.sys.env.clock)
    (run : Ends call.run w₀ () w') (spared : SparedBy w₀ call key)
    (stored : ∀ w₁, Accepted w₀ (call.stores w₀.eng.nextSeq w₀.sys.time) call.seqs w₁ →
      w₀.sys.Extends w₁.sys → ShowsOnly key x w₁) : ShowsOnly key x w' := by
  have kept : w'.sys.env = w₀.sys.env ∧ ShowsOnly key x w' := by
    refine resting.inv.call_keeps keys limits run
      (P := fun w => w.sys.env = w₀.sys.env ∧ ShowsOnly key x w)
      (fun w₁ accepted goesOn => ⟨goesOn.env, stored w₁ accepted goesOn⟩) ?_ ?_
    · intro w₁ imm p w₂ isFrozen flush map held
      obtain ⟨env, shows⟩ := held
      have goesOn : w₁.sys.Extends w₂.sys := flush.did
      exact ⟨goesOn.env.trans env, shows.of_versionsOf goesOn (env ▸ forward)
        (flush.versionsOf_eq isFrozen map key)⟩
    · intro level w w' point inv limits compacts held
      obtain ⟨env, shows⟩ := held
      have goesOn := (extending_compactLevel level _ _ _ compacts).sys
      exact ⟨goesOn.env.trans env,
        shows.compacted inv limits (env ▸ forward) (spared level w point) compacts⟩
  exact kept.2

/-- The request does not write the key. -/
def Request.Leaves (request : Request) (key : Bytes) : Prop :=
  ∀ call, request = .write call → key ∉ call.keys

/-- The request's compactions spare the key. -/
def Request.SparedBy (w : World) (request : Request) (key : Bytes) : Prop :=
  ∀ call, request = .write call → KvEngine.SparedBy w call key

/-- **Requests that leave the key**, with compactions that spare it, keep what it shows. -/
theorem Later.showsOnly {x : Bytes}
    (later : Later (fun w request => request.Leaves key ∧ request.SparedBy w key) w w')
    (resting : Resting w) (forward : Monotone w.sys.env.clock) (limits : WithinLimits w'.sys)
    (shows : ShowsOnly key x w) : Resting w' ∧ ShowsOnly key x w' := by
  induction later with
  | now => exact ⟨resting, shows⟩
  | @served w₁ w₂ request response before keys meets run inductionHypothesis =>
      have goesOn := (extending_request request _ _ _ run).sys
      obtain ⟨resting₁, shows₁⟩ := inductionHypothesis (limits.of_extends goesOn)
      have forward₁ : Monotone w₁.sys.env.clock := before.extends.env ▸ forward
      refine ⟨resting₁.ends_request keys limits run, ?_⟩
      rcases resting₁.ends_request_cases run with ⟨call, rfl, ran⟩ | observed
      · refine .of_call resting₁ keys limits forward₁ ran (meets.2 call rfl) ?_
        intro w₃ accepted goesOn₃
        refine shows₁.of_versionsOf goesOn₃ forward₁ ?_
        exact accepted.versionsOf_of_notMem resting₁.inv fun s hs same =>
          meets.1 call rfl (same ▸ Call.key_mem_keys hs)
      · exact shows₁.of_versionsOf goesOn forward₁ (observed.versionsOf_eq key)

/-- **The law of the lifetime**: after `put_with_ttl` at the clock reading `n`, and as
long as no request writes the key and every compaction spares it, a lookup finds the
value at every reading below `n + ttl` and nothing from then on. -/
theorem get_after_put_with_ttl {env : Env} {ttl : Nat} (forward : Monotone env.clock)
    (reached : Reached env w) (short : key.length < 2 ^ 16)
    (run : Ends (putWithTtl key value ttl) w () w₁)
    (spared : SparedBy w (.putWithTtl key value ttl) key)
    (later : Later (fun w request => request.Leaves key ∧ request.SparedBy w key) w₁ w₂)
    (fits : FilesFit w₂.sys) (ticks : Nat) :
    answer (get key) ⟨w₂.eng, w₂.sys.later ticks⟩ =
      .ok (if (w₂.sys.later ticks).time < w.sys.time + ttl then some value else none) := by
  have goesOn := (extending_call (.putWithTtl key value ttl) _ _ _ run).sys
  have fits₁ := fits.of_extends later.extends
  have resting := reached.resting (fits₁.of_extends goesOn)
  have forward₀ : Monotone w.sys.env.clock := reached.env_eq ▸ forward
  have keys : (Call.putWithTtl key value ttl).KeysFit := by
    intro k member
    obtain rfl := List.mem_singleton.mp member
    exact short
  have ran : Ends (Call.putWithTtl key value ttl).run w () w₁ := run
  obtain ⟨w₃, storing, -⟩ := Engine.ends_call ran
  have small : w.sys.time + ttl < u64Limit := expiry_fits storing
  have first : ShowsOnly key (encodeWithSeq (encodeTtl (w.sys.time + ttl) value) w.eng.nextSeq) w₁ := by
    refine .of_call resting keys fits₁.withinLimits forward₀ ran spared ?_
    intro w₃ accepted _ t _
    obtain ⟨older, newest⟩ : ∃ older, w₃.eng.versionsOf key =
        encodeWithSeq (encodeTtl (w.sys.time + ttl) value) w.eng.nextSeq :: older :=
      ⟨_, accepted.versionsOf_single resting.inv resting.free⟩
    rw [visible, newest, List.head?_cons, Option.bind_some]
  have resting₁ := (resting.ends_call keys fits₁.withinLimits ran).1
  obtain ⟨resting₂, shows⟩ :=
    later.showsOnly resting₁ (goesOn.env ▸ forward₀) fits.withinLimits first
  have inv : Inv ⟨w₂.eng, w₂.sys.later ticks⟩ := (Observed.of_later resting₂.inv ticks).inv
  have passed : w₂.sys.time ≤ (w₂.sys.later ticks).time := by
    refine Sys.Extends.time_le ⟨_, w₂.sys.did_later ticks⟩ ?_
    rw [later.extends.env, goesOn.env]
    exact forward₀
  rw [answer_get inv, shows _ passed, shown_encodeTtl small]

/-- The clock goes on by 40 seconds between two readings. -/
def Env.ticking : Env := { Env.steady with clock := fun n => 1700000000 + 40 * n }

theorem Env.monotone_ticking : Monotone Env.ticking.clock := by
  intro m n le
  show 1700000000 + 40 * m ≤ 1700000000 + 40 * n
  omega

/-- A value with a lifetime of 100 seconds overwrites another one and is compacted with it.
After a write of another key it is found 80 seconds later and missed after another 40 seconds. -/
theorem get_after_put_with_ttl_overwritten : ∃ w w', answer (get [1]) w = .ok (some [8]) ∧
    Ends (runCalls [.putWithTtl [1] [7] 100, .put [2] [6]]) w () w' ∧
      w'.eng.metrics.compactions = w.eng.metrics.compactions + 2 ∧
        answer (get [1]) w' = .ok (some [7]) ∧
          answer (get [1]) ⟨w'.eng, w'.sys.later 1⟩ = .ok none := by
  have keys : ∀ c ∈ [Call.putWithTtl [1] [7] 100, .put [1] [8], .put [2] [5]], c.KeysFit := by
    unfold Call.KeysFit
    decide
  have keys₂ : (Call.put [2] [6]).KeysFit := by
    unfold Call.KeysFit
    decide
  obtain ⟨w, w₁, reached, session, shallow, opts, put, fits₁, spared, tested⟩ := exists_spared
    { memtableSize := 0, l0CompactionThreshold := 1, maxLevels := 2 } Env.ticking
    [.put [1] [8], .put [2] [5]] (.putWithTtl [1] [7] 100)
    (fun w w₁ => passes (get [1]) w (fun x _ => x == some [8]) &&
      passes (Call.put [2] [6]).run w₁ fun _ w₂ =>
        decide (w₂.sys.ticks = w.sys.ticks + 2 ∧
          w₂.eng.metrics.compactions = w.eng.metrics.compactions + 2) &&
            decide ((w₂.sys.journal.map FsOp.added).sum < 2 ^ 32))
    (by decide) keys (by decide +kernel)
  obtain ⟨before, putting⟩ := Bool.and_eq_true_iff.mp tested
  obtain ⟨u, w₂, put₂, rest⟩ := ends_of_passes putting
  obtain ⟨counted, few⟩ := Bool.and_eq_true_iff.mp rest
  obtain ⟨twice, compactions⟩ := of_decide_eq_true counted
  have levels : w.eng.opts.maxLevels ≤ 2 := by rw [opts]
  have fits₂ := filesFit_of_added (of_decide_eq_true few)
  have first : (Call.putWithTtl [1] [7] 100).KeysFit := keys _ List.mem_cons_self
  have session₁ := session.ends_call first fits₁.withinLimits put
  have shallow₁ := session.shallow_call shallow levels first fits₁.withinLimits put
  have opts₁ := (extending_call _ _ _ _ put).opts
  have spared₁ := session₁.sparedBy shallow₁ (by rw [opts₁]; exact levels) keys₂
    fits₂.withinLimits put₂
  have keysNext : (Request.write (.put [2] [6])).KeysFit := keys₂
  have law := get_after_put_with_ttl Env.monotone_ticking reached (by decide) put (spared [1])
    (.served .now keysNext ⟨?_, ?_⟩ (ends_write put₂)) fits₂
  · have start : w.sys.time = 1700000000 + 40 * w.sys.ticks := by
      rw [Sys.time, reached.env_eq]
      rfl
    have env : w₂.sys.env = .ticking := by
      rw [(extending_call _ _ _ _ put₂).sys.env, (extending_call _ _ _ _ put).sys.env,
        reached.env_eq]
    have later : ∀ n, (w₂.sys.later n).time = 1700000000 + 40 * (w.sys.ticks + 2 + n) := by
      intro n
      rw [Sys.time, Sys.later_env, Sys.later_ticks, env, twice]
      rfl
    refine ⟨w, w₂, answer_of_passes before, put.bind (put₂.bind rfl), compactions, ?_, ?_⟩
    · have found := law 0
      rwa [later, start, if_pos (by omega)] at found
    · have missed := law 1
      rwa [later, start, if_neg (by omega)] at missed
  · intro call same
    cases same
    decide
  · intro call same
    cases same
    exact spared₁ [1]

/-- Lifetimes are obeyed in every run, whatever its compactions do. -/
def LifetimesObeyed : Prop :=
  ∀ (env : Env) (w w₁ w₂ : World) (key value : Bytes) (ttl : Nat), Monotone env.clock →
    Reached env w → key.length < 2 ^ 16 → Ends (putWithTtl key value ttl) w () w₁ →
    Later (fun _ request => request.Leaves key) w₁ w₂ → FilesFit w₂.sys →
    answer (get key) w₂ =
      .ok (if w₂.sys.time < w.sys.time + ttl then some value else none)

/-- **An older version reappears**: the value of `put_with_ttl([1], [9], 0)` has expired
when the call compacts it, and the value that level 2 holds for the key is back. -/
theorem not_lifetimesObeyed : ¬ LifetimesObeyed := by
  intro obeyed
  obtain ⟨e, s, w, opened, ran, -, tested⟩ := exists_tenPuts
  obtain ⟨u, w₁, put, rest⟩ := ends_of_passes tested
  obtain ⟨gets, few⟩ := Bool.and_eq_true_iff.mp rest
  obtain ⟨found, w₂, run, isOld⟩ := ends_of_passes gets
  have reached : Reached .steady w := (ReachedBy.opened opened).runCalls
    (by unfold Call.KeysFit; decide) (fun _ _ _ _ => trivial) ran
  have law := obeyed _ w w₁ w₁ [1] [9] 0 monotone_const reached (by decide) put .now
    (filesFit_of_added (of_decide_eq_true few))
  have notEarly : w.sys.time + 0 ≤ w₁.sys.time := by
    refine Sys.Extends.time_le (extending_call (.putWithTtl [1] [9] 0) _ _ _ put).sys ?_
    rw [reached.env_eq]
    exact monotone_const
  rw [answer_of_ok run, eq_of_beq isOld, if_neg (not_lt.mpr notEarly)] at law
  cases law

end KvEngine
