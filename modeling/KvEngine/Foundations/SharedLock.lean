import Mathlib.Logic.Function.Basic
import Mathlib.Tactic.Common

/-!
# A value behind shared references and a lock

`Arc<Mutex<T>>` in the abstract.  Clients hold references to one value; an operation on
the value runs in steps while its client holds the lock, and a panic on the way poisons
the lock.  The steps of the clients interleave in every way.

* `Explained` is the invariant: the operations that have released the lock, run one
  after the other in that order, give each client the outcome it got and lead to the
  value that is there, but for the steps of the client that holds the lock.
* `Run.calls_of_released` places the call of every operation before its release.  The order of the
  releases is therefore one that respects real time.
* A poisoned lock is never taken again, so its value no longer changes.
* The value can only be taken out while there is a single reference and no call.
-/

namespace Foundations

variable {ι σ α κ ρ : Type}

/-- What one step of an operation comes to. -/
inductive Turn (κ ρ : Type)
  | more (next : κ)
  | done (result : ρ)
  | panicked

/-- Operations `α` on a value; `κ` is the code that is left to run of one. -/
structure Object (σ α κ ρ : Type) where
  start : α → κ
  step : κ → σ → Turn κ ρ × σ

namespace Object

/-- Run alone, the code ends with a result, or panics (`none`). -/
inductive Runs (o : Object σ α κ ρ) : κ → σ → Option ρ → σ → Prop
  | done {k : κ} {s s' : σ} {r : ρ} (step : o.step k s = (.done r, s')) : Runs o k s (some r) s'
  | panicked {k : κ} {s s' : σ} (step : o.step k s = (.panicked, s')) : Runs o k s none s'
  | more {k k₁ : κ} {s s₁ s' : σ} {r : Option ρ} (step : o.step k s = (.more k₁, s₁))
      (rest : Runs o k₁ s₁ r s') : Runs o k s r s'

/-- From `k` on `s`, some steps lead to `k'` on `s'`. -/
inductive Underway (o : Object σ α κ ρ) (k : κ) (s : σ) : κ → σ → Prop
  | start : Underway o k s k s
  | more {k₁ k₂ : κ} {s₁ s₂ : σ} (before : Underway o k s k₁ s₁)
      (step : o.step k₁ s₁ = (.more k₂, s₂)) : Underway o k s k₂ s₂

variable {o : Object σ α κ ρ} {k k' : κ} {s s' s'' : σ} {r : Option ρ}

/-- What is left of an operation ends as the operation does. -/
theorem Underway.runs (underway : o.Underway k s k' s') (rest : o.Runs k' s' r s'') :
    o.Runs k s r s'' := by
  induction underway with
  | start => exact rest
  | more _ step inductionHypothesis => exact inductionHypothesis (.more step rest)

/-- An operation that ends still does so once it is under way. -/
theorem Runs.of_underway (runs : o.Runs k s r s'') (underway : o.Underway k s k' s') :
    o.Runs k' s' r s'' := by
  induction underway with
  | start => exact runs
  | more before step inductionHypothesis =>
      cases inductionHypothesis with
      | done step' => cases step.symm.trans step'
      | panicked step' => cases step.symm.trans step'
      | more step' rest =>
          cases step.symm.trans step'
          exact rest

/-- Code that comes back to itself does not end. -/
theorem Runs.not_of_more (again : o.step k s = (.more k, s)) : ¬ o.Runs k s r s' := by
  intro runs
  induction runs with
  | done step => cases step.symm.trans again
  | panicked step => cases step.symm.trans again
  | more step rest inductionHypothesis =>
      cases step.symm.trans again
      exact inductionHypothesis again

end Object

/-! ## Clients -/

/-- What a client is doing with its reference. -/
inductive Phase (α κ : Type)
  /-- It has none. -/
  | absent
  /-- It is in no call. -/
  | idle
  /-- It has called `op` and waits for the lock. -/
  | waiting (op : α)
  /-- It holds the lock; `now` is left to run of `op`. -/
  | inside (op : α) (now : κ)
  /-- It could not take the value out and is about to drop its reference. -/
  | retaining

/-- The value, its lock and the clients. -/
structure Config (ι σ α κ : Type) where
  value : σ
  holder : Option ι
  poisoned : Bool
  phase : ι → Phase α κ

/-- What happens in one step. -/
inductive Event (ι α ρ : Type)
  /-- `i` clones its reference for `j`. -/
  | cloned (i j : ι)
  /-- `i` calls `op`. -/
  | called (i : ι) (op : α)
  /-- `i` gets the lock. -/
  | entered (i : ι)
  /-- `i` runs one step. -/
  | worked (i : ι)
  /-- `op` of `i` ends and releases the lock. -/
  | released (i : ι) (op : α) (outcome : Option ρ)
  /-- The call of `i` panics because the lock is poisoned. -/
  | refused (i : ι) (op : α)
  /-- `i` drops its reference. -/
  | dropped (i : ι)
  /-- `i` takes the value out. -/
  | unwrapped (i : ι)
  /-- `i` cannot take it out. -/
  | retained (i : ι)

/-- An operation that has released the lock. -/
structure Section (ι α ρ : Type) where
  client : ι
  op : α
  outcome : Option ρ

/-- The client whose phase the event changes. -/
def Event.client : Event ι α ρ → ι
  | .cloned _ j => j
  | .called i _ => i
  | .entered i => i
  | .worked i => i
  | .released i _ _ => i
  | .refused i _ => i
  | .dropped i => i
  | .unwrapped i => i
  | .retained i => i

/-- The section that an event ends. -/
def Event.section? : Event ι α ρ → Option (Section ι α ρ)
  | .released i op outcome => some ⟨i, op, outcome⟩
  | _ => none

/-- The sections of a run, in the order of their releases. -/
def sections (es : List (Event ι α ρ)) : List (Section ι α ρ) := es.filterMap Event.section?

@[simp] theorem sections_nil : sections ([] : List (Event ι α ρ)) = [] := rfl

@[simp] theorem sections_append (es es' : List (Event ι α ρ)) :
    sections (es ++ es') = sections es ++ sections es' := by
  simp only [sections, List.filterMap_append]

/-- The operations run one after the other. -/
inductive Serial (o : Object σ α κ ρ) (s₀ : σ) : List (Section ι α ρ) → σ → Prop
  | start : Serial o s₀ [] s₀
  | next {log : List (Section ι α ρ)} {s s' : σ} {e : Section ι α ρ} (before : Serial o s₀ log s)
      (run : o.Runs (o.start e.op) s e.outcome s') : Serial o s₀ (log ++ [e]) s'

section Steps

variable [DecidableEq ι]

/-- The configuration with another phase of one client. -/
def Config.enter (c : Config ι σ α κ) (i : ι) (p : Phase α κ) : Config ι σ α κ :=
  { c with phase := Function.update c.phase i p }

@[simp] theorem Config.phase_enter_self (c : Config ι σ α κ) (i : ι) (p : Phase α κ) :
    (c.enter i p).phase i = p := Function.update_self ..

theorem Config.phase_enter_of_ne (c : Config ι σ α κ) {i j : ι} (p : Phase α κ) (other : j ≠ i) :
    (c.enter i p).phase j = c.phase j := Function.update_of_ne other ..

@[simp] theorem Config.enter_enter (c : Config ι σ α κ) (i : ι) (p q : Phase α κ) :
    (c.enter i p).enter i q = c.enter i q := by
  unfold Config.enter
  rw [Function.update_idem]

@[simp] theorem Config.holder_enter (c : Config ι σ α κ) (i : ι) (p : Phase α κ) :
    (c.enter i p).holder = c.holder := rfl

@[simp] theorem Config.value_enter (c : Config ι σ α κ) (i : ι) (p : Phase α κ) :
    (c.enter i p).value = c.value := rfl

@[simp] theorem Config.poisoned_enter (c : Config ι σ α κ) (i : ι) (p : Phase α κ) :
    (c.enter i p).poisoned = c.poisoned := rfl

/-- The steps of the clients. -/
inductive Step (o : Object σ α κ ρ) : Config ι σ α κ → Event ι α ρ → Config ι σ α κ → Prop
  | cloned {c : Config ι σ α κ} {i j : ι} (has : c.phase i = .idle) (free : c.phase j = .absent) :
      Step o c (.cloned i j) (c.enter j .idle)
  | called {c : Config ι σ α κ} {i : ι} (op : α) (has : c.phase i = .idle) :
      Step o c (.called i op) (c.enter i (.waiting op))
  | entered {c : Config ι σ α κ} {i : ι} {op : α} (waits : c.phase i = .waiting op)
      (free : c.holder = none) (sound : c.poisoned = false) :
      Step o c (.entered i) { c.enter i (.inside op (o.start op)) with holder := some i }
  | worked {c : Config ι σ α κ} {i : ι} {op : α} {k k' : κ} {s : σ}
      (isInside : c.phase i = .inside op k)
      (step : o.step k c.value = (.more k', s)) :
      Step o c (.worked i) { c.enter i (.inside op k') with value := s }
  | returned {c : Config ι σ α κ} {i : ι} {op : α} {k : κ} {s : σ} {r : ρ}
      (isInside : c.phase i = .inside op k) (step : o.step k c.value = (.done r, s)) :
      Step o c (.released i op (some r)) { c.enter i .idle with value := s, holder := none }
  | panicked {c : Config ι σ α κ} {i : ι} {op : α} {k : κ} {s : σ}
      (isInside : c.phase i = .inside op k) (step : o.step k c.value = (.panicked, s)) :
      Step o c (.released i op none)
        { c.enter i .idle with value := s, holder := none, poisoned := true }
  | refused {c : Config ι σ α κ} {i : ι} {op : α} (waits : c.phase i = .waiting op)
      (free : c.holder = none) (poisoned : c.poisoned = true) :
      Step o c (.refused i op) (c.enter i .idle)
  | dropped {c : Config ι σ α κ} {i : ι} (has : c.phase i = .idle ∨ c.phase i = .retaining) :
      Step o c (.dropped i) (c.enter i .absent)
  | unwrapped {c : Config ι σ α κ} {i : ι} (has : c.phase i = .idle)
      (alone : ∀ j, j ≠ i → c.phase j = .absent) : Step o c (.unwrapped i) (c.enter i .absent)
  | retained {c : Config ι σ α κ} {i j : ι} (has : c.phase i = .idle) (other : j ≠ i)
      (shared : c.phase j ≠ .absent) : Step o c (.retained i) (c.enter i .retaining)

/-- Some steps, with what happened in them. -/
inductive Run (o : Object σ α κ ρ) (c₀ : Config ι σ α κ) : List (Event ι α ρ) → Config ι σ α κ → Prop
  | start : Run o c₀ [] c₀
  | step {es : List (Event ι α ρ)} {c c' : Config ι σ α κ} {e : Event ι α ρ} (before : Run o c₀ es c)
      (next : Step o c e c') : Run o c₀ (es ++ [e]) c'

/-- A new value with one reference to it. -/
def Config.new (s : σ) (i : ι) : Config ι σ α κ where
  value := s
  holder := none
  poisoned := false
  phase := Function.update (fun _ => .absent) i .idle

theorem Config.phase_new (s : σ) (i j : ι) :
    (Config.new s i : Config ι σ α κ).phase j = if j = i then .idle else .absent := by
  show Function.update (fun _ => Phase.absent) i Phase.idle j = _
  rw [Function.update_apply]

namespace Run

variable {o : Object σ α κ ρ} {c₀ c c' : Config ι σ α κ} {es es' : List (Event ι α ρ)} {i : ι}

theorem append (first : Run o c₀ es c) (later : Run o c es' c') : Run o c₀ (es ++ es') c' := by
  induction later with
  | start =>
      rw [List.append_nil]
      exact first
  | step _ next inductionHypothesis =>
      rw [← List.append_assoc]
      exact inductionHypothesis.step next

/-- A step, and then more. -/
theorem cons {e : Event ι α ρ} (next : Step o c₀ e c) (later : Run o c es c') :
    Run o c₀ (e :: es) c' :=
  (Run.start.step next).append later

/-- Left alone, the client that is inside comes to the end of its operation. -/
theorem of_runs {op : α} {k : κ} {s' : σ} {r : Option ρ} (isInside : c.phase i = .inside op k)
    (runs : o.Runs k c.value r s') : ∃ es, Run o c es
        { c.enter i .idle with
          value := s'
          holder := none
          poisoned := c.poisoned || r.isNone } ∧
      sections es = [⟨i, op, r⟩] := by
  generalize value : c.value = s at runs
  induction runs generalizing c with
  | done step =>
      subst value
      refine ⟨[.released i op (some _)], .cons ?_ .start, rfl⟩
      simpa using Step.returned isInside step
  | panicked step =>
      subst value
      refine ⟨[.released i op none], .cons ?_ .start, rfl⟩
      simpa using Step.panicked isInside step
  | @more k k₁ s s₁ s' r step rest inductionHypothesis =>
      subst value
      let c₁ : Config ι σ α κ := { c.enter i (.inside op k₁) with value := s₁ }
      obtain ⟨es, run, ended⟩ := inductionHypothesis (c := c₁) (c.phase_enter_self i _) rfl
      refine ⟨.worked i :: es, .cons (.worked isInside step) ?_, ended⟩
      simpa [c₁, Config.enter] using run

/-- **A sound lock that is free lets a client in**: the call that waits for it is served. -/
theorem of_waiting {op : α} {s' : σ} {r : Option ρ} (waits : c.phase i = .waiting op)
    (free : c.holder = none) (sound : c.poisoned = false) (runs : o.Runs (o.start op) c.value r s') :
    ∃ es, Run o c es
        { c.enter i .idle with
          value := s'
          poisoned := r.isNone } ∧
      sections es = [⟨i, op, r⟩] := by
  let c₁ : Config ι σ α κ := { c.enter i (.inside op (o.start op)) with holder := some i }
  obtain ⟨es, run, ended⟩ := of_runs (c := c₁) (c.phase_enter_self i _) runs
  refine ⟨.entered i :: es, .cons (.entered waits free sound) ?_, ended⟩
  simpa [c₁, Config.enter, free, sound] using run

/-- Between two calls: no client is in one, and the lock is free and sound. -/
structure Quiet (c : Config ι σ α κ) (i : ι) : Prop where
  phases : ∀ j, c.phase j = .idle ∨ c.phase j = .absent
  self : c.phase i = .idle
  free : c.holder = none
  sound : c.poisoned = false

theorem Quiet.enter (quiet : Quiet c i) (j : ι) (s : σ) :
    Quiet { c.enter j .idle with value := s } i where
  phases k := by
    by_cases same : k = j
    · exact Or.inl (same ▸ c.phase_enter_self j _)
    · rw [show (c.enter j .idle).phase k = c.phase k from c.phase_enter_of_ne _ same]
      exact quiet.phases k
  self := by
    by_cases same : i = j
    · exact same ▸ c.phase_enter_self j _
    · exact (c.phase_enter_of_ne _ same).trans quiet.self
  free := quiet.free
  sound := quiet.sound

/-- **Every history of calls that do not panic arises**, whichever clients make them. -/
theorem of_serial {s₀ s : σ} {log : List (Section ι α ρ)} (serial : Serial o s₀ log s) (i : ι)
    (sound : ∀ e ∈ log, e.outcome ≠ none) :
    ∃ es c, Run o (.new s₀ i) es c ∧ sections es = log ∧ c.value = s ∧ Quiet c i := by
  induction serial with
  | start =>
      refine ⟨[], _, .start, rfl, rfl, fun j => ?_, ?_, rfl, rfl⟩
      · by_cases same : j = i
        · exact Or.inl (by rw [Config.phase_new, if_pos same])
        · exact Or.inr (by rw [Config.phase_new, if_neg same])
      · rw [Config.phase_new, if_pos rfl]
  | @next log s s' e before runs inductionHypothesis =>
      obtain ⟨es, c, run, ended, value, quiet⟩ :=
        inductionHypothesis fun e' member => sound e' (List.mem_append_left _ member)
      obtain ⟨j, op, outcome⟩ := e
      -- the client gets a reference if it has none
      obtain ⟨es₁, c₁, run₁, none₁, value₁, quiet₁, has⟩ : ∃ es₁ c₁, Run o c es₁ c₁ ∧
          sections es₁ = [] ∧ c₁.value = c.value ∧ Quiet c₁ i ∧ c₁.phase j = .idle := by
        rcases quiet.phases j with idle | absent
        · exact ⟨[], c, .start, rfl, rfl, quiet, idle⟩
        · exact ⟨[.cloned i j], _, .cons (.cloned quiet.self absent) .start, rfl, rfl,
            quiet.enter j c.value, c.phase_enter_self j _⟩
      have runs' : o.Runs (o.start op) (c₁.enter j (.waiting op)).value outcome s' := by
        rw [Config.value_enter, value₁, value]
        exact runs
      obtain ⟨es₂, run₂, served⟩ := of_waiting (i := j) (c := c₁.enter j (.waiting op))
        (c₁.phase_enter_self j _) quiet₁.free quiet₁.sound runs'
      have answered : outcome.isNone = false := by
        have some := sound _ (List.mem_append_right _ List.mem_cons_self)
        rwa [Option.isNone_eq_false_iff, ← Option.ne_none_iff_isSome]
      rw [Config.enter_enter, answered] at run₂
      refine ⟨_, _, run.append (run₁.append (.cons (.called op has) run₂)), ?_, rfl, ?_⟩
      · rw [sections_append, sections_append, ended, none₁, List.nil_append,
          ← List.singleton_append, sections_append, served]
        rfl
      · have enters := quiet₁.enter j s'
        exact ⟨enters.phases, enters.self, enters.free, rfl⟩

end Run

/-! ## Runs are serial -/

/-- The sections that ended explain the configuration. -/
structure Explained (o : Object σ α κ ρ) (s₀ : σ) (log : List (Section ι α ρ))
    (c : Config ι σ α κ) : Prop where
  free : c.holder = none → Serial o s₀ log c.value
  held : ∀ i, c.holder = some i → c.poisoned = false ∧ ∃ op k s, c.phase i = .inside op k ∧
    Serial o s₀ log s ∧ o.Underway (o.start op) s k c.value
  holds : ∀ i op k, c.phase i = .inside op k → c.holder = some i
  sound : c.poisoned = false → ∀ e ∈ log, e.outcome ≠ none
  poisoned : c.poisoned = true → ∃ before i op, log = before ++ [⟨i, op, none⟩] ∧
    ∀ e ∈ before, e.outcome ≠ none

namespace Explained

variable {o : Object σ α κ ρ} {s₀ : σ} {log : List (Section ι α ρ)} {c c' : Config ι σ α κ}
  {i : ι}

/-- A step of a client that neither enters nor leaves the lock. -/
theorem outside (explained : Explained o s₀ log c) {p : Phase α κ}
    (before : ∀ op k, c.phase i ≠ .inside op k) (after : ∀ op k, p ≠ .inside op k) :
    Explained o s₀ log (c.enter i p) where
  free := explained.free
  held j holds := by
    obtain ⟨sound, op, k, s, isInside, rest⟩ := explained.held j holds
    have other : j ≠ i := fun same => before op k (same ▸ isInside)
    exact ⟨sound, op, k, s, (c.phase_enter_of_ne p other).trans isInside, rest⟩
  holds j op k isInside := by
    by_cases same : j = i
    · subst same
      rw [Config.phase_enter_self] at isInside
      exact absurd isInside (after op k)
    · rw [c.phase_enter_of_ne p same] at isInside
      exact explained.holds j op k isInside
  sound := explained.sound
  poisoned := explained.poisoned

omit [DecidableEq ι] in
/-- The client that is inside holds the lock, and its steps so far are known. -/
theorem underway (explained : Explained o s₀ log c) {op : α} {k : κ}
    (isInside : c.phase i = .inside op k) :
    c.holder = some i ∧ c.poisoned = false ∧ ∃ s, Serial o s₀ log s ∧
      o.Underway (o.start op) s k c.value := by
  have holds := explained.holds i op k isInside
  obtain ⟨sound, op', k', s, isInside', serial, steps⟩ := explained.held i holds
  cases isInside.symm.trans isInside'
  exact ⟨holds, sound, s, serial, steps⟩

omit [DecidableEq ι] in
/-- No other client is inside. -/
theorem others (explained : Explained o s₀ log c) (holds : c.holder = some i) {j : ι} (other : j ≠ i)
    (op : α) (k : κ) : c.phase j ≠ .inside op k := by
  intro isInside
  exact other (Option.some.inj ((explained.holds j op k isInside).symm.trans holds))

/-- Nobody is inside once the holder has left. -/
theorem alone (explained : Explained o s₀ log c) (holds : c.holder = some i) {h : Option ι} :
    ∀ j op k, (c.enter i .idle).phase j = .inside op k → h = some j := by
  intro j op k isInside
  by_cases same : j = i
  · rw [same, Config.phase_enter_self] at isInside
    cases isInside
  · exact absurd ((c.phase_enter_of_ne _ same).symm.trans isInside)
      (explained.others holds same op k)

/-- **One step** is explained by the section that it ends, if it ends one. -/
theorem step (explained : Explained o s₀ log c) {e : Event ι α ρ} (next : Step o c e c') :
    Explained o s₀ (log ++ e.section?.toList) c' := by
  cases next with
  | cloned has free =>
      simpa [Event.section?] using explained.outside (p := .idle) (by simp [free]) (by simp)
  | called op has =>
      simpa [Event.section?] using explained.outside (p := .waiting op) (by simp [has]) (by simp)
  | refused waits =>
      simpa [Event.section?] using explained.outside (p := .idle) (by simp [waits]) (by simp)
  | @dropped i has =>
      have notInside : ∀ op k, c.phase i ≠ .inside op k := by
        rintro op k isInside
        rcases has with idle | retaining
        · cases idle.symm.trans isInside
        · cases retaining.symm.trans isInside
      simpa [Event.section?] using explained.outside (p := .absent) notInside (by simp)
  | unwrapped has =>
      simpa [Event.section?] using explained.outside (p := .absent) (by simp [has]) (by simp)
  | retained has =>
      simpa [Event.section?] using explained.outside (p := .retaining) (by simp [has]) (by simp)
  | @entered i op waits free sound =>
      simp only [Event.section?, Option.toList_none, List.append_nil]
      refine ⟨by simp, fun j holds => ?_, fun j op' k isInside => ?_, explained.sound,
        explained.poisoned⟩
      · cases holds
        exact ⟨sound, op, _, _, c.phase_enter_self i _, explained.free free, .start⟩
      · -- nobody else is inside, for the lock was free
        by_cases same : j = i
        · exact congrArg some same.symm
        · have inside' := (c.phase_enter_of_ne _ same).symm.trans isInside
          cases (explained.holds j op' k inside').symm.trans free
  | @worked i op k k' s isInside step =>
      simp only [Event.section?, Option.toList_none, List.append_nil]
      obtain ⟨holds, sound, s₁, serial, steps⟩ := explained.underway isInside
      refine ⟨fun free => ?_, fun j holds' => ?_, fun j op' k'' isInside' => ?_, explained.sound,
        explained.poisoned⟩
      · cases holds.symm.trans free
      · cases holds.symm.trans holds'
        exact ⟨sound, op, k', s₁, c.phase_enter_self i _, serial, steps.more step⟩
      · by_cases same : j = i
        · rw [same]
          exact holds
        · exact absurd ((c.phase_enter_of_ne _ same).symm.trans isInside')
            (explained.others holds same op' k'')
  | @returned i op k s r isInside step =>
      obtain ⟨holds, sound, s₁, serial, steps⟩ := explained.underway isInside
      refine ⟨fun _ => serial.next (steps.runs (.done step)), by simp,
        explained.alone holds, fun _ e member => ?_, fun isPoisoned => ?_⟩
      · rcases List.mem_append.mp member with old | new
        · exact explained.sound sound e old
        · rw [List.mem_singleton.mp new]
          simp
      · cases sound.symm.trans isPoisoned
  | @panicked i op k s isInside step =>
      obtain ⟨holds, sound, s₁, serial, steps⟩ := explained.underway isInside
      exact ⟨fun _ => serial.next (steps.runs (.panicked step)), by simp,
        explained.alone holds, by simp, fun _ => ⟨log, i, op, rfl, explained.sound sound⟩⟩

end Explained

namespace Run

variable {o : Object σ α κ ρ} {s₀ : σ} {c₀ c c' : Config ι σ α κ} {es es' : List (Event ι α ρ)} {i : ι}

/-- A run came to the step of each of its events. -/
theorem split {e : Event ι α ρ} (run : Run o c₀ (es ++ e :: es') c) :
    ∃ c₁ c₂, Run o c₀ es c₁ ∧ Step o c₁ e c₂ ∧ Run o c₂ es' c := by
  generalize total : es ++ e :: es' = all at run
  induction run generalizing es' with
  | start =>
      have some := congrArg List.length total
      simp at some
  | @step all₁ c₁ c₂ last before next inductionHypothesis =>
      rcases List.eq_nil_or_concat es' with rfl | ⟨es'', last', rfl⟩
      · obtain ⟨rfl, same⟩ := List.append_inj' total rfl
        cases same
        exact ⟨c₁, c₂, before, next, .start⟩
      · rw [List.concat_eq_append, ← List.cons_append, ← List.append_assoc] at total
        obtain ⟨init, same⟩ := List.append_inj' total rfl
        cases same
        obtain ⟨c₃, c₄, first, step, later⟩ := inductionHypothesis init
        exact ⟨c₃, c₄, first, step, List.concat_eq_append ▸ later.step next⟩

/-- **Every run is serial.** -/
theorem explained (run : Run o (.new s₀ i) es c) : Explained o s₀ (sections es) c := by
  induction run with
  | start =>
      refine ⟨fun _ => .start, by simp [Config.new], fun j op k isInside => ?_, by simp,
        by simp [Config.new]⟩
      rw [Config.phase_new] at isInside
      split at isInside <;> cases isInside
  | @step es c c' e before next inductionHypothesis =>
      have same : sections (es ++ [e]) = sections es ++ e.section?.toList := by
        rw [sections_append]
        cases e <;> rfl
      rw [same]
      exact inductionHypothesis.step next

end Run

/-! ## Calls and their releases -/

/-- The event is the call of an operation by the client, or the end of one. -/
def Event.Bounds (e : Event ι α ρ) (i : ι) : Prop :=
  e.client = i ∧
    match e with
    | .called _ _ => True
    | .released _ _ _ => True
    | .refused _ _ => True
    | _ => False

/-- The last call of the client is that of `op`, and it has not ended. -/
def Calls (es : List (Event ι α ρ)) (i : ι) (op : α) : Prop :=
  ∃ before after, es = before ++ .called i op :: after ∧ ∀ e ∈ after, ¬ e.Bounds i

omit [DecidableEq ι] in
theorem Calls.concat {es : List (Event ι α ρ)} {i : ι} {op : α} (calls : Calls es i op)
    {e : Event ι α ρ} (other : ¬ e.Bounds i) : Calls (es ++ [e]) i op := by
  obtain ⟨before, after, rfl, none⟩ := calls
  refine ⟨before, after ++ [e], by simp, fun e' member => ?_⟩
  rcases List.mem_append.mp member with old | new
  · exact none e' old
  · rw [List.mem_singleton.mp new]
    exact other

/-- The client is in a call of `op`. -/
def Phase.Of (op : α) : Phase α κ → Prop
  | .waiting op' => op' = op
  | .inside op' _ => op' = op
  | _ => False

/-- A step changes the phase of one client. -/
theorem Step.phase_of_ne {o : Object σ α κ ρ} {c c' : Config ι σ α κ} {e : Event ι α ρ}
    (next : Step o c e c') {j : ι} (other : j ≠ e.client) : c'.phase j = c.phase j := by
  cases next <;> exact Config.phase_enter_of_ne _ _ other

namespace Run

variable {o : Object σ α κ ρ} {s₀ : σ} {c c' : Config ι σ α κ} {es : List (Event ι α ρ)} {i j : ι}
  {op : α}

/-- **Every call in progress was made**, and the client has made no other since. -/
theorem calls (run : Run o (.new s₀ i) es c) (inCall : (c.phase j).Of op) : Calls es j op := by
  induction run generalizing op with
  | start =>
      rw [Config.phase_new] at inCall
      split at inCall <;> exact inCall.elim
  | @step es c c' e before next inductionHypothesis =>
      by_cases other : j ≠ e.client
      · rw [next.phase_of_ne other] at inCall
        exact (inductionHypothesis inCall).concat fun bounds => other bounds.1.symm
      · obtain rfl := not_not.mp other
        cases next with
        | called op' has =>
            rw [Event.client, Config.phase_enter_self] at inCall
            cases inCall
            exact ⟨es, [], rfl, by simp⟩
        | entered waits =>
            refine (inductionHypothesis ?_).concat And.right
            simp only [Event.client, Config.phase_enter_self] at inCall
            rw [Event.client, waits]
            exact inCall
        | worked isInside =>
            refine (inductionHypothesis ?_).concat And.right
            simp only [Event.client, Config.phase_enter_self] at inCall
            rw [Event.client, isInside]
            exact inCall
        | _ => exact ((congrArg (Phase.Of op) (c.phase_enter_self _ _)).mp inCall).elim

/-- **A result is given to a call**: what releases the lock has been called, by the same
client, which has been in that call since. -/
theorem calls_of_released (run : Run o (.new s₀ i) es c) {outcome : Option ρ}
    (next : Step o c (.released j op outcome) c') : Calls es j op := by
  refine run.calls ?_
  cases next with
  | returned isInside =>
      rw [isInside]
      rfl
  | panicked isInside =>
      rw [isInside]
      rfl

/-! ## A poisoned lock, and the last reference -/

/-- **A call is not stuck.**  It comes to its end if it holds the lock, or takes it when it is
free, as long as the operation ends. -/
theorem finishes {P : ρ → Prop} (run : Run o (.new s₀ i) es c) (inCall : (c.phase j).Of op)
    (sound : c.poisoned = false) (turn : c.holder = none ∨ c.holder = some j)
    (ends : ∀ s, Serial o s₀ (sections es) s → ∃ r s', P r ∧ o.Runs (o.start op) s (some r) s') :
    ∃ es' c' r, P r ∧ Run o c es' c' ∧ sections es' = [⟨j, op, some r⟩] ∧ c'.holder = none := by
  rcases turn with free | held
  · have waits : c.phase j = .waiting op := by
      cases phase : c.phase j with
      | waiting op' => rw [show op' = op by simpa [Phase.Of, phase] using inCall]
      | inside op' k => cases free.symm.trans (run.explained.holds j op' k phase)
      | _ => simp [Phase.Of, phase] at inCall
    obtain ⟨r, s', good, runs⟩ := ends c.value (run.explained.free free)
    obtain ⟨es', run', ended⟩ := of_waiting waits free sound runs
    exact ⟨es', _, r, good, run', ended, free⟩
  · obtain ⟨-, op', k, s, isInside, serial, underway⟩ := run.explained.held j held
    obtain rfl : op' = op := by simpa [Phase.Of, isInside] using inCall
    obtain ⟨r, s', good, runs⟩ := ends s serial
    obtain ⟨es', run', ended⟩ := of_runs isInside (runs.of_underway underway)
    exact ⟨es', _, r, good, run', ended, rfl⟩

/-- **A poisoned lock** is not taken again: no operation ends, and the value stays. -/
theorem poisoned (run : Run o (.new s₀ i) es c) (isPoisoned : c.poisoned = true)
    {es' : List (Event ι α ρ)} (later : Run o c es' c') :
    c'.poisoned = true ∧ c'.value = c.value ∧ sections es' = [] := by
  have unheld : ∀ {es c}, Run o (.new s₀ i) es c → c.poisoned = true → ∀ j op k,
      c.phase j ≠ .inside op k := fun run isPoisoned j op k isInside => by
    obtain ⟨-, sound, -⟩ := run.explained.underway isInside
    cases sound.symm.trans isPoisoned
  induction later with
  | start => exact ⟨isPoisoned, rfl, rfl⟩
  | @step es' c₁ c' e before next inductionHypothesis =>
      obtain ⟨poisoned₁, value₁, none⟩ := inductionHypothesis
      have nobody := unheld (run.append before) poisoned₁
      rw [sections_append, none, List.nil_append]
      cases next with
      | entered _ _ sound => cases sound.symm.trans poisoned₁
      | worked isInside => exact absurd isInside (nobody _ _ _)
      | returned isInside => exact absurd isInside (nobody _ _ _)
      | panicked isInside => exact absurd isInside (nobody _ _ _)
      | _ => exact ⟨poisoned₁, value₁, rfl⟩

/-- **Taking the value out**: nobody is in a call, and what is taken is the value that all
the operations led to.  Nothing happens to it afterwards. -/
theorem unwrapped (run : Run o (.new s₀ i) es c) (next : Step o c (.unwrapped j) c') :
    Serial o s₀ (sections es) c.value ∧ (∀ k op, ¬ (c.phase k).Of op) ∧
      ∀ {es' c''}, Run o c' es' c'' → es' = [] ∧ c'' = c' := by
  cases next with
  | unwrapped has alone =>
      have phases : ∀ k, c.phase k = .idle ∨ c.phase k = .absent := fun k => by
        by_cases same : k = j
        · exact Or.inl (same ▸ has)
        · exact Or.inr (alone k same)
      have gone : ∀ k, (c.enter j .absent).phase k = .absent := fun k => by
        by_cases same : k = j
        · rw [same, Config.phase_enter_self]
        · rw [c.phase_enter_of_ne _ same, alone k same]
      refine ⟨run.explained.free ?_, fun k op inCall => ?_, fun later => ?_⟩
      · cases holds : c.holder with
        | none => rfl
        | some k =>
            obtain ⟨-, op, left, -, isInside, -⟩ := run.explained.held k holds
            rcases phases k with idle | absent
            · cases idle.symm.trans isInside
            · cases absent.symm.trans isInside
      · rcases phases k with idle | absent
        · rw [idle] at inCall
          exact inCall
        · rw [absent] at inCall
          exact inCall
      · induction later with
        | start => exact ⟨rfl, rfl⟩
        | step _ next inductionHypothesis =>
            obtain ⟨-, rfl⟩ := inductionHypothesis
            cases next with
            | cloned has => cases has.symm.trans (gone _)
            | called _ has => cases has.symm.trans (gone _)
            | entered waits => cases waits.symm.trans (gone _)
            | worked isInside => cases isInside.symm.trans (gone _)
            | returned isInside => cases isInside.symm.trans (gone _)
            | panicked isInside => cases isInside.symm.trans (gone _)
            | refused waits => cases waits.symm.trans (gone _)
            | dropped has =>
                rcases has with idle | retaining
                · cases idle.symm.trans (gone _)
                · cases retaining.symm.trans (gone _)
            | unwrapped has => cases has.symm.trans (gone _)
            | retained has => cases has.symm.trans (gone _)

end Run

end Steps

end Foundations
