import KvEngine.Foundations.Bytes
import KvEngine.Foundations.Outcome

/-!
# Errors

`KvError` is the error type of the engine.  A Rust call can also panic (an index
out of bounds, an `unwrap` of `None`, an arithmetic overflow under overflow
checks), and a modelled loop can run out of fuel; `Failure` keeps the three
apart.
-/

namespace KvEngine

open Foundations

/-- The kinds of I/O error the code tells apart. -/
inductive IoErrorKind
  | notFound
  | other
  deriving DecidableEq, Repr

/-- Unified error type for the key-value storage engine. -/
inductive KvError
  /-- I/O error from the underlying filesystem. -/
  | io (kind : IoErrorKind)
  /-- Data corruption detected (e.g. CRC mismatch, truncated record). -/
  | corruption (msg : String)
  /-- The requested key was not found. -/
  | keyNotFound (key : Bytes)
  /-- An invalid argument was passed to an API call. -/
  | invalidArgument (msg : String)
  /-- The database has been closed and is no longer accepting operations. -/
  | closed
  /-- A WAL record's CRC32 does not match the stored checksum. -/
  | checksumMismatch (expected actual : UInt32)
  /-- An operation was attempted that violates internal invariants. -/
  | internal (msg : String)
  deriving DecidableEq, Repr

/-- How a call ends when it does not return `Ok`. -/
inductive Failure
  /-- It returned `Err(e)`. -/
  | err (e : KvError)
  /-- It panicked. -/
  | panic
  /-- The fuel of a loop ran out: the source would not have returned. -/
  | outOfFuel
  deriving DecidableEq, Repr

/-- The result of a call that touches no state. -/
abbrev Result (α : Type) := Except Failure α

@[simp] theorem Result.ok_bind {α β : Type} (a : α) (f : α → Result β) :
    ((Except.ok a : Result α) >>= f) = f a := rfl

@[simp] theorem Result.error_bind {α β : Type} (e : Failure) (f : α → Result β) :
    ((Except.error e : Result α) >>= f) = .error e := rfl

theorem Result.bind_eq_ok {α β : Type} {x : Result α} {f : α → Result β} {b : β} :
    (x >>= f) = .ok b ↔ ∃ a, x = .ok a ∧ f a = .ok b := by
  cases x with
  | ok a => simp
  | error e => simp

/-- `Err(KvError::Corruption(msg))`. -/
def corruption {α : Type} (msg : String) : Result α := .error (.err (.corruption msg))

/-- The value of an index or an `unwrap` that panics on `None`. -/
def orPanic {α : Type} : Option α → Result α
  | some a => .ok a
  | none => .error .panic

@[simp] theorem orPanic_some {α : Type} (a : α) : orPanic (some a) = .ok a := rfl

@[simp] theorem orPanic_eq_ok {α : Type} {o : Option α} {a : α} :
    orPanic o = .ok a ↔ o = some a := by
  cases o <;> simp [orPanic]

/-- Unsigned addition that panics on overflow. -/
def checkedAdd (limit a b : Nat) : Result Nat :=
  if a + b < limit then .ok (a + b) else .error .panic

/-- Unsigned multiplication that panics on overflow. -/
def checkedMul (limit a b : Nat) : Result Nat :=
  if a * b < limit then .ok (a * b) else .error .panic

@[simp] theorem checkedAdd_eq_ok {limit a b c : Nat} :
    checkedAdd limit a b = .ok c ↔ a + b < limit ∧ c = a + b := by
  unfold checkedAdd
  split <;> simp_all [eq_comm]

@[simp] theorem checkedMul_eq_ok {limit a b c : Nat} :
    checkedMul limit a b = .ok c ↔ a * b < limit ∧ c = a * b := by
  unfold checkedMul
  split <;> simp_all [eq_comm]

/-- The result is not an `Err`: it is a value, or the call panicked. -/
def Result.NotErr {α : Type} (r : Result α) : Prop := ∀ e, r ≠ .error (.err e)

namespace Result.NotErr

variable {α β : Type}

theorem ok (a : α) : NotErr (.ok a : Result α) := by
  intro e
  simp

theorem orPanic (o : Option α) : NotErr (orPanic o) := by
  intro e
  cases o <;> simp [KvEngine.orPanic]

theorem checkedAdd (limit a b : Nat) : NotErr (checkedAdd limit a b) := by
  intro e
  unfold KvEngine.checkedAdd
  split <;> simp

theorem checkedMul (limit a b : Nat) : NotErr (checkedMul limit a b) := by
  intro e
  unfold KvEngine.checkedMul
  split <;> simp

theorem bind {r : Result α} {f : α → Result β} (first : NotErr r) (rest : ∀ a, NotErr (f a)) :
    NotErr (r >>= f) := by
  intro e
  cases r with
  | ok a => exact rest a e
  | error e' =>
      intro failed
      cases failed
      exact first e rfl

end Result.NotErr

/-- The call returns: a value that satisfies `P`, or an error that satisfies `E`. -/
def Result.Meets {α : Type} (P : α → Prop) (E : KvError → Prop) : Result α → Prop
  | .ok a => P a
  | .error (.err e) => E e
  | .error _ => False

namespace Result.Meets

variable {α β : Type} {P : α → Prop} {E : KvError → Prop}

theorem of_ok {r : Result α} {a : α} (meets : Meets P E r) (returned : r = .ok a) : P a := by
  subst returned
  exact meets

theorem of_error {r : Result α} {e : Failure} (meets : Meets P E r) (failed : r = .error e) :
    ∃ e', e = .err e' ∧ E e' := by
  subst failed
  cases e with
  | err e' => exact ⟨e', rfl, meets⟩
  | panic => exact meets.elim
  | outOfFuel => exact meets.elim

theorem bind {Q : β → Prop} {r : Result α} {f : α → Result β} (first : Meets P E r)
    (rest : ∀ a, P a → Meets Q E (f a)) : Meets Q E (r >>= f) := by
  cases r with
  | ok a => exact rest a first
  | error e =>
      obtain ⟨e', rfl, known⟩ := first.of_error rfl
      exact known

theorem ite {c : Prop} [Decidable c] {x y : Result α} (whenTrue : c → Meets P E x)
    (whenFalse : ¬ c → Meets P E y) : Meets P E (if c then x else y) := by
  split
  · next true => exact whenTrue true
  · next false => exact whenFalse false

end Result.Meets

/-- The call returns a value or an error: it does not panic, and its loops end. -/
def Result.Returns {α : Type} (r : Result α) : Prop :=
  Result.Meets (fun _ => True) (fun _ => True) r

theorem Result.Meets.returns {α : Type} {P : α → Prop} {E : KvError → Prop} {r : Result α}
    (meets : Meets P E r) : r.Returns := by
  cases r with
  | ok a => trivial
  | error e =>
      obtain ⟨e', rfl, -⟩ := meets.of_error rfl
      trivial

theorem Result.returns_ok {α : Type} (a : α) : Returns (.ok a : Result α) := trivial

/-- A sequence returns if its first part does, and the rest on what it returned. -/
theorem Result.returns_bind {α β : Type} {r : Result α} {f : α → Result β} :
    Returns (r >>= f) ↔ Returns r ∧ ∀ a, r = .ok a → Returns (f a) := by
  cases r with
  | ok a =>
      rw [ok_bind]
      constructor
      · rintro later
        refine ⟨trivial, ?_⟩
        rintro b ⟨⟩
        exact later
      · exact fun both => both.2 a rfl
  | error e =>
      have same : Returns (.error e : Result β) ↔ Returns (.error e : Result α) := by
        cases e <;> rfl
      rw [error_bind, same]
      refine ⟨fun first => ⟨first, ?_⟩, fun both => both.1⟩
      rintro a ⟨⟩

/-- The error reports corrupted data. -/
def KvError.IsCorruption (e : KvError) : Prop := ∃ msg, e = .corruption msg

theorem Result.meets_corruption {α : Type} {P : α → Prop} (msg : String) :
    Result.Meets P KvError.IsCorruption (KvEngine.corruption msg : Result α) := ⟨msg, rfl⟩

/-- The range of `u32`. -/
abbrev u32Limit : Nat := 2 ^ 32

/-- A number that fits survives the cast. -/
theorem mod_u32Limit {n : Nat} (fits : n < 2 ^ 32) : n % u32Limit = n := Nat.mod_eq_of_lt fits

/-- The range of `u64`, and of `usize` on a 64-bit target. -/
abbrev u64Limit : Nat := 2 ^ 64

end KvEngine
