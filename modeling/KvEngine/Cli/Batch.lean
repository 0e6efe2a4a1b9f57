import KvEngine.WriteBatch

/-!
# The batch command of the command line

`kv-cli <db-path> batch put k1 v1 delete k2 ...` builds a write batch from its arguments.
The words are `String`s, and keys and values are their UTF-8 bytes.
-/

namespace KvEngine

open Foundations

/-- How the command ends without a batch. -/
inductive CliStop
  /-- `process::exit(code)`, with what was printed before. -/
  | exit (code : Nat) (stderr : String)
  | panic
  /-- The fuel of the loop ran out: the source would not have left it. -/
  | outOfFuel
  deriving DecidableEq, Repr

/-- `s.as_bytes().to_vec()` -/
def asBytes (s : String) : Bytes := s.toUTF8.data.toList

/-- `args[i]` -/
def argAt (args : List String) (i : Nat) : Except CliStop String :=
  match args[i]? with
  | some arg => .ok arg
  | none => .error .panic

/-- The loop of the batch command, from argument `i` on. -/
def batchLoop (args : List String) : Nat → Nat → WriteBatch → Except CliStop WriteBatch
  | 0, _, _ => .error .outOfFuel
  | fuel + 1, i, batch =>
      if i + 2 < args.length then do
        let op ← argAt args i
        if op = "put" then do
          let key ← argAt args (i + 1)
          let value ← argAt args (i + 2)
          batchLoop args fuel (i + 3) (batch.put (asBytes key) (asBytes value))
        else if op = "delete" then do
          let key ← argAt args (i + 1)
          batchLoop args fuel (i + 2) (batch.delete (asBytes key))
        else .error (.exit 1 ("Unknown batch op: " ++ op))
      else .ok batch

/-- The batch that the command builds; its first operation is argument 3. -/
def batchCommand (args : List String) : Except CliStop WriteBatch :=
  batchLoop args (args.length + 1) 3 WriteBatch.new

/-- The loop on the arguments that are left. -/
def parseOps : List String → WriteBatch → Except CliStop WriteBatch
  | op :: first :: second :: rest, batch =>
      if op = "put" then parseOps rest (batch.put (asBytes first) (asBytes second))
      else if op = "delete" then parseOps (second :: rest) (batch.delete (asBytes first))
      else .error (.exit 1 ("Unknown batch op: " ++ op))
  | [_, _], batch => .ok batch
  | [_], batch => .ok batch
  | [], batch => .ok batch

/-- Too few arguments end the loop. -/
theorem parseOps_of_length_le {rest : List String} (short : rest.length ≤ 2) (batch : WriteBatch) :
    parseOps rest batch = .ok batch := by
  match rest, short with
  | [], _ => rfl
  | [_], _ => rfl
  | [_, _], _ => rfl
  | _ :: _ :: _ :: _, short => exact absurd short (by simp)

theorem argAt_of_drop {args rest : List String} {i : Nat} {arg : String}
    (drop : args.drop i = arg :: rest) : argAt args i = .ok arg ∧ args.drop (i + 1) = rest := by
  have found : args[i]? = some arg := by
    rw [← Nat.add_zero i, ← List.getElem?_drop, drop]
    rfl
  refine ⟨?_, ?_⟩
  · rw [argAt, found]
  · rw [← List.drop_drop, drop]
    rfl

/-- **The loop** leaves the arguments it has read behind: it does not panic, and enough fuel
gives its result. -/
theorem batchLoop_eq_parseOps (args : List String) (fuel i : Nat) (batch : WriteBatch)
    (enough : args.length - i < fuel) :
    batchLoop args fuel i batch = parseOps (args.drop i) batch := by
  induction fuel generalizing i batch with
  | zero => exact absurd enough (Nat.not_lt_zero _)
  | succ fuel inductionHypothesis =>
      unfold batchLoop
      split
      case isTrue more =>
        have length : 2 < (args.drop i).length := by
          rw [List.length_drop]
          omega
        match whole : args.drop i, length with
        | op :: first :: second :: rest, _ =>
            obtain ⟨readOp, drop₁⟩ := argAt_of_drop whole
            obtain ⟨readFirst, drop₂⟩ := argAt_of_drop drop₁
            obtain ⟨readSecond, drop₃⟩ := argAt_of_drop drop₂
            have three := inductionHypothesis (i + 3)
              (batch.put (asBytes first) (asBytes second)) (by omega)
            have two := inductionHypothesis (i + 2) (batch.delete (asBytes first)) (by omega)
            rw [drop₃] at three
            rw [drop₂] at two
            rw [readOp, readFirst, readSecond]
            show (if op = "put" then batchLoop args fuel (i + 3) _
              else if op = "delete" then batchLoop args fuel (i + 2) _ else _) = _
            rw [three, two]
            rfl
      case isFalse ended =>
        refine (parseOps_of_length_le ?_ batch).symm
        rw [List.length_drop]
        omega

theorem batchCommand_eq_parseOps (args : List String) :
    batchCommand args = parseOps (args.drop 3) WriteBatch.new :=
  batchLoop_eq_parseOps args (args.length + 1) 3 WriteBatch.new (by omega)

end KvEngine
