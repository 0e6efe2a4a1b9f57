import KvEngine.Cli.Batch

/-!
# Which batch arguments are read completely

The arguments of the batch command are the words of its operations.  The loop asks for three
more arguments, whatever the next operation is, and leaves one or two of them unread: a last
`delete`, but also the start of an operation that is not complete.
-/

namespace KvEngine

open Foundations

/-- An operation as it is typed. -/
inductive TypedOp
  | put (key value : String)
  | delete (key : String)
  deriving DecidableEq, Repr

namespace TypedOp

/-- The words of an operation. -/
def words : TypedOp → List String
  | .put key value => ["put", key, value]
  | .delete key => ["delete", key]

/-- The operation it stands for. -/
def toOp : TypedOp → BatchOp
  | .put key value => .put (asBytes key) (asBytes value)
  | .delete key => .delete (asBytes key)

/-- The arguments of a list of operations. -/
def render (ops : List TypedOp) : List String := ops.flatMap words

/-- The batch with exactly these operations. -/
def batchOf (ops : List TypedOp) : WriteBatch := ⟨ops.map toOp⟩

end TypedOp

open TypedOp

/-- The arguments behind the command are parsed completely, or rejected. -/
def ParsedOrRejected (args : List String) : Prop :=
  (∀ ops, args.drop 3 = render ops → batchCommand args = .ok (batchOf ops)) ∧
    ((∀ ops, args.drop 3 ≠ render ops) →
      ∃ message, batchCommand args = .error (.exit 1 message))

/-- The words are operations of which the last one, if there is one, is a `put`; or the first
word that starts no operation has two more behind it. -/
def LoopReadsAll (rest : List String) : Prop :=
  (∃ ops, rest = render ops ∧ ∀ key, ops.getLast? ≠ some (.delete key)) ∨
    ∃ ops word first second later, rest = render ops ++ word :: first :: second :: later ∧
      word ≠ "put" ∧ word ≠ "delete"

/-! ## The words of operations -/

variable {ops : List TypedOp} {rest : List String}

theorem render_cons (op : TypedOp) (ops : List TypedOp) :
    render (op :: ops) = op.words ++ render ops := rfl

/-- Operations are told apart by their words. -/
theorem words_append_inj {op op' : TypedOp} {rest' : List String}
    (same : op.words ++ rest = op'.words ++ rest') : op = op' ∧ rest = rest' := by
  cases op with
  | put key value =>
      cases op' with
      | put key' value' =>
          cases same
          exact ⟨rfl, rfl⟩
      | delete key' => exact absurd (List.cons.inj same).1 (by decide)
  | delete key =>
      cases op' with
      | put key' value' => exact absurd (List.cons.inj same).1 (by decide)
      | delete key' =>
          cases same
          exact ⟨rfl, rfl⟩

/-- Behind some operations the words of operations go on with operations. -/
theorem eq_render_of_append {ops' : List TypedOp} (same : render ops ++ rest = render ops') :
    ∃ later, ops' = ops ++ later ∧ rest = render later := by
  induction ops generalizing ops' with
  | nil => exact ⟨ops', rfl, same⟩
  | cons op ops inductionHypothesis =>
      cases ops' with
      | nil => cases op <;> cases same
      | cons op' ops' =>
          rw [render_cons, render_cons, List.append_assoc] at same
          obtain ⟨rfl, behind⟩ := words_append_inj same
          obtain ⟨later, rfl, tail⟩ := inductionHypothesis behind
          exact ⟨later, rfl, tail⟩

theorem render_injective {ops' : List TypedOp} (same : render ops = render ops') : ops = ops' := by
  rw [← List.append_nil (render ops)] at same
  obtain ⟨later, rfl, rest⟩ := eq_render_of_append same
  cases later with
  | nil => exact (List.append_nil ops).symm
  | cons op later => cases op <;> cases rest

/-- The words of operations start with one of the two words. -/
theorem head_of_render {word : String} (same : word :: rest = render ops) :
    word = "put" ∨ word = "delete" := by
  cases ops with
  | nil => cases same
  | cons op ops =>
      cases op with
      | put key value => exact Or.inl (List.cons.inj same).1
      | delete key => exact Or.inr (List.cons.inj same).1

/-! ## What the loop does -/

/-- The loop reads operations as long as an argument is left behind them, or the last one is a
`put`. -/
theorem parseOps_render (batch : WriteBatch)
    (readable : rest ≠ [] ∨ ∀ key, ops.getLast? ≠ some (.delete key)) :
    parseOps (render ops ++ rest) batch = parseOps rest ⟨batch.ops ++ ops.map toOp⟩ := by
  induction ops generalizing batch with
  | nil => rw [List.map_nil, List.append_nil]; rfl
  | cons op ops inductionHypothesis =>
      have readable' : rest ≠ [] ∨ ∀ key, ops.getLast? ≠ some (.delete key) := by
        refine readable.imp_right fun last key found => last key ?_
        rw [List.getLast?_cons, found]
        rfl
      rw [render_cons, List.append_assoc]
      cases op with
      | put key value =>
          show parseOps (render ops ++ rest) (batch.put _ _) = _
          rw [inductionHypothesis _ readable', WriteBatch.put, List.append_assoc]
          rfl
      | delete key =>
          -- the loop looks one argument further than a `delete` reaches
          cases behind : render ops ++ rest with
          | nil =>
              obtain ⟨noWords, noRest⟩ := List.append_eq_nil_iff.mp behind
              have noOps : render ops = render [] := noWords
              cases render_injective noOps
              exact absurd rfl (readable.resolve_left (fun h => h noRest) key)
          | cons next later =>
              show parseOps (next :: later) (batch.delete _) = _
              rw [← behind, inductionHypothesis _ readable', WriteBatch.delete, List.append_assoc]
              rfl

/-- How the words of some arguments split: all of them are operations the loop reads, or the
loop leaves one or two of them, or it meets a word that starts no operation. -/
inductive Split (rest : List String) : Prop
  | complete (ops : List TypedOp) (whole : rest = render ops)
      (last : ∀ key, ops.getLast? ≠ some (.delete key))
  | unread (ops : List TypedOp) (tail : List String) (whole : rest = render ops ++ tail)
      (some : tail ≠ []) (short : tail.length ≤ 2)
  | rejected (ops : List TypedOp) (word first second : String) (later : List String)
      (whole : rest = render ops ++ word :: first :: second :: later)
      (notPut : word ≠ "put") (notDelete : word ≠ "delete")

/-- An operation in front does not change how the words behind it split. -/
theorem Split.cons (split : Split rest) (op : TypedOp)
    (behind : rest ≠ [] ∨ ∀ key, op ≠ .delete key) : Split (op.words ++ rest) := by
  cases split with
  | complete ops whole last =>
      refine .complete (op :: ops) (by rw [whole, render_cons]) fun key found => ?_
      rw [List.getLast?_cons] at found
      cases before : ops.getLast? with
      | none =>
          rw [before] at found
          rw [List.getLast?_eq_none_iff.mp before] at whole
          exact behind.elim (fun more => more whole) fun other => other key (Option.some.inj found)
      | some other =>
          rw [before] at found
          exact last key (before.trans found)
  | unread ops tail whole some short =>
      exact .unread (op :: ops) tail (by rw [whole, render_cons, List.append_assoc]) some short
  | rejected ops word first second later whole notPut notDelete =>
      exact .rejected (op :: ops) word first second later
        (by rw [whole, render_cons, List.append_assoc]) notPut notDelete

/-- The words of every argument list split in one of the three ways. -/
theorem split_words (rest : List String) (batch : WriteBatch) : Split rest := by
  fun_induction parseOps rest batch with
  | case1 key value rest batch inductionHypothesis =>
      exact inductionHypothesis.cons (.put key value) (Or.inr fun _ same => nomatch same)
  | case2 key second rest batch _ inductionHypothesis =>
      exact inductionHypothesis.cons (.delete key) (Or.inl (List.cons_ne_nil second rest))
  | case3 word first second rest batch notPut notDelete =>
      exact .rejected [] word first second rest rfl notPut notDelete
  | case4 first second batch =>
      exact .unread [] [first, second] rfl (List.cons_ne_nil _ _) (Nat.le_refl _)
  | case5 first batch => exact .unread [] [first] rfl (List.cons_ne_nil _ _) (Nat.le_succ 1)
  | case6 batch => exact .complete [] rfl fun key found => nomatch found

theorem batchCommand_render {args : List String} {ops : List TypedOp} {tail : List String}
    (whole : args.drop 3 = render ops ++ tail)
    (readable : tail ≠ [] ∨ ∀ key, ops.getLast? ≠ some (.delete key)) :
    batchCommand args = parseOps tail (batchOf ops) := by
  rw [batchCommand_eq_parseOps, whole, parseOps_render _ readable]
  rfl

/-- **Batch arguments** are parsed completely or rejected if and only if the loop stops at the
end of a `put`, or at a word that starts no operation and has two more behind it. -/
theorem parsed_or_rejected_iff (args : List String) :
    ParsedOrRejected args ↔ LoopReadsAll (args.drop 3) := by
  constructor
  · rintro ⟨parsed, rejected⟩
    cases split_words (args.drop 3) WriteBatch.new with
    | complete ops whole last => exact Or.inl ⟨ops, whole, last⟩
    | rejected ops word first second later whole notPut notDelete =>
        exact Or.inr ⟨ops, word, first, second, later, whole, notPut, notDelete⟩
    | unread ops tail whole some short =>
        -- the loop returns a batch without the words of `tail`
        have ran : batchCommand args = .ok (batchOf ops) :=
          (batchCommand_render whole (Or.inl some)).trans (parseOps_of_length_le short _)
        exfalso
        by_cases rendering : ∃ ops', args.drop 3 = render ops'
        · obtain ⟨ops', same⟩ := rendering
          have batch := parsed ops' same
          rw [ran] at batch
          obtain ⟨later, rfl, rfl⟩ := eq_render_of_append (whole.symm.trans same)
          have length := congrArg (fun b => b.ops.length) (Except.ok.inj batch)
          simp only [batchOf, List.length_map, List.length_append] at length
          have nothing : later = [] := List.length_eq_zero_iff.mp (by omega)
          exact some (by rw [nothing]; rfl)
        · obtain ⟨message, stopped⟩ := rejected fun ops' same => rendering ⟨ops', same⟩
          rw [ran] at stopped
          cases stopped
  · rintro (⟨ops, whole, last⟩ | ⟨ops, word, first, second, later, whole, notPut, notDelete⟩)
    · refine ⟨fun ops' same => ?_, fun none => absurd whole (none ops)⟩
      cases render_injective (whole.symm.trans same)
      rw [← List.append_nil (render ops)] at whole
      exact batchCommand_render whole (Or.inr last)
    · refine ⟨fun ops' same => ?_, fun _ => ⟨"Unknown batch op: " ++ word, ?_⟩⟩
      · obtain ⟨later', rfl, rest⟩ := eq_render_of_append (whole.symm.trans same)
        exact absurd (head_of_render rest) (fun h => h.elim notPut notDelete)
      · rw [batchCommand_render whole (Or.inl (List.cons_ne_nil _ _)), parseOps, if_neg notPut,
          if_neg notDelete]

/-- A last `delete` is dropped. -/
theorem not_alwaysParsedOrRejected : ¬∀ args, ParsedOrRejected args := by
  intro all
  have batch := (all ["kv-cli", "./mydb", "batch", "put", "k1", "v1", "delete", "k3"]).1
    [.put "k1" "v1", .delete "k3"] rfl
  exact absurd batch (by decide)

end KvEngine
