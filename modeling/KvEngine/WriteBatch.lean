import KvEngine.Foundations.Bytes

/-!
# Write batches
-/

namespace KvEngine

open Foundations

/-- A single operation in a write batch. -/
inductive BatchOp
  | put (key value : Bytes)
  | delete (key : Bytes)
  deriving DecidableEq, Repr

/-- The key an operation is about. -/
def BatchOp.key : BatchOp → Bytes
  | .put key _ => key
  | .delete key => key

/-- A batch of put/delete operations. -/
structure WriteBatch where
  ops : List BatchOp
  deriving DecidableEq, Repr

namespace WriteBatch

/-- Create a new, empty batch. -/
def new : WriteBatch := ⟨[]⟩

/-- Add a put operation to the batch. -/
def put (b : WriteBatch) (key value : Bytes) : WriteBatch := ⟨b.ops ++ [.put key value]⟩

/-- Add a delete operation to the batch. -/
def delete (b : WriteBatch) (key : Bytes) : WriteBatch := ⟨b.ops ++ [.delete key]⟩

/-- Whether the batch is empty. -/
def isEmpty (b : WriteBatch) : Bool := b.ops.isEmpty

end WriteBatch

end KvEngine
