import KvEngine.System
import KvEngine.Wal.Record

/-!
# WAL writer and reader

`WALWriter` appends records to a log file through a `BufWriter`; `WALReader`
yields the records of a log file until it meets an incomplete one.
-/

namespace KvEngine

open Foundations

/-- Append-only WAL writer backed by a `BufWriter<File>`. -/
structure WALWriter where
  file : BufWriter
  deriving DecidableEq, Repr

namespace WALWriter

/-- A method of the writer. -/
abbrev M := EStateM Failure (WALWriter × Sys)

/-- Run a method of the buffered file. -/
def onFile {α : Type} (x : BufWriter.M α) : M α :=
  zoom (fun p => (p.1.file, p.2)) (fun q _ => (⟨q.1⟩, q.2)) x

/-- Open (or create) a WAL file so that appends extend the log. -/
def openWal (path : FileName) : SysM WALWriter := do
  openAppend path
  pure ⟨⟨path, []⟩⟩

/-- Append a record with an explicit operation type. -/
def appendRecord (record : Record) : M Unit := do
  let (_, s) ← get
  onFile (BufWriter.writeAll (record.encode s.env.crc))

/-- Append a key-value record. -/
def append (key value : Bytes) : M Unit :=
  appendRecord { op := .put, key, value }

/-- Flush the buffer and issue `fsync`. -/
def flush : M Unit := do
  onFile BufWriter.flushBuf
  zoom Prod.snd (fun s p => (p.1, s)) syncFile

/-- Dropping the writer writes out its buffer. -/
def drop (w : WALWriter) (s : Sys) : Sys := w.file.drop s

end WALWriter

namespace WALReader

/-- One step of the iterator on the bytes not read yet: the item, if there is
one, and what is left. -/
def next (crc : Bytes → UInt32) (rest : Bytes) : Option (Result Record × Bytes) :=
  if rest.length < 4 then none
  else
    let recordLen := leValue (rest.take 4)
    let rest := rest.drop 4
    if rest.length < recordLen then none
    else some (Record.decode crc (rest.take recordLen), rest.drop recordLen)

/-- The items of the iterator; each consumes at least four bytes, so the length
of the log is enough fuel. -/
def itemsFrom (crc : Bytes → UInt32) : Nat → Bytes → List (Result Record)
  | 0, _ => []
  | fuel + 1, rest =>
      match next crc rest with
      | none => []
      | some (item, rest') => item :: itemsFrom crc fuel rest'

/-- The items a `for` loop over the reader sees. -/
def items (crc : Bytes → UInt32) (data : Bytes) : List (Result Record) :=
  itemsFrom crc data.length data

/-- Take the records out of the items until the first error. -/
def collect : List (Result Record) → Result (List Record)
  | [] => .ok []
  | .ok r :: rest => do
      let later ← collect rest
      .ok (r :: later)
  | .error e :: _ => .error e

end WALReader

end KvEngine
