import KvEngine.Slice

/-!
# WAL records

The on-disk form of a record (all integers little-endian):

```text
[len: u32] [crc32: u32] [op_type: u8] [key_len: u32] [key] [value_len: u32] [value]
```

`len` counts the bytes after itself and `crc32` covers everything after the
checksum.  The checksum function is a parameter.
-/

namespace KvEngine

open Foundations

/-- Operation type stored in each WAL record. -/
inductive OpType
  | put
  | delete
  deriving DecidableEq, Repr

/-- `op as u8` -/
def OpType.toU8 : OpType → UInt8
  | .put => 0x01
  | .delete => 0x02

/-- Read an operation type back. -/
def OpType.fromU8 (v : UInt8) : Result OpType :=
  if v = 0x01 then .ok .put
  else if v = 0x02 then .ok .delete
  else corruption s!"unknown op type: {v.toNat}"

/-- A single key-value record stored in the WAL. -/
structure Record where
  op : OpType
  key : Bytes
  value : Bytes
  deriving DecidableEq, Repr

namespace Record

/-- The bytes that the CRC checksum covers. -/
def crcPayload (r : Record) : Bytes :=
  r.op.toU8 :: (leBytes 4 r.key.length ++ r.key ++ leBytes 4 r.value.length ++ r.value)

/-- Serialize this record into the on-disk format. -/
def encode (crc : Bytes → UInt32) (r : Record) : Bytes :=
  let payload := r.crcPayload
  leBytes 4 (4 + payload.length) ++ leBytes 4 (crc payload).toNat ++ payload

/-- Decode a record from the byte buffer that follows the `len` prefix. -/
def decode (crc : Bytes → UInt32) (buf : Bytes) : Result Record :=
  if buf.length < 13 then
    corruption s!"WAL record too short: need at least 13 bytes, got {buf.length}"
  else do
    let storedCrc ← u32At buf 0
    let actualCrc := crc (buf.drop 4)
    if storedCrc ≠ actualCrc.toNat then
      .error (.err (.checksumMismatch (UInt32.ofNat storedCrc) actualCrc))
    else do
      let op ← OpType.fromU8 (← byteAt buf 4)
      let keyLen ← u32At buf 5
      let keyStart := 9
      let keyEnd := keyStart + keyLen
      if buf.length < keyEnd + 4 then corruption "WAL record truncated in key"
      else do
        let key ← slice buf keyStart keyEnd
        let valLen ← u32At buf keyEnd
        let valStart := keyEnd + 4
        let valEnd := valStart + valLen
        if buf.length < valEnd then corruption "WAL record truncated in value"
        else do
          let value ← slice buf valStart valEnd
          .ok { op, key, value }

end Record

end KvEngine
