import KvEngine.Engine.State

/-!
# Stored values

A stored value is an 8-byte sequence number followed by the inner value.  The
inner value is the tombstone marker, a TTL-encoded value
`[0x01] [expiry: u64] [value]`, or a plain value.
-/

namespace KvEngine

open Foundations

/-- Encode a value with a sequence number prefix. -/
def encodeWithSeq (value : Bytes) (seq : Nat) : Bytes := leBytes 8 seq ++ value

/-- Decode a seq-encoded value; a value without room for the prefix is taken as
it is, with sequence number 0. -/
def decodeWithSeq (v : Bytes) : Option (Bytes × Nat) :=
  if v.length ≥ 8 then some (v.drop 8, leValue (v.take 8)) else some (v, 0)

/-- Whether a value reads as TTL-encoded. -/
def isTtl (v : Bytes) : Bool := v.length ≥ 9 ∧ v.head? = some 0x01

/-- The expiry field of a TTL-encoded value. -/
def ttlExpiry (v : Bytes) : Nat := leValue ((v.drop 1).take 8)

/-- Unwrap a TTL-encoded value; `none` if expired.  Other values are returned as
they are, without a look at the clock. -/
def unwrapTtl (v : Bytes) : SysM (Option Bytes) :=
  if isTtl v then do
    let t ← now
    if t ≥ ttlExpiry v then pure none else pure (some (v.drop 9))
  else pure (some v)

/-- Unpack an inner value (after seq stripping): check tombstone and TTL. -/
def unpackInner (v : Bytes) : SysM (Option Bytes) :=
  if v = tombstone then pure none else unwrapTtl v

/-- Map a stored value (with seq prefix) to the user-visible result. -/
def unpackValue (v : Bytes) : SysM (Option Bytes) :=
  match decodeWithSeq v with
  | some (inner, _) => unpackInner inner
  | none => pure none

/-- The TTL encoding of a value. -/
def encodeTtl (expiry : Nat) (value : Bytes) : Bytes := 0x01 :: (leBytes 8 expiry ++ value)

/-- The test of `scan` and of compaction: neither a tombstone nor expired.
`undecodable` is the answer for a value without a sequence number. -/
def isVisible (undecodable : Bool) (v : Bytes) : SysM Bool :=
  match decodeWithSeq v with
  | some (inner, _) =>
      if inner = tombstone then pure false
      else do return (← unwrapTtl inner).isSome
  | none => pure undecodable

end KvEngine
