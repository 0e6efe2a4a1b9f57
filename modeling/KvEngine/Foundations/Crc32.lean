import KvEngine.Foundations.Bytes

/-!
# CRC-32

The checksum with the reflected polynomial `0xEDB88320`, bit by bit.
-/

namespace Foundations

/-- One bit of the division. -/
def crcStep (c : UInt32) : UInt32 := if c &&& 1 = 1 then (c >>> 1) ^^^ 0xEDB88320 else c >>> 1

/-- The remainder after one more byte. -/
def crcByte (c : UInt32) (b : UInt8) : UInt32 := Nat.iterate crcStep 8 (c ^^^ b.toUInt32)

/-- The CRC-32 checksum of a byte string. -/
def crc32 (bytes : Bytes) : UInt32 := bytes.foldl crcByte 0xFFFFFFFF ^^^ 0xFFFFFFFF

/-- The check value of the algorithm: the checksum of `123456789`. -/
example : crc32 [0x31, 0x32, 0x33, 0x34, 0x35, 0x36, 0x37, 0x38, 0x39] = 0xCBF43926 := by
  decide +kernel

end Foundations
