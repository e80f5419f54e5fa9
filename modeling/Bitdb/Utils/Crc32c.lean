import Bitdb.Utils.Coding

/-! The third-party `crc32c` library, taken as a parameter. The code calls
`crc32c::Crc32c` on a whole buffer and `crc32c::Extend` to continue a checksum. -/

set_option autoImplicit false

namespace Bitdb

/-- A checksum whose continuation agrees with the checksum of the joined buffer. -/
structure Crc32c where
  value : List Byte → UInt32
  extend : UInt32 → List Byte → UInt32
  extend_value : ∀ front back, extend (value front) back = value (front ++ back)

namespace Crc32c

/-- One bit of the reflected division by the Castagnoli polynomial. -/
def shiftBit (crc : UInt32) : UInt32 :=
  if crc &&& 1 = 1 then crc >>> 1 ^^^ 0x82F63B78 else crc >>> 1

def shiftByte (crc : UInt32) (byte : Byte) : UInt32 :=
  (List.range 8).foldl (fun crc _ => shiftBit crc) (crc ^^^ byte.toUInt32)

/-- The bit-serial checksum the library computes. -/
def castagnoli : Crc32c where
  value bytes := bytes.foldl shiftByte 0xFFFFFFFF ^^^ 0xFFFFFFFF
  extend crc bytes := bytes.foldl shiftByte (crc ^^^ 0xFFFFFFFF) ^^^ 0xFFFFFFFF
  extend_value front back := by
    rw [UInt32.xor_assoc, UInt32.xor_self, UInt32.xor_zero, List.foldl_append]

-- The check value of the CRC-32C parameters, over the digits one to nine.
example : castagnoli.value [0x31, 0x32, 0x33, 0x34, 0x35, 0x36, 0x37, 0x38, 0x39] =
    0xE3069283 := by decide +kernel

end Crc32c

end Bitdb
