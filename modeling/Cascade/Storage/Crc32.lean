import Mathlib.Logic.Function.Iterate

/-!
# CRC-32

The table-driven IEEE 802.3 checksum of `storage/crc32.hpp`.
-/

namespace Storage

/-- One bit of the division that fills the table. -/
def crc32Bit (c : UInt32) : UInt32 :=
  if c &&& 1 = 1 then (0xEDB88320 : UInt32) ^^^ (c >>> 1) else c >>> 1

/-- The table: entry `i` is `i` divided for eight bits. -/
def makeCrc32Table : List UInt32 :=
  (List.range 256).map (fun i => crc32Bit^[8] (UInt32.ofNat i))

/-- Feed one byte to the running checksum. -/
def crc32Byte (c : UInt32) (b : UInt8) : UInt32 :=
  makeCrc32Table.getD ((c ^^^ b.toUInt32) &&& (0xFF : UInt32)).toNat 0 ^^^ (c >>> 8)

/-- The checksum of a byte string. -/
def crc32 (data : List UInt8) : UInt32 :=
  data.foldl crc32Byte (0xFFFFFFFF : UInt32) ^^^ (0xFFFFFFFF : UInt32)

end Storage
