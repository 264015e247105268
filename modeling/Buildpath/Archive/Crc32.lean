/-!
# Cyclic redundancy checks

The checksum of archive members: the remainder of the bytes, low bit first, by the polynomial
`0xEDB88320`, with all bits inverted before and after.
-/

namespace Buildpath.Archive

/-- Shifts one bit out of a remainder. -/
def shiftRemainder (r : UInt32) : UInt32 :=
  if r &&& 1 = 1 then (r >>> 1) ^^^ 0xEDB88320 else r >>> 1

/-- Takes one byte into a remainder. -/
def addByte (r : UInt32) (b : UInt8) : UInt32 :=
  (List.range 8).foldl (fun r _ => shiftRemainder r) (r ^^^ b.toUInt32)

/-- The checksum of a list of bytes. -/
def crc32 (bytes : List UInt8) : UInt32 := (bytes.foldl addByte 0xFFFFFFFF) ^^^ 0xFFFFFFFF

end Buildpath.Archive
