import PagePool.Bytes

namespace PagePool.Checksum

/-- The CRC-32 polynomial with its bits reversed. -/
def polynomial : UInt32 := 0xEDB88320

/-- Divides by the polynomial, one bit at a time from the low end. -/
def shift (c : UInt32) : UInt32 :=
  if c &&& 1 = 1 then (c >>> 1) ^^^ polynomial else c >>> 1

def step (c : UInt32) (b : UInt8) : UInt32 :=
  shift (shift (shift (shift (shift (shift (shift (shift (c ^^^ b.toUInt32))))))))

def crc32 (bs : Bytes) : UInt32 := (bs.foldl step 0xFFFFFFFF) ^^^ 0xFFFFFFFF

end PagePool.Checksum
