import OpenDocument.Bytes

/-!
# OpenDocument.Zip.Crc32

The 32-bit cyclic redundancy check of archives, computed bit by bit.
-/

namespace OpenDocument.Zip

/-- The register after one more bit. -/
@[inline] def crcBit (c : UInt32) : UInt32 :=
  (c >>> 1) ^^^ ((c &&& 1) * 0xEDB88320)

/-- The register after one more byte. -/
def crcByte (c : UInt32) (b : UInt8) : UInt32 :=
  crcBit (crcBit (crcBit (crcBit (crcBit (crcBit (crcBit (crcBit (c ^^^ b.toUInt32))))))))

/-- The checksum of a byte string, in a register that `crcByte` feeds. -/
def crc32 (bs : Bytes) : UInt32 :=
  bs.foldl crcByte 0xFFFFFFFF ^^^ 0xFFFFFFFF

end OpenDocument.Zip
