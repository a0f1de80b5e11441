import OpenDocument.Zip.Basic
import OpenDocument.Zip.Extra

/-!
# OpenDocument.Zip.Record

The records of an archive: the local header in front of the bytes of an entry
(`Header.localBytes`), the header of the entry in the directory (`Header.directoryBytes`), and the
record at the end that points to the directory (`endBytes`). A number that has no room in its field
is written in 64 bits elsewhere: that of a header in an extra field (`Header.extraField`), that of
the record at the end in a long one (`longEndBytes`), to which a locator points. Archives are
written without other extra fields, comments, data descriptors and times.
-/

namespace OpenDocument.Zip

/-! ## Room -/

/-- The largest number in a field of 16 bits. -/
def maxShort : Nat := 65535

/-- The largest number in a field of 32 bits. It says that the true number is elsewhere. -/
def maxLong : Nat := 4294967295

/-- The largest number in a field of 64 bits. -/
def maxOffset : Nat := 18446744073709551615

/-- A number in 64 bits, if it has no room in 32. -/
def longNumber (n : Nat) : Bytes :=
  if n < maxLong then [] else Bytes.littleEndian 8 n

theorem length_longNumber (n : Nat) : (longNumber n).length = if n < maxLong then 0 else 8 := by
  unfold longNumber
  split
  · rfl
  · exact Bytes.length_littleEndian 8 n

/-! ## Headers -/

/-- What the two headers of an entry have in common; `localBytes` and `directoryBytes` write it. -/
structure Header where
  name : Bytes
  method : Method
  crc : UInt32
  compressedSize : Nat
  size : Nat
  deriving DecidableEq, Repr

namespace Header

/-- The version of the format that is needed to read an entry, in tenths. -/
def version (h : Header) : Nat :=
  match h.method with
  | .stored => 10
  | .deflated => 20

/-- The flag of names in UTF-8, set for a name that is not all ASCII. -/
def flags (h : Header) : Nat :=
  if h.name.all (· < 0x80) then 0 else 0x0800

/-- The fields that are known only when the content was written: checksum and sizes. -/
def measured (h : Header) : Bytes :=
  Bytes.littleEndian 4 h.crc.toNat ++ Bytes.littleEndian 4 h.compressedSize
    ++ Bytes.littleEndian 4 h.size

/-- The fields that both headers share, from the needed version to the length of the extra
field, which is `extraLength`. The time is midnight, the date the first day of the calendar. -/
def common (h : Header) (extraLength : Nat) : Bytes :=
  Bytes.littleEndian 2 h.version ++ Bytes.littleEndian 2 h.flags
    ++ Bytes.littleEndian 2 h.method.code
    ++ Bytes.littleEndian 2 0 ++ Bytes.littleEndian 2 0x0021
    ++ h.measured
    ++ Bytes.littleEndian 2 h.name.length ++ Bytes.littleEndian 2 extraLength

/-- The signature of a local header. -/
def localSignature : Nat := 0x04034B50

/-- The signature of a header in the directory. -/
def directorySignature : Nat := 0x02014B50

/-- The fields of the header in front of the bytes of the entry; the name follows. -/
def localFields (h : Header) : Bytes :=
  Bytes.littleEndian 4 localSignature ++ h.common 0

/-- The header in front of the bytes of the entry: `localFields` and the name. -/
def localBytes (h : Header) : Bytes :=
  h.localFields ++ h.name

/-- Where in a local header its measured fields are. -/
def measuredOffset : Nat := 14

/-- Sizes and offset, those of them that have no room in 32 bits. -/
def longNumbers (h : Header) (offset : Nat) : Bytes :=
  longNumber h.size ++ longNumber h.compressedSize ++ longNumber offset

/-- The extra field with the `longNumbers`, if there are any. -/
def extraField (h : Header) (offset : Nat) : Bytes :=
  let numbers := h.longNumbers offset
  if numbers.isEmpty then []
  else Bytes.littleEndian 2 Extra.longKind ++ Bytes.littleEndian 2 numbers.length ++ numbers

/-- The header in the directory, for an entry whose local header begins at `offset`. The entry is
a regular file that its owner may write and all may read. -/
def directoryBytes (h : Header) (offset : Nat) : Bytes :=
  Bytes.littleEndian 4 directorySignature ++ Bytes.littleEndian 2 (0x0300 + h.version)
    ++ h.common (h.extraField offset).length
    ++ Bytes.littleEndian 2 0 ++ Bytes.littleEndian 2 0 ++ Bytes.littleEndian 2 0
    ++ Bytes.littleEndian 4 0x81A40000 ++ Bytes.littleEndian 4 (min offset maxLong)
    ++ h.name ++ h.extraField offset

@[simp] theorem length_measured (h : Header) : h.measured.length = 12 := by
  simp [measured]

@[simp] theorem length_localFields (h : Header) : h.localFields.length = 30 := by
  simp [localFields, common]

theorem length_localBytes (h : Header) : h.localBytes.length = 30 + h.name.length := by
  simp [localBytes]

theorem length_longNumbers (h : Header) (offset : Nat) : (h.longNumbers offset).length
    = (if h.size < maxLong then 0 else 8) + (if h.compressedSize < maxLong then 0 else 8)
      + if offset < maxLong then 0 else 8 := by
  simp only [longNumbers, List.length_append, length_longNumber]

/-- An extra field is its kind, its length and three numbers at most. -/
theorem length_extraField_le (h : Header) (offset : Nat) : (h.extraField offset).length ≤ 28 := by
  have hnumbers : (h.longNumbers offset).length ≤ 24 := by
    rw [length_longNumbers]
    split <;> split <;> split <;> decide
  simp only [extraField]
  split
  · exact Nat.zero_le _
  · simp only [List.length_append, Bytes.length_littleEndian]
    omega

theorem length_directoryBytes (h : Header) (offset : Nat) : (h.directoryBytes offset).length
    = 46 + h.name.length + (h.extraField offset).length := by
  simp [directoryBytes, common]
  omega

end Header

/-! ## Records at the end -/

/-- The signature of the record at the end. -/
def endSignature : Nat := 0x06054B50

/-- The record at the end of an archive of `count` entries, whose directory has `size` bytes and
begins at `offset`. -/
def endBytes (count size offset : Nat) : Bytes :=
  Bytes.littleEndian 4 endSignature ++ Bytes.littleEndian 2 0 ++ Bytes.littleEndian 2 0
    ++ Bytes.littleEndian 2 count ++ Bytes.littleEndian 2 count
    ++ Bytes.littleEndian 4 size ++ Bytes.littleEndian 4 offset ++ Bytes.littleEndian 2 0

theorem length_endBytes (count size offset : Nat) : (endBytes count size offset).length = 22 := by
  simp [endBytes]

/-- The signature of a locator. -/
def locatorSignature : Nat := 0x07064B50

/-- Number of bytes of `locatorBytes`. -/
def locatorLength : Nat := 20

/-- The locator of a long record that begins at `offset`. -/
def locatorBytes (offset : Nat) : Bytes :=
  Bytes.littleEndian 4 locatorSignature ++ Bytes.littleEndian 4 0 ++ Bytes.littleEndian 8 offset
    ++ Bytes.littleEndian 4 1

theorem length_locatorBytes (offset : Nat) : (locatorBytes offset).length = locatorLength := by
  simp [locatorBytes, locatorLength]

/-- The signature of a long record at the end. -/
def longEndSignature : Nat := 0x06064B50

/-- The long record at the end of an archive of `count` entries, whose directory has `size` bytes
and begins at `offset`. To read them, `version` of the format is needed. -/
def longEndBytes (version count size offset : Nat) : Bytes :=
  Bytes.littleEndian 4 longEndSignature ++ Bytes.littleEndian 8 44
    ++ Bytes.littleEndian 2 version ++ Bytes.littleEndian 2 version
    ++ Bytes.littleEndian 4 0 ++ Bytes.littleEndian 4 0
    ++ Bytes.littleEndian 8 count ++ Bytes.littleEndian 8 count
    ++ Bytes.littleEndian 8 size ++ Bytes.littleEndian 8 offset

theorem length_longEndBytes (version count size offset : Nat) :
    (longEndBytes version count size offset).length = 56 := by
  simp [longEndBytes]

/-- Whether the record at the end has no room for one of its numbers. -/
def needsLong (count size offset : Nat) : Bool :=
  maxShort < count || maxLong < size || maxLong < offset

/-- What follows the directory: `endBytes`, and in front of them, if they have no room for a number
(`needsLong`), the long record with its locator. -/
def closingBytes (version count size offset : Nat) : Bytes :=
  (if needsLong count size offset then
      longEndBytes version count size offset ++ locatorBytes (offset + size)
    else [])
    ++ endBytes (min count maxShort) (min size maxLong) (min offset maxLong)

end OpenDocument.Zip
