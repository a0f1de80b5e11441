import OpenDocument.Text.CodePage
import OpenDocument.Text.Repair
import OpenDocument.Zip.Crc32
import OpenDocument.Zip.Record

/-!
# OpenDocument.Zip.Entry

Entries as the directory of an archive describes them: a header of fixed layout, then the name,
the extra fields and the comment. Extra fields apply in their order.
-/

namespace OpenDocument.Zip

/-- An entry as the directory describes it. -/
structure Entry where
  name : Bytes
  /-- The comment, in UTF-8. -/
  comment : Bytes := []
  flags : Nat
  /-- The number of the method. -/
  method : Nat
  crc : Nat
  compressedSize : Nat
  size : Nat
  /-- Where the local header begins. -/
  offset : Nat
  /-- Whether the entry is encrypted with AES. -/
  isAes : Bool := false
  deriving DecidableEq, Repr

namespace Entry

/-- Whether the entry is encrypted in one way or the other. -/
def isEncrypted (e : Entry) : Bool :=
  e.flags % 2 == 1 || e.isAes

/-- The method of entries encrypted with AES, whose true method an extra field tells. -/
def aesMethod : Nat := 99

/-- A number that is taken from 64 bits if it is there, and else is kept. -/
def takeLong (all : Bool) (kept : Nat) (bs : Bytes) : Option (Nat × Bytes) :=
  if all || kept == maxLong then takeNumber 8 bs else some (kept, bs)

/-- The entry with the sizes and the offset in 64 bits, of which there are all or those that have no
room in 32 (`takeLong`). -/
def withLong (e : Entry) (all : Bool) (numbers : Bytes) : Option Entry := do
  let (size, rest) ← takeLong all e.size numbers
  let (compressedSize, rest) ← takeLong all e.compressedSize rest
  let (offset, _) ← takeLong all e.offset rest
  return { e with size, compressedSize, offset }

/-- A text in UTF-8 that stands for another, if that has the stated checksum. -/
def replace? (replaced : Bytes) (checksum : Nat) (text : Bytes) : Option Bytes :=
  if (crc32 replaced).toNat = checksum then
    (String.fromUTF8? text.toByteArray).map fun s => s.toUTF8.toList
  else none

/-- The entry with what an extra field says of it. -/
def withExtra (e : Entry) : Extra → Option Entry
  | .long all numbers => e.withLong all numbers
  | .aes method => some { e with method, isAes := true }
  | .name checksum text => (replace? e.name checksum text).map fun name => { e with name }
  | .comment checksum text =>
    (replace? e.comment checksum text).map fun comment => { e with comment }
  | .plain => some e

/-- A text of a header in UTF-8. One that is not marked as UTF-8 is in the code page of archives,
and one that is need not be UTF-8. -/
def textOf (flags : Nat) (bs : Bytes) : Bytes :=
  if flags / 2048 % 2 = 1 then Text.repair bs else (Text.ofCodePage bs).toUTF8.toList

end Entry

/-- The entry whose directory header the bytes begin with, and the bytes behind that header; its
extra fields are taken in by `withExtra`. In front of the archive there are `shift` more bytes. -/
def takeEntry (shift : Nat) (bs : Bytes) : Option (Entry × Bytes) := do
  let (signature, bs) ← takeNumber 4 bs
  guard (signature = Header.directorySignature)
  let (_, bs) ← takeNumber 4 bs
  let (flags, bs) ← takeNumber 2 bs
  let (method, bs) ← takeNumber 2 bs
  let (_, bs) ← takeNumber 4 bs
  let (crc, bs) ← takeNumber 4 bs
  let (compressedSize, bs) ← takeNumber 4 bs
  let (size, bs) ← takeNumber 4 bs
  let (nameLength, bs) ← takeNumber 2 bs
  let (extraLength, bs) ← takeNumber 2 bs
  let (commentLength, bs) ← takeNumber 2 bs
  let (_, bs) ← takeNumber 8 bs
  let (offset, bs) ← takeNumber 4 bs
  let (name, bs) ← takeBytes nameLength bs
  let (extra, bs) ← takeBytes extraLength bs
  let (comment, bs) ← takeBytes commentLength bs
  let comment := Entry.textOf flags comment
  let fields ← Extra.list? extra
  let e ← fields.foldlM Entry.withExtra
    { name, comment, flags, method, crc, compressedSize, size, offset }
  guard (e.method ≠ Entry.aesMethod ∨ e.isAes)
  guard (e.offset + shift ≤ maxOffset)
  return (e, bs)

/-- So many entries, whose directory headers the bytes begin with. -/
def takeEntries (shift : Nat) : Nat → Bytes → Option (List Entry)
  | 0, _ => some []
  | n + 1, bs => do
    let (entry, bs) ← takeEntry shift bs
    let rest ← takeEntries shift n bs
    return entry :: rest

end OpenDocument.Zip
