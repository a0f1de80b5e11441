import Std.Data.HashSet
import OpenDocument.Deflate.Inflate
import OpenDocument.Zip.Entry

/-!
# OpenDocument.Zip.Directory

Reading an archive through its directory. Every place where a record at the end may stand is
tried, the last one first, and the first that leads to a directory counts. Bytes in front of the
archive shift all offsets; how many they are follows from where the directory is found. Sizes and
checksums are taken from the directory, so entries with data descriptors are read like others.
-/

namespace OpenDocument.Zip

/-! ## Records at the end -/

/-- What the record at the end says. -/
structure EndRecord where
  /-- Where the record begins. -/
  position : Nat
  disk : Nat
  firstDisk : Nat
  /-- Number of entries on this disk. -/
  countHere : Nat
  /-- Number of entries on all disks. -/
  count : Nat
  /-- Number of bytes of the directory. -/
  size : Nat
  /-- Where the directory begins. -/
  offset : Nat
  deriving DecidableEq, Repr

/-- Number of bytes of a record at the end without its comment. -/
def endLength : Nat := 22

/-- The record at the end with its signature at `position`, from the bytes behind the
signature. Its comment lies inside the archive, which has `length` bytes. -/
def EndRecord.ofBytes? (length position : Nat) (bs : Bytes) : Option EndRecord := do
  let (disk, bs) ← takeNumber 2 bs
  let (firstDisk, bs) ← takeNumber 2 bs
  let (countHere, bs) ← takeNumber 2 bs
  let (count, bs) ← takeNumber 2 bs
  let (size, bs) ← takeNumber 4 bs
  let (offset, bs) ← takeNumber 4 bs
  let (commentLength, _) ← takeNumber 2 bs
  guard (position + endLength + commentLength ≤ length)
  return { position, disk, firstDisk, countHere, count, size, offset }

/-- Where a directory is. -/
structure Place where
  /-- Number of bytes in front of the archive. -/
  shift : Nat
  /-- Where the directory begins in the archive. -/
  offset : Nat
  /-- Number of entries in the directory. -/
  count : Nat
  deriving DecidableEq, Hashable, Repr

/-- The place of a directory that the record at the end tells itself. Of the headers of the
archive, the first behind the stated offset is taken for the first of the directory; its signature
lies in front of the record. -/
def EndRecord.place? (e : EndRecord) (headers : List Nat) : Option Place := do
  let shift ←
    if e.count = 0 then some (e.position - e.offset)
    else
      let first := headers.find? fun position =>
        e.offset ≤ position && position + 4 ≤ e.position
      first.map fun position => position - e.offset
  guard (e.disk = e.firstDisk)
  return { shift, offset := e.offset, count := e.countHere }

/-! ## Records for numbers in 64 bits -/

/-- What points to the long record at the end. -/
structure Locator where
  disk : Nat
  /-- Where the long record begins in the archive. -/
  offset : Nat
  /-- Number of disks. -/
  disks : Nat
  deriving DecidableEq, Repr

/-- The locator that the bytes begin with, if they begin with `locatorSignature`. -/
def Locator.ofBytes? (bs : Bytes) : Option Locator := do
  let (signature, bs) ← takeNumber 4 bs
  guard (signature = locatorSignature)
  let (disk, bs) ← takeNumber 4 bs
  let (offset, bs) ← takeNumber 8 bs
  let (disks, _) ← takeNumber 4 bs
  return { disk, offset, disks }

/-- Whether a record at the end has a field without room for its number. -/
def EndRecord.isShort (e : EndRecord) : Bool :=
  e.count == 65535 || e.size == 4294967295 || e.offset == 4294967295

/-- What the long record at the end says. -/
structure LongEndRecord where
  /-- Where the record begins. -/
  position : Nat
  /-- Number of bytes behind the field of the length itself. -/
  length : Nat
  disk : Nat
  firstDisk : Nat
  countHere : Nat
  count : Nat
  offset : Nat
  deriving DecidableEq, Repr

/-- The long record with its signature at `position`, from the bytes behind the signature. -/
def LongEndRecord.ofBytes? (position : Nat) (bs : Bytes) : Option LongEndRecord := do
  let (length, bs) ← takeNumber 8 bs
  let (_, bs) ← takeNumber 4 bs
  let (disk, bs) ← takeNumber 4 bs
  let (firstDisk, bs) ← takeNumber 4 bs
  let (countHere, bs) ← takeNumber 8 bs
  let (count, bs) ← takeNumber 8 bs
  let (_, bs) ← takeNumber 8 bs
  let (offset, _) ← takeNumber 8 bs
  return { position, length, disk, firstDisk, countHere, count, offset }

/-- Whether a long record fills the bytes in front of its locator and leaves room for its
directory. -/
def LongEndRecord.fits (r : LongEndRecord) (locator : Locator) (locatorPosition : Nat) : Bool :=
  44 ≤ r.length && r.position + r.length + 12 == locatorPosition && r.firstDisk == locator.disk
    && r.count * 46 + r.offset ≤ r.position

/-- The place of a directory that a long record tells: of those of the archive between the stated
offset and the locator, the first that fits. -/
def Locator.place? (l : Locator) (records : List LongEndRecord) (locatorPosition : Nat) :
    Option Place := do
  guard (l.disks ≤ 1)
  let r ← records.find? fun r => l.offset ≤ r.position && r.fits l locatorPosition
  guard (r.countHere ≤ r.count ∧ r.disk = r.firstDisk)
  return { shift := r.position - l.offset, offset := r.offset, count := r.count }

/-! ## Landmarks -/

/-- What a search for the directory goes by. It is collected once for all records at the end, so
that the search looks no record up by walking through the archive. -/
structure Landmarks where
  /-- The archive from every position on. -/
  suffixes : Array Bytes
  /-- The records at the end, last one first. -/
  ends : List EndRecord
  /-- Where the headers of a directory begin, first one first. -/
  headers : List Nat
  /-- The long records at the end, first one first. -/
  longEnds : List LongEndRecord
  deriving DecidableEq, Repr

namespace Landmarks

/-- The landmarks of an archive, each found by its signature among the `occurrences`. -/
def ofBytes (archive : Bytes) : Landmarks :=
  let length := archive.length
  { suffixes := suffixesOnto #[] archive
    ends := (occurrences endSignature archive).filterMap fun (position, bs) =>
      EndRecord.ofBytes? length position bs
    headers := ((occurrences Header.directorySignature archive).map Prod.fst).reverse
    longEnds := (occurrences longEndSignature archive).reverse.filterMap fun (position, bs) =>
      LongEndRecord.ofBytes? position bs }

/-- The archive from a position on. -/
def bytesFrom (m : Landmarks) (position : Nat) : Bytes :=
  m.suffixes.getD position []

/-- What is looked up is the archive without the bytes in front of the position. -/
@[simp] theorem bytesFrom_ofBytes (archive : Bytes) (position : Nat) :
    (ofBytes archive).bytesFrom position = archive.drop position :=
  getD_suffixesOnto archive position

/-- The locator in front of a record at the end that has a field without room for its number. -/
def locator? (m : Landmarks) (e : EndRecord) : Option Locator :=
  if e.isShort ∧ locatorLength ≤ e.position then
    Locator.ofBytes? (m.bytesFrom (e.position - locatorLength))
  else none

/-- The place of a directory that a record at the end leads to: its own, or that of a long record if
there is a `locator?` in front of it. -/
def place? (m : Landmarks) (e : EndRecord) : Option Place :=
  match m.locator? e with
  | some locator => locator.place? m.longEnds (e.position - locatorLength)
  | none => e.place? m.headers

end Landmarks

/-! ## The directory -/

/-- An archive and what its directory lists, in order. Offsets count from the beginning of
`bytes`. -/
structure Directory where
  bytes : Bytes
  entries : List Entry
  deriving DecidableEq, Repr

namespace Directory

/-- The directory at a `Place`, if all of its entries can be read. -/
def ofPlace? (m : Landmarks) (place : Place) : Option Directory := do
  let entries ← takeEntries place.shift place.count (m.bytesFrom (place.shift + place.offset))
  return { bytes := m.bytesFrom place.shift, entries }

/-- The directory that the first of some records leads to that leads to one. Places in `tried` have
none, and are not tried again. -/
def search (m : Landmarks) (tried : Std.HashSet Place) : List EndRecord → Option Directory
  | [] => none
  | e :: es =>
    match m.place? e with
    | none => search m tried es
    | some place =>
      if place ∈ tried then search m tried es
      else
        match ofPlace? m place with
        | some d => some d
        | none => search m (tried.insert place) es

/-- Leaving out what was tried changes nothing. -/
theorem search_eq_findSome? (m : Landmarks) (tried : Std.HashSet Place)
    (h : ∀ place ∈ tried, ofPlace? m place = none) (es : List EndRecord) :
    search m tried es = es.findSome? fun e => (m.place? e).bind (ofPlace? m) := by
  induction es generalizing tried with
  | nil => rfl
  | cons e es ih =>
    rw [search, List.findSome?_cons]
    cases m.place? e with
    | none => exact ih tried h
    | some place =>
      simp only [Option.bind_some]
      by_cases ht : place ∈ tried
      · rw [if_pos ht, h place ht, ih tried h]
      · rw [if_neg ht]
        cases hp : ofPlace? m place with
        | some d => rfl
        | none =>
          refine ih _ fun q hq => ?_
          rcases Std.HashSet.mem_insert.mp hq with he | hq
          · rw [← eq_of_beq he, hp]
          · exact h q hq

/-- The directory of an archive, by a `search` from the last record at the end on. -/
def ofBytes? (archive : Bytes) : Option Directory :=
  let m := Landmarks.ofBytes archive
  search m ∅ m.ends

/-- The directory of an archive is that of the first place, from the back, where there is one. -/
theorem ofBytes?_eq_findSome? (archive : Bytes) :
    ofBytes? archive =
      (Landmarks.ofBytes archive).ends.findSome? fun e =>
        ((Landmarks.ofBytes archive).place? e).bind (ofPlace? (Landmarks.ofBytes archive)) :=
  search_eq_findSome? _ ∅ (fun _ h => (Std.HashSet.not_mem_empty h).elim) _

/-! ## Entries -/

/-- The entry of a name; of several the last of `entries`. -/
def find? (d : Directory) (name : Bytes) : Option Entry :=
  d.entries.reverse.find? fun e => e.name == name

/-- The bytes that the archive holds for an entry, if its local header is where the directory
says. -/
def packed? (d : Directory) (e : Entry) : Option Bytes := do
  let (signature, bs) ← takeNumber 4 (d.bytes.drop e.offset)
  guard (signature = Header.localSignature)
  let (_, bs) ← takeNumber 22 bs
  let (nameLength, bs) ← takeNumber 2 bs
  let (extraLength, bs) ← takeNumber 2 bs
  return (bs.drop (nameLength + extraLength)).take e.compressedSize

/-- How to get at the content of an entry: its method and the bytes that the archive holds
(`packed?`). -/
def open? (d : Directory) (e : Entry) : Option (Method × Bytes) := do
  guard !e.isEncrypted
  let method ← Method.ofCode? e.method
  let packed ← d.packed? e
  return (method, packed)

end Directory

/-- The content of packed bytes. -/
def unpack (method : Method) (packed : Bytes) : Except StreamFault Bytes :=
  match method with
  | .stored => .ok packed
  | .deflated =>
    match Deflate.inflate packed with
    | .ok (content, _) => .ok content
    | .error .truncated => .error .truncation
    | .error .corrupt => .error .compression

/-- Refuse content that does not have the recorded checksum. -/
def verify (crc : Nat) (content : Bytes) : Except StreamFault Unit :=
  if (crc32 content).toNat = crc then .ok () else .error .checksum

/-- The content of packed bytes as a text, by `unpack` and `verify`. One that is not UTF-8 is found
in front of a wrong checksum. -/
def unpackText (method : Method) (packed : Bytes) (crc : Nat) : Except StreamFault String := do
  let content ← unpack method packed
  match String.fromUTF8? content.toByteArray with
  | none => throw .encoding
  | some text =>
    verify crc content
    return text

/-- The content of an entry, if `unpack` can read it and `verify` does not refuse it. -/
def Directory.content? (d : Directory) (e : Entry) : Option Bytes := do
  let (method, packed) ← d.open? e
  let content ← (unpack method packed).toOption
  guard (verify e.crc content).isOk
  return content

end OpenDocument.Zip
