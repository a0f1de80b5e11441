import OpenDocument.Zip.Field

/-!
# OpenDocument.Zip.Extra

The extra fields behind a header of the directory, as far as they bear on reading. A field that is
not laid out as its kind demands makes the whole directory unreadable. Of kinds that are not known
only the length counts, and up to three bytes that are no field may follow the last one.
-/

namespace OpenDocument.Zip

/-- An extra field. -/
inductive Extra where
  /-- Sizes and offset in 64 bits: all three of them, or those that have no room in 32. -/
  | long (all : Bool) (numbers : Bytes)
  /-- The entry is encrypted with AES, and this is the number of its true method. -/
  | aes (method : Nat)
  /-- The name in UTF-8, with the checksum of the name that it stands for. -/
  | name (checksum : Nat) (text : Bytes)
  /-- The comment in UTF-8, with the checksum of the comment that it stands for. -/
  | comment (checksum : Nat) (text : Bytes)
  /-- Nothing that bears on reading. -/
  | plain
  deriving DecidableEq, Repr

namespace Extra

/-! ## Kinds -/

/-- The kind of numbers in 64 bits. -/
def longKind : Nat := 0x0001

/-- The kind of times of a file system. -/
def fileTimesKind : Nat := 0x000A

/-- The kind of times with a byte in front that tells which they are. -/
def timesKind : Nat := 0x5455

/-- The kind of comments in UTF-8. -/
def commentKind : Nat := 0x6375

/-- The kind of names in UTF-8. -/
def nameKind : Nat := 0x7075

/-- The kind of descriptions of an encryption with AES. -/
def aesKind : Nat := 0x9901

/-- The kind of padding in front of aligned content. -/
def alignmentKind : Nat := 0xA11E

/-- The kinds that are known. -/
def knownKinds : List Nat :=
  [longKind, fileTimesKind, timesKind, commentKind, nameKind, aesKind, alignmentKind]

/-! ## Bodies -/

/-- Refuse a body that is not laid out as its kind demands. -/
def require (ok : Bool) (x : Extra) : Option Extra :=
  if ok then some x else none

/-- Times of a file system: one attribute of three times, of eight bytes each. -/
def areFileTimes (body : Bytes) : Bool :=
  body.length == 32 && ((body.drop 4).take 4 == [1, 0, 24, 0])

/-- How many bits of a byte are set. -/
def countBits (b : UInt8) : Nat :=
  ((List.range 8).filter b.toNat.testBit).length

/-- Times of four bytes each, behind a byte with a bit for each of them. A directory may hold a
single time in place of all. -/
def areTimes (body : Bytes) : Bool :=
  match body with
  | [] => false
  | flags :: times => times.length == 4 || times.length == 4 * countBits flags

/-- The description of an encryption with AES: version, vendor, strength of the key, and the true
method. -/
def aes? (body : Bytes) : Option Extra := do
  let (version, rest) ← takeNumber 2 body
  let (vendor, rest) ← takeNumber 2 rest
  let (strength, rest) ← takeNumber 1 rest
  let (method, rest) ← takeNumber 2 rest
  require (rest.isEmpty && (version == 1 || version == 2) && vendor == 0x4541
    && 1 ≤ strength && strength ≤ 3) (.aes method)

/-- The checksum and the text of a field that repeats a text in UTF-8. -/
def text? (body : Bytes) : Option (Nat × Bytes) := do
  let (_, rest) ← takeNumber 1 body
  let (checksum, text) ← takeNumber 4 rest
  return (checksum, text)

/-- The field of a kind. `body` is as much of the stated length as is there; numbers in 64 bits may
be followed by less than stated, since what follows them is not read. -/
def ofBody? (kind length : Nat) (body : Bytes) : Option Extra :=
  if kind = longKind then some (.long (24 ≤ length) body)
  else if body.length ≠ length then none
  else if kind = fileTimesKind then require (areFileTimes body) .plain
  else if kind = timesKind then require (areTimes body) .plain
  else if kind = commentKind then (text? body).map fun (checksum, text) => .comment checksum text
  else if kind = nameKind then (text? body).map fun (checksum, text) => .name checksum text
  else if kind = aesKind then aes? body
  else some .plain

/-! ## Lists of fields -/

/-- The fields in a byte string, each of which states its kind and length first. -/
def list? (bs : Bytes) : Option (List Extra) :=
  match bs with
  | k₀ :: k₁ :: n₀ :: n₁ :: rest => do
    let length := Bytes.ofLittleEndian [n₀, n₁]
    let field ← ofBody? (Bytes.ofLittleEndian [k₀, k₁]) length (rest.take length)
    let fields ← list? (rest.drop length)
    return field :: fields
  | k₀ :: k₁ :: _ => if Bytes.ofLittleEndian [k₀, k₁] ∈ knownKinds then none else some []
  | _ => some []
termination_by bs.length
decreasing_by simp only [List.length_drop, List.length_cons]; omega

end Extra

end OpenDocument.Zip
