import OpenDocument.Bytes

/-!
# OpenDocument.Manifest.Basic

What a manifest says: the media type of the package, and its entries in the order in which they
were written. An encrypted entry carries a descriptor with everything that is needed, besides the
password, to derive the key and to decrypt the entry.
-/

namespace OpenDocument

/-- How an entry was encrypted: what an `encryption-data` element and the three elements in it
state. -/
structure Descriptor where
  checksumType : String
  checksum : Bytes
  /-- Identifier of the cipher, such as `Cipher.KeySize.identifier` gives. -/
  algorithm : String
  initialisationVector : Bytes
  /-- Identifier of the hash function that the password is reduced with, such as `startKeyName`
  gives. -/
  startKeyGeneration : String
  startKeySize : UInt64
  keyDerivation : String
  keySize : UInt64
  iterationCount : UInt32
  salt : Bytes
  /-- Size of the compressed content, in front of padding and encryption. -/
  compressedSize : Option UInt64
  deriving DecidableEq, Repr

/-- One entry of a package. -/
structure Entry where
  path : String
  mediaType : String
  /-- Size of the content, for encrypted entries. -/
  size : Option UInt64
  encryption : Option Descriptor
  deriving DecidableEq, Repr

/-- An entry in the clear, without `size` and `encryption`. -/
def Entry.clear (path mediaType : String) : Entry :=
  { path, mediaType, size := none, encryption := none }

/-- Whether an entry is encrypted. -/
def Entry.isEncrypted (e : Entry) : Bool :=
  e.encryption.isSome

/-- The table of contents of a package. -/
structure Manifest where
  /-- Media type of the package. -/
  mediaType : String
  entries : List Entry := []
  deriving DecidableEq, Repr

namespace Manifest

/-- The manifest with one more entry at the end. -/
def push (m : Manifest) (e : Entry) : Manifest :=
  { m with entries := m.entries ++ [e] }

/-- The first entry of a path. -/
def find? (m : Manifest) (path : String) : Option Entry :=
  m.entries.find? fun e => e.path == path

/-- Whether a path is listed. -/
def hasPath (m : Manifest) (path : String) : Bool :=
  (m.find? path).isSome

/-- The paths of all entries. -/
def paths (m : Manifest) : List String :=
  m.entries.map Entry.path

/-- The encrypted entries. -/
def encrypted (m : Manifest) : List Entry :=
  m.entries.filter Entry.isEncrypted

@[simp] theorem entries_push (m : Manifest) (e : Entry) :
    (m.push e).entries = m.entries ++ [e] := rfl

@[simp] theorem mediaType_push (m : Manifest) (e : Entry) :
    (m.push e).mediaType = m.mediaType := rfl

end Manifest

end OpenDocument
