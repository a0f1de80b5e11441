import OpenDocument.Manifest.Document
import OpenDocument.Protection.Parameters

/-!
# OpenDocument.Protection.Ledger

The account that a protected package keeps of its entries: a record of every encrypted entry, and
the manifest, which lists the clear entries too.
-/

namespace OpenDocument

/-- What is known of one encrypted entry; `Ledger.descriptor` publishes it. -/
structure Record where
  path : String
  mediaType : String
  /-- Identifier of the cipher. -/
  algorithm : String
  vector : Bytes
  /-- Length of the content. -/
  plainLength : UInt64
  checksumType : String
  checksum : Bytes
  /-- Length of the compressed content, without padding. -/
  compressedLength : UInt64
  deriving DecidableEq, Repr

/-- The account of a package: its records and its manifest, which `record` keeps in step. -/
structure Ledger where
  parameters : Parameters
  salt : Bytes
  records : List Record := []
  manifest : Manifest
  deriving DecidableEq, Repr

namespace Ledger

/-- The account of a package without entries. -/
def empty (mediaType : String) (parameters : Parameters) (salt : Bytes) : Ledger :=
  { parameters, salt, manifest := { mediaType } }

/-- The descriptor of a recorded entry: what holds for the entry, from the `Record`, and what holds
for the package. -/
def descriptor (l : Ledger) (r : Record) : Descriptor where
  checksumType := r.checksumType
  checksum := r.checksum
  algorithm := r.algorithm
  initialisationVector := r.vector
  startKeyGeneration := l.parameters.startKey.startKeyName
  startKeySize := UInt64.ofNat l.parameters.startKey.outputSize
  keyDerivation := Vocabulary.keyDerivation
  keySize := UInt64.ofNat l.parameters.keySize.bytes
  iterationCount := l.parameters.iterations
  salt := l.salt
  compressedSize := some r.compressedLength

/-- The entry of the manifest for a record. -/
def entry (l : Ledger) (r : Record) : Entry where
  path := r.path
  mediaType := r.mediaType
  size := some r.plainLength
  encryption := some (l.descriptor r)

/-- Record an encrypted entry. What the package writer itself writes (`Vocabulary.reservedPaths`)
stays in the clear. -/
def record (l : Ledger) (r : Record) : Except Error Ledger :=
  if Vocabulary.isReserved r.path then .error (.format (.clearOnly r.path))
  else .ok { l with records := l.records ++ [r], manifest := l.manifest.push (l.entry r) }

/-- List an entry in the clear. -/
def addClear (l : Ledger) (path mediaType : String) : Ledger :=
  { l with manifest := l.manifest.push (Entry.clear path mediaType) }

/-- The document of the manifest. -/
def toXml (l : Ledger) : String :=
  l.manifest.toXml

end Ledger

end OpenDocument
