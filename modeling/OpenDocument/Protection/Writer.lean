import OpenDocument.Package.Archive
import OpenDocument.Package.Writer
import OpenDocument.Protection.Entry
import OpenDocument.Protection.Ledger

/-!
# OpenDocument.Protection.Writer

Packages protected by a password. The password is reduced and the key derived when the package is
opened; from then on entries are compressed, encrypted and stored one after another. Once
anything fails behind the checks of a path the package is given up: the writer does nothing more
and never writes a manifest, so no reader is led to an entry that is not there.
-/

namespace OpenDocument

/-- Where a package stands. -/
inductive Phase where
  | writing
  | closed
  /-- Something failed; the package is of no use. -/
  | aborted
  deriving DecidableEq, Repr

/-- A protected package being written; `PlainWriter` is its counterpart in the clear. -/
structure ProtectedWriter (α ρ : Type) where
  archive : α
  random : ρ
  digest : PasswordDigest
  key : PackageKey
  ledger : Ledger
  /-- The initialisation vectors used so far, last one first. -/
  vectors : List Bytes := []
  /-- The paths of the entries written so far, last one first. -/
  written : List String := []
  phase : Phase := .writing

/-- A package that could not be opened: why, and what it was to be written with. -/
structure Refusal (α ρ : Type) where
  error : Error
  archive : α
  random : ρ

namespace ProtectedWriter

variable {α ρ : Type} [Archive α] [RandomSource ρ]

/-! ## Opening -/

/-- The key of a package by `deriveKey`, checked against the cipher. -/
def packageKey (parameters : Parameters) (digest : PasswordDigest) (salt : Bytes) :
    Except Error PackageKey := do
  let key ← deriveKey digest salt parameters.iterations parameters.keySize.bytes
  if key.bytes.length ≠ parameters.keySize.bytes then
    throw (.configuration (.keyLength key.bytes.length parameters.keySize.bytes))
  return key

/-- Open a package with a password digest. It gets a salt of its own, and so a key of its own, and
the archive gets its media type. -/
def openWithDigest (mediaType : String) (parameters : Parameters) (archive : α) (random : ρ)
    (digest : PasswordDigest) : Except (Refusal α ρ) (ProtectedWriter α ρ) :=
  match checkMediaType mediaType with
  | .error error => .error { error, archive, random }
  | .ok () =>
    if digest.algorithm ≠ parameters.startKey then
      let error := .configuration (.digestMismatch digest.algorithm parameters.startKey)
      .error { error, archive, random }
    else
      match RandomSource.fill random parameters.saltSize.toNat with
      | (.error error, random) => .error { error, archive, random }
      | (.ok salt, random) =>
        match packageKey parameters digest salt.val with
        | .error error => .error { error, archive, random }
        | .ok key =>
          match Archive.writeEntry archive Vocabulary.mimetypePath mediaType.toUTF8.toList
              .stored with
          | (.error error, archive) => .error { error, archive, random }
          | (.ok (), archive) =>
            .ok { archive, random, digest, key
                  ledger := Ledger.empty mediaType parameters salt.val }

/-- Open a package with a password. Also answers the wiped buffer of the password. -/
def openWithPassword (mediaType : String) (parameters : Parameters) (archive : α) (random : ρ)
    (password : Bytes) : Except (Refusal α ρ) (ProtectedWriter α ρ) × Bytes :=
  let (hashed, wiped) := hashPassword password parameters.startKey
  match hashed with
  | .error error => (.error { error, archive, random }, wiped)
  | .ok digest => (openWithDigest mediaType parameters archive random digest, wiped)

/-! ## Views -/

/-- The parameters of the package. -/
def parameters (w : ProtectedWriter α ρ) : Parameters :=
  w.ledger.parameters

/-- The salt of the package. -/
def salt (w : ProtectedWriter α ρ) : Bytes :=
  w.ledger.salt

/-- The manifest so far. -/
def manifest (w : ProtectedWriter α ρ) : Manifest :=
  w.ledger.manifest

/-- The records of the encrypted entries so far. -/
def records (w : ProtectedWriter α ρ) : List Record :=
  w.ledger.records

/-- Whether the package is complete. -/
def isClosed (w : ProtectedWriter α ρ) : Bool :=
  w.phase == .closed

/-- The error of any call on a writer that does nothing more, by its `Phase`. -/
def refusal? (w : ProtectedWriter α ρ) : Option Error :=
  match w.phase with
  | .writing => none
  | .closed => some .writerClosed
  | .aborted => some .archiveAborted

/-! ## Entries -/

/-- How often an entry may be encrypted to get a vector that was not used before; see
`encryptFresh`. -/
def maxAttempts : Nat := 4

/-- Encrypt with a vector that is not in `used`, in so many attempts. -/
def encryptFresh (compressed : Bytes) (summary : Summary) (parameters : Parameters)
    (key : PackageKey) (used : List Bytes) :
    (attempts : Nat) → ρ → Except Error EncryptedEntry × ρ
  | 0, random => (.error (.random (.noFreshVector maxAttempts)), random)
  | n + 1, random =>
    match encryptEntry (Source.ofBytes compressed) summary parameters key random with
    | (.error e, random) => (.error e, random)
    | (.ok entry, random) =>
      if entry.vector ∈ used then encryptFresh compressed summary parameters key used n random
      else (.ok entry, random)

/-- The record of an entry. -/
def recordOf (w : ProtectedWriter α ρ) (path mediaType : String) (entry : EncryptedEntry) :
    Record where
  path := path
  mediaType := mediaType
  algorithm := w.parameters.keySize.identifier
  vector := entry.vector
  plainLength := UInt64.ofNat entry.plainLength
  checksumType := w.parameters.checksum.identifier
  checksum := entry.checksum
  compressedLength := UInt64.ofNat entry.compressedLength

/-- Compress, encrypt, store and record an entry, with a vector by `encryptFresh`. -/
def writeEncrypted (w : ProtectedWriter α ρ) (path mediaType : String) (content : Bytes) :
    Except Error Unit × ProtectedWriter α ρ :=
  match encryptFresh (Deflate.compress content) (Summary.of content) w.parameters w.key w.vectors
      maxAttempts w.random with
  | (.error e, random) => (.error e, { w with random })
  | (.ok entry, random) =>
    let w := { w with random, vectors := entry.vector :: w.vectors }
    match Archive.writeEntry w.archive path entry.ciphertext .stored with
    | (.error e, archive) => (.error e, { w with archive })
    | (.ok (), archive) =>
      let w := { w with archive }
      match w.ledger.record (w.recordOf path mediaType entry) with
      | .error e => (.error e, w)
      | .ok ledger => (.ok (), { w with ledger })

/-- Write and list an entry in the clear; the archive compresses it. -/
def writeClear (w : ProtectedWriter α ρ) (path mediaType : String) (content : Bytes) :
    Except Error Unit × ProtectedWriter α ρ :=
  match Archive.writeEntry w.archive path content .deflated with
  | (.error e, archive) => (.error e, { w with archive })
  | (.ok (), archive) => (.ok (), { w with archive, ledger := w.ledger.addClear path mediaType })

/-- Write an entry, encrypted or in the clear. -/
def writeEntry (w : ProtectedWriter α ρ) (path mediaType : String) (content : Bytes)
    (encrypt : Bool) : Except Error Unit × ProtectedWriter α ρ :=
  match w.refusal? with
  | some e => (.error e, w)
  | none =>
    match checkPath w.written path with
    | .error e => (.error e, w)
    | .ok () =>
      let (result, w) :=
        if encrypt then w.writeEncrypted path mediaType content
        else w.writeClear path mediaType content
      match result with
      | .ok () => (.ok (), { w with written := path :: w.written })
      | .error e => (.error e, { w with phase := .aborted })

/-- Write the manifest and complete the archive. -/
def close (w : ProtectedWriter α ρ) : Except Error Unit × ProtectedWriter α ρ :=
  match w.refusal? with
  | some e => (.error e, w)
  | none =>
    match Archive.writeEntry w.archive Vocabulary.manifestPath w.ledger.toXml.toUTF8.toList
        .deflated with
    | (.error e, archive) => (.error e, { w with archive, phase := .aborted })
    | (.ok (), archive) =>
      match Archive.finish archive with
      | (.error e, archive) => (.error e, { w with archive, phase := .aborted })
      | (.ok (), archive) => (.ok (), { w with archive, phase := .closed })

end ProtectedWriter

/-- A protected package takes the place of a plain one by encrypting every file. -/
instance {α ρ : Type} [Archive α] [RandomSource ρ] : PackageWriter (ProtectedWriter α ρ) where
  add w path mediaType content := w.writeEntry path mediaType content true
  close := ProtectedWriter.close

end OpenDocument
