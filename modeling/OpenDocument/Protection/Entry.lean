import OpenDocument.Cipher.Chaining
import OpenDocument.Protection.Key
import OpenDocument.Protection.Parameters
import OpenDocument.Protection.Random

/-!
# OpenDocument.Protection.Entry

Encrypting one entry. The compressed content is padded and encrypted under a fresh initialisation
vector; the vector and the padding are drawn in this order, the padding also when the key then
turns out to be of no use. Decrypting goes the other way.
-/

namespace OpenDocument

/-- Length and SHA-256 digest of the content of an entry. -/
structure Summary where
  length : Nat
  sha256 : Bytes
  deriving DecidableEq, Repr

/-- The summary of a content. -/
def Summary.of (content : Bytes) : Summary where
  length := content.length
  sha256 := Hash.sha256 content

/-- An encrypted entry. -/
structure EncryptedEntry where
  ciphertext : Bytes
  vector : Bytes
  checksum : Bytes
  /-- Length of the content. -/
  plainLength : Nat
  /-- Length of the compressed content, without padding. -/
  compressedLength : Nat
  deriving DecidableEq, Repr

/-- The checksum of an entry with the given compressed content: the digest of the `summary`, or one
of the first `Parameters.leadingSize` compressed bytes. -/
def ChecksumKind.checksum (kind : ChecksumKind) (summary : Summary) (compressed : Bytes) : Bytes :=
  match kind with
  | .content => summary.sha256
  | .leading => Hash.sha256 (compressed.take Parameters.leadingSize)

/-- `ChecksumKind.Attests content compressed kind uri digest`: in manifests, `uri` and `digest` are
a checksum of `kind` for an entry.  One is the SHA-256 digest of the whole content, the other that
of the first 1024 bytes of the compressed content. -/
inductive ChecksumKind.Attests (content compressed : Bytes) : ChecksumKind → String → Bytes → Prop
  | content : Attests content compressed .content
      "urn:oasis:names:tc:opendocument:xmlns:manifest:1.0#sha256" (Hash.sha256 content)
  | leading : Attests content compressed .leading
      "urn:oasis:names:tc:opendocument:xmlns:manifest:1.0#sha256-1k"
      (Hash.sha256 (compressed.take 1024))

/-- `ChecksumKind.checksum` over `Summary.of` is the digest that `ChecksumKind.identifier` names. -/
theorem ChecksumKind.attests_checksum (content compressed : Bytes) : (kind : ChecksumKind) →
    kind.Attests content compressed kind.identifier
      (kind.checksum (Summary.of content) compressed)
  | .content => .content
  | .leading => .leading

/-- Encrypt a padded text with the variant of AES that the length of the key asks for. -/
def encryptPadded (key : PackageKey) (vector padded : Bytes) : Except Error Bytes :=
  match Cipher.RoundKeys.ofBytes? key.bytes with
  | none => .error (.cipher (.keySize key.bytes.length))
  | some k => .ok (Cipher.encryptBytes k vector padded)

variable {ρ : Type} [RandomSource ρ]

/-- Encrypt the compressed content of an entry. The vector is drawn first, and then a filler for
`Cipher.pad`. -/
def encryptCompressed (compressed : Bytes) (summary : Summary) (parameters : Parameters)
    (key : PackageKey) (random : ρ) : Except Error EncryptedEntry × ρ :=
  match RandomSource.fill random Parameters.vectorSize with
  | (.error e, random) => (.error e, random)
  | (.ok vector, random) =>
    match RandomSource.fill random (Cipher.padLength compressed.length - 1) with
    | (.error e, random) => (.error e, random)
    | (.ok filler, random) =>
      match encryptPadded key vector.val (Cipher.pad compressed filler.val) with
      | .error e => (.error e, random)
      | .ok ciphertext =>
        (.ok
          { ciphertext, vector := vector.val
            checksum := parameters.checksum.checksum summary compressed
            plainLength := summary.length
            compressedLength := compressed.length }, random)

/-- Encrypt an entry whose compressed content comes from a source. Nothing is drawn before the
source was read to its end. -/
def encryptEntry (source : Source) (summary : Summary) (parameters : Parameters)
    (key : PackageKey) (random : ρ) : Except Error EncryptedEntry × ρ :=
  match source.readAll with
  | .error fault => (.error (.stream fault), random)
  | .ok compressed => encryptCompressed compressed summary parameters key random

/-- The compressed content of an encrypted entry: what `encryptCompressed` was given. -/
def decryptEntry (key : PackageKey) (vector ciphertext : Bytes) : Except Error Bytes :=
  match Cipher.RoundKeys.ofBytes? key.bytes with
  | none => .error (.cipher (.keySize key.bytes.length))
  | some k => .ok (Cipher.unpad (Cipher.decryptBytes k vector ciphertext))

end OpenDocument
