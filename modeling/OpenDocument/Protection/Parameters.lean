import OpenDocument.Cipher.Aes
import OpenDocument.Error
import OpenDocument.Vocabulary

/-!
# OpenDocument.Protection.Parameters

How the entries of a package are protected. Parameters are put together setting by setting and
checked once, so that a package can be written with any parameters there are.
-/

namespace OpenDocument

/-- What the checksum of an entry covers. -/
inductive ChecksumKind where
  /-- The whole content. -/
  | content
  /-- The beginning of the compressed content. -/
  | leading
  deriving DecidableEq, Repr

/-- The identifier of a checksum in manifests; `ChecksumKind.Attests` says what it stands for. -/
def ChecksumKind.identifier : ChecksumKind → String
  | .content => Vocabulary.contentChecksum
  | .leading => Vocabulary.leadingChecksum

/-- The identifier of a hash function for passwords in manifests. -/
def Hash.Algorithm.startKeyName : Hash.Algorithm → String
  | .sha1 => Vocabulary.sha1StartKey
  | .sha256 => Vocabulary.sha256StartKey

/-- `Hash.Algorithm.NamedBy a name`: `name` is what manifests call the hash function `a`. -/
inductive Hash.Algorithm.NamedBy : Hash.Algorithm → String → Prop
  | sha1 : NamedBy .sha1 "SHA1"
  | sha256 : NamedBy .sha256 "http://www.w3.org/2000/09/xmldsig#sha256"

/-- `startKeyName` is the name of the hash function. -/
theorem Hash.Algorithm.namedBy_startKeyName : (a : Hash.Algorithm) → a.NamedBy a.startKeyName
  | .sha1 => .sha1
  | .sha256 => .sha256

/-- The identifier of a cipher in manifests; `Cipher.Names` says what it stands for. -/
def Cipher.KeySize.identifier : Cipher.KeySize → String
  | .aes128 => Vocabulary.aes128Algorithm
  | .aes192 => Vocabulary.aes192Algorithm
  | .aes256 => Vocabulary.aes256Algorithm

/-- `Cipher.Names uri n`: in manifests, `uri` stands for AES in CBC mode with a key of `n`
bytes. -/
inductive Cipher.Names : String → Nat → Prop
  | aes128 : Names "http://www.w3.org/2001/04/xmlenc#aes128-cbc" 16
  | aes192 : Names "http://www.w3.org/2001/04/xmlenc#aes192-cbc" 24
  | aes256 : Names "http://www.w3.org/2001/04/xmlenc#aes256-cbc" 32

/-- `KeySize.identifier` stands for the cipher with a key of `KeySize.bytes` bytes. -/
theorem Cipher.KeySize.names_identifier : (s : KeySize) → Names s.identifier s.bytes
  | .aes128 => .aes128
  | .aes192 => .aes192
  | .aes256 => .aes256

/-- The parameters of a protected package, which `Draft.build` has checked. -/
structure Parameters where
  /-- The hash function that the password is reduced with. -/
  startKey : Hash.Algorithm
  iterations : UInt32
  keySize : Cipher.KeySize
  /-- Size of the salt in bytes. -/
  saltSize : UInt64
  checksum : ChecksumKind
  iterations_pos : 0 < iterations
  saltSize_ge : 8 ≤ saltSize
  deriving DecidableEq, Repr

namespace Parameters

/-- The size of an initialisation vector in bytes. -/
def vectorSize : Nat := 16

/-- How many bytes of the compressed content the `leading` checksum covers. -/
def leadingSize : Nat := 1024

/-- The least size of a salt in bytes. -/
def leastSaltSize : UInt64 := 8

/-! ## Settings -/

/-- Parameters that were not checked, as `Setting`s have left them. -/
structure Draft where
  startKey : Hash.Algorithm := .sha256
  iterations : UInt32 := 100000
  /-- Size of the key in bytes. -/
  keySize : UInt64 := 32
  saltSize : UInt64 := 32
  checksum : ChecksumKind := .content
  deriving DecidableEq, Repr

/-- A choice for one of the parameters. -/
inductive Setting where
  | startKey (algorithm : Hash.Algorithm)
  | iterations (count : UInt32)
  | keySize (bytes : UInt64)
  | saltSize (bytes : UInt64)
  | checksum (kind : ChecksumKind)
  deriving DecidableEq, Repr

/-- The draft after a setting. -/
def Draft.set (d : Draft) : Setting → Draft
  | .startKey algorithm => { d with startKey := algorithm }
  | .iterations count => { d with iterations := count }
  | .keySize bytes => { d with keySize := bytes }
  | .saltSize bytes => { d with saltSize := bytes }
  | .checksum kind => { d with checksum := kind }

/-- The parameters of a draft, if a package can be written with them: the key size is one of AES,
there is an iteration, and the salt has `leastSaltSize` bytes. -/
def Draft.build (d : Draft) : Except Error Parameters :=
  match Cipher.KeySize.ofBytes? d.keySize.toNat with
  | none => .error (.configuration (.keySize d.keySize.toNat))
  | some keySize =>
    if hi : d.iterations = 0 then .error (.configuration .zeroIterations)
    else if hs : d.saltSize < leastSaltSize then
      .error (.configuration (.saltSize d.saltSize.toNat leastSaltSize.toNat))
    else .ok
      { startKey := d.startKey, iterations := d.iterations, keySize, saltSize := d.saltSize
        checksum := d.checksum
        iterations_pos := by
          have : d.iterations.toNat ≠ 0 := fun h => hi (UInt32.toNat_inj.mp h)
          exact UInt32.lt_iff_toNat_lt.mpr (Nat.pos_of_ne_zero this)
        saltSize_ge := UInt64.not_lt.mp hs }

/-- The parameters after settings made in order by `Draft.set`; the last setting of each kind
counts. -/
def ofSettings (settings : List Setting) : Except Error Parameters :=
  (settings.foldl Draft.set {}).build

/-- AES with a key of 32 bytes, a password reduced with SHA-256, 100000 iterations and a salt of
32 bytes. -/
def standard : Parameters where
  startKey := .sha256
  iterations := 100000
  keySize := .aes256
  saltSize := 32
  checksum := .content
  iterations_pos := by decide
  saltSize_ge := by decide

/-- Without settings the `standard` parameters are built. -/
theorem ofSettings_nil : ofSettings [] = .ok standard := rfl

end Parameters

end OpenDocument
