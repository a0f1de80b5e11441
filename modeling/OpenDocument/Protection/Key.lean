import OpenDocument.Hash.Pbkdf2
import OpenDocument.Protection.Password

/-!
# OpenDocument.Protection.Key

The key of a package, derived from the password digest and the salt of the package. Equal inputs
give equal keys, so a reader with the password and the manifest finds the key again.
-/

namespace OpenDocument

/-- A derived key. -/
structure PackageKey where
  bytes : Bytes
  deriving DecidableEq, Repr

/-- A description that does not show the key. -/
def PackageKey.describe (k : PackageKey) : String :=
  s!"DerivedKey({k.bytes.length} bytes, <redacted>)"

/-- Derive a key of `length` bytes by `Hash.pbkdf2`. Zero iterations, no salt and no length are
refused. -/
def deriveKey (digest : PasswordDigest) (salt : Bytes) (iterations : UInt32) (length : Nat) :
    Except Error PackageKey :=
  if iterations = 0 then .error (.configuration .zeroIterations)
  else if length = 0 then .error (.configuration .zeroKeyLength)
  else if salt.isEmpty then .error (.configuration .emptySalt)
  else .ok ⟨Hash.pbkdf2 digest.bytes salt iterations.toNat length⟩

end OpenDocument
