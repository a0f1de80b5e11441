import OpenDocument.Error

/-!
# OpenDocument.Protection.Password

A password is reduced to a digest as soon as it is received, and the buffer it came in is wiped,
whatever the outcome.
-/

namespace OpenDocument

/-- The digest that stands for a password, with the function that has made it; `deriveKey` takes no
other form of a password. -/
structure PasswordDigest where
  algorithm : Hash.Algorithm
  bytes : Bytes
  length_bytes : bytes.length = algorithm.outputSize
  deriving DecidableEq, Repr

namespace PasswordDigest

/-- The digest of a password. -/
def ofSecret (algorithm : Hash.Algorithm) (secret : Bytes) : PasswordDigest where
  algorithm := algorithm
  bytes := algorithm.digest secret
  length_bytes := algorithm.length_digest secret

/-- A description that does not show the digest. -/
def describe (d : PasswordDigest) : String :=
  "PasswordChecksum \x7b algorithm: " ++ d.algorithm.label ++ ", bytes: \"<redacted>\" \x7d"

end PasswordDigest

/-- The buffer after wiping. -/
def wipe (buffer : Bytes) : Bytes :=
  List.replicate buffer.length 0

/-- Reduce a password with the given function. Also answers the wiped buffer. -/
def hashPassword (secret : Bytes) (algorithm : Hash.Algorithm) :
    Except Error PasswordDigest × Bytes :=
  (if secret.isEmpty then .error .emptyPassword else .ok (.ofSecret algorithm secret),
   wipe secret)

/-- Reduce a password with the function of a name, by `Hash.Algorithm.ofName?`. Also answers the
wiped buffer. -/
def hashPasswordBy (secret : Bytes) (name : String) : Except Error PasswordDigest × Bytes :=
  match Hash.Algorithm.ofName? name with
  | some algorithm => hashPassword secret algorithm
  | none => (.error (.unsupportedDigest name), wipe secret)

end OpenDocument
