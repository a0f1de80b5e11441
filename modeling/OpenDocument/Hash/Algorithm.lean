import OpenDocument.Hash.Sha1
import OpenDocument.Hash.Sha256

/-!
# OpenDocument.Hash.Algorithm

The hash functions that a password can be reduced with, by name.
-/

namespace OpenDocument.Hash

/-- A hash function for passwords. -/
inductive Algorithm where
  | sha1
  | sha256
  deriving DecidableEq, Repr

namespace Algorithm

/-- The size of a digest in bytes. -/
def outputSize : Algorithm → Nat
  | .sha1 => 20
  | .sha256 => 32

/-- The digest of a message. -/
def digest : Algorithm → Bytes → Bytes
  | .sha1, message => Hash.sha1 message
  | .sha256, message => Hash.sha256 message

theorem length_digest (a : Algorithm) (message : Bytes) :
    (a.digest message).length = a.outputSize := by
  cases a
  · exact length_sha1 message
  · exact length_sha256 message

/-- The name of a function in reports. -/
def label : Algorithm → String
  | .sha1 => "Sha1"
  | .sha256 => "Sha256"

/-- The function of a name, which may be written with or without the hyphen of its `label` and in
any case of ASCII letters. -/
def ofName? (name : String) : Option Algorithm :=
  match String.ofList (name.toList.map Char.toUpper) with
  | "SHA-256" | "SHA256" => some .sha256
  | "SHA-1" | "SHA1" => some .sha1
  | _ => none

end Algorithm

end OpenDocument.Hash
