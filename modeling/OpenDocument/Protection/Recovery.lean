import OpenDocument.Deflate.Inflate
import OpenDocument.Manifest.Basic
import OpenDocument.Protection.Entry

/-!
# OpenDocument.Protection.Recovery

The way back from a protected entry to its content, with nothing but the password and what the
manifest says of the entry.
-/

namespace OpenDocument

/-- The hash function that a manifest names for reducing the password, as `startKeyName` writes
it. -/
def Hash.Algorithm.ofStartKeyName? (name : String) : Option Hash.Algorithm :=
  [Hash.Algorithm.sha1, Hash.Algorithm.sha256].find? fun a => a.startKeyName == name

theorem Hash.Algorithm.ofStartKeyName?_startKeyName (a : Hash.Algorithm) :
    ofStartKeyName? a.startKeyName = some a := by
  cases a <;> decide

/-- The content of an entry under a key: its payload decrypted, without padding, inflated. -/
def recoverContent (key : PackageKey) (vector payload : Bytes) : Except Error Bytes :=
  match decryptEntry key vector payload with
  | .error e => .error e
  | .ok compressed =>
    match Deflate.inflate compressed with
    | .ok (content, _) => .ok content
    | .error _ => .error (.stream .compression)

namespace Descriptor

/-- The key of an entry, found again from the password by way of `deriveKey`. -/
def packageKey (d : Descriptor) (password : Bytes) : Except Error PackageKey :=
  match Hash.Algorithm.ofStartKeyName? d.startKeyGeneration with
  | none => .error (.unsupportedDigest d.startKeyGeneration)
  | some algorithm =>
    match (hashPassword password algorithm).1 with
    | .error e => .error e
    | .ok digest => deriveKey digest d.salt d.iterationCount d.keySize.toNat

/-- The content of an entry, recovered by `recoverContent` from the password and the payload that
the archive holds. -/
def recover (d : Descriptor) (password payload : Bytes) : Except Error Bytes :=
  match d.packageKey password with
  | .error e => .error e
  | .ok key => recoverContent key d.initialisationVector payload

end Descriptor

end OpenDocument
