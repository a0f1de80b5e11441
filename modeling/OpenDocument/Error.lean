import OpenDocument.Hash.Algorithm
import OpenDocument.Markup.Fault
import OpenDocument.Stream
import OpenDocument.Text.Base64
import OpenDocument.Zip.Basic

/-!
# OpenDocument.Error

Everything that can go wrong with a package, by cause. The wording of every cause is given in one
place, `Error.message`. Archives and random sources may come from outside this library; for
their faults each kind of error also has a case that holds a text.
-/

namespace OpenDocument

/-- A setting that no package can be written with. -/
inductive ConfigurationFault where
  /-- The package has no media type. -/
  | mediaTypeNotSet
  /-- The password was hashed with another function than the parameters name. -/
  | digestMismatch (hashed named : Hash.Algorithm)
  /-- The derived key does not fit the cipher. -/
  | keyLength (actual needed : Nat)
  | zeroIterations
  | zeroKeyLength
  | emptySalt
  /-- The cipher has no keys of so many bytes. -/
  | keySize (bytes : Nat)
  /-- The salt has so few bytes. -/
  | saltSize (bytes least : Nat)
  | other (detail : String)
  deriving DecidableEq, Repr

/-- The wording of a fault. -/
def ConfigurationFault.message : ConfigurationFault → String
  | .mediaTypeNotSet => "MIME type not set"
  | .digestMismatch hashed named =>
    "password was hashed with " ++ hashed.label ++ " but the parameters name " ++ named.label
  | .keyLength actual needed => s!"derived key is {actual} bytes, cipher needs {needed}"
  | .zeroIterations => "iteration count must be at least 1"
  | .zeroKeyLength => "derived key length must be positive"
  | .emptySalt => "salt must not be empty"
  | .keySize bytes => s!"unsupported AES key size: {bytes} bytes"
  | .saltSize bytes least => s!"salt must be at least {least} bytes, got {bytes}"
  | .other detail => detail

/-- A cipher that cannot be set up. -/
inductive CipherFault where
  /-- There is no cipher for keys of so many bytes. -/
  | keySize (bytes : Nat)
  | other (detail : String)
  deriving DecidableEq, Repr

/-- The wording of a fault. -/
def CipherFault.message : CipherFault → String
  | .keySize bytes => s!"unsupported AES key size: {bytes} bytes"
  | .other detail => detail

/-- Randomness that cannot be had. -/
inductive RandomFault where
  /-- Every initialisation vector drawn was used before. -/
  | noFreshVector (attempts : Nat)
  | other (detail : String)
  deriving DecidableEq, Repr

/-- The wording of a fault. -/
def RandomFault.message : RandomFault → String
  | .noFreshVector attempts => s!"no unused IV after {attempts} attempts"
  | .other detail => detail

/-- A package or manifest that is not laid out as it must be. -/
inductive FormatFault where
  /-- A path that is empty or begins with a slash. -/
  | invalidPath (path : String)
  /-- A path that the writer itself writes to. -/
  | reservedPath (path : String)
  | duplicatePath (path : String)
  /-- An entry that has to stay in the clear. -/
  | clearOnly (path : String)
  /-- An archive without manifest. -/
  | noManifest
  /-- A manifest that does not describe the package itself. -/
  | noRootEntry
  | invalidAttribute
  | missingAttribute (name : String)
  /-- An encryption descriptor in front of the first entry. -/
  | strayDescriptor
  /-- A part of an encryption descriptor outside of one. -/
  | strayDescriptorPart
  | invalidNumber (text : String)
  | invalidBase64 (fault : Base64.Fault)
  | other (detail : String)
  deriving DecidableEq, Repr

/-- The wording of a fault. -/
def FormatFault.message : FormatFault → String
  | .invalidPath path => "invalid entry path '" ++ path ++ "'"
  | .reservedPath path => "'" ++ path ++ "' is written by the package writer"
  | .duplicatePath path => "duplicate entry '" ++ path ++ "'"
  | .clearOnly path => "'" ++ path ++ "' must not be encrypted"
  | .noManifest => "No manifest.xml found in ODF package"
  | .noRootEntry => "manifest has no root entry"
  | .invalidAttribute => "Invalid attribute in manifest"
  | .missingAttribute name => "missing attribute " ++ name
  | .strayDescriptor => "encryption-data outside file-entry"
  | .strayDescriptorPart => "encryption element outside encryption-data"
  | .invalidNumber text => "invalid number in manifest: " ++ text
  | .invalidBase64 fault => "invalid base64 in manifest: " ++ fault.message
  | .other detail => detail

/-- Markup that cannot be read. -/
inductive MarkupFault where
  | markup (fault : Markup.Fault)
  /-- A fault in a manifest. -/
  | manifest (fault : Markup.Fault)
  | other (detail : String)
  deriving DecidableEq, Repr

/-- The wording of a fault. -/
def MarkupFault.message : MarkupFault → String
  | .markup fault => fault.message
  | .manifest fault => "manifest parsing error: " ++ fault.message
  | .other detail => detail

/-- Why an operation on a package failed. -/
inductive Error where
  | stream (fault : StreamFault)
  /-- There is no hash function of this name. -/
  | unsupportedDigest (name : String)
  | cipher (fault : CipherFault)
  | emptyPassword
  | configuration (fault : ConfigurationFault)
  | random (fault : RandomFault)
  | format (fault : FormatFault)
  | markup (fault : MarkupFault)
  | archive (fault : Zip.Fault)
  /-- The package is complete. -/
  | writerClosed
  /-- An earlier failure has made the package unusable. -/
  | archiveAborted
  deriving DecidableEq, Repr

namespace Error

/-- The wording of an error. -/
def message : Error → String
  | stream fault => "IO error: " ++ fault.message
  | unsupportedDigest name => "Unsupported digest: " ++ name
  | cipher fault => "Cipher initialization failed: " ++ fault.message
  | emptyPassword => "Password must not be empty"
  | configuration fault => "Invalid configuration: " ++ fault.message
  | random fault => "Random source error: " ++ fault.message
  | format fault => "Invalid format: " ++ fault.message
  | markup fault => "XML error: " ++ fault.message
  | archive fault => "ZIP error: " ++ fault.message
  | writerClosed => "Writer is closed"
  | archiveAborted => "Archive aborted after a failed entry write"

/-- Whether the fault lies with the surroundings, which lack a hash function or cipher, and not
with the data or the caller. -/
def isEnvironment : Error → Bool
  | unsupportedDigest _ | cipher _ => true
  | _ => false

/-- The error for a fault of an archive: a `StreamFault` below it counts as such. -/
def ofArchive : Zip.Fault → Error
  | .stream fault => stream fault
  | fault => archive fault

/-- The error for a fault of markup. -/
def ofMarkup (fault : Markup.Fault) : Error :=
  markup (.markup fault)

end Error

end OpenDocument
