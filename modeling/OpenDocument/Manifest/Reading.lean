import OpenDocument.Error
import OpenDocument.Manifest.Basic
import OpenDocument.Markup.Event
import OpenDocument.Text.Decimal
import OpenDocument.Vocabulary
import OpenDocument.Zip.Directory

/-!
# OpenDocument.Manifest.Reading

Reading a manifest from its document. The tags are taken in one by one, in document order; a
descriptor and its parts belong to the entry that was met last. Elements and attributes of other
names are passed over, but their attributes must be well-formed.
-/

namespace OpenDocument

/-! ## Attribute values -/

/-- The attributes of a tag with unescaped values. -/
abbrev Attributes := List (String × String)

namespace Attributes

/-- The value of an attribute that a tag must have. -/
def required (as : Attributes) (name : String) : Except Error String :=
  match as.lookup name with
  | some v => .ok v
  | none => .error (.format (.missingAttribute name))

/-- A number below `bound` as an attribute value, by `Text.readDecimal?`. -/
def readNumber (bound : Nat) (text : String) : Except Error Nat :=
  match Text.readDecimal? bound text.toList with
  | some n => .ok n
  | none => .error (.format (.invalidNumber text))

/-- A byte string as an attribute value, in Base64 with blanks around it. -/
def readBytes (text : String) : Except Error Bytes :=
  match Base64.decode (String.ofList (Text.trim text.toList)).toUTF8.toList with
  | .ok bs => .ok bs
  | .error fault => .error (.format (.invalidBase64 fault))

/-- A size that a tag must state. -/
def size (as : Attributes) (name : String) : Except Error UInt64 := do
  return UInt64.ofNat (← readNumber UInt64.size (← as.required name))

/-- A size that a tag may state. -/
def size? (as : Attributes) (name : String) : Except Error (Option UInt64) :=
  match as.lookup name with
  | none => .ok none
  | some text => do return some (UInt64.ofNat (← readNumber UInt64.size text))

/-- A count that a tag must state. -/
def count (as : Attributes) (name : String) : Except Error UInt32 := do
  return UInt32.ofNat (← readNumber UInt32.size (← as.required name))

/-- A byte string that a tag must state. -/
def bytes (as : Attributes) (name : String) : Except Error Bytes := do
  readBytes (← as.required name)

end Attributes

/-! ## Tags -/

namespace Manifest

/-- What was read so far. A part of a descriptor is for the entry met last, the first of
`entries`. -/
structure Reading where
  /-- Media type of the package, if it was stated. -/
  mediaType : Option String := none
  /-- The entries, last one first. -/
  entries : List Entry := []
  deriving DecidableEq, Repr

namespace Reading

/-- Take in an entry. The path `/` stands for the package. -/
def fileEntry (r : Reading) (as : Attributes) : Except Error Reading := do
  let path ← as.required "manifest:full-path"
  let mediaType := (as.lookup "manifest:media-type").getD ""
  if path = "/" then return { r with mediaType := some mediaType }
  let size ← as.size? "manifest:size"
  return { r with entries := { path, mediaType, size, encryption := none } :: r.entries }

/-- Take in the beginning of a descriptor, for the entry met last. Its parts are placeholders until
`withDescriptor` replaces them. -/
def encryptionData (r : Reading) (as : Attributes) : Except Error Reading :=
  match r.entries with
  | [] => .error (.format .strayDescriptor)
  | entry :: earlier => do
    let checksumType ← as.required "manifest:checksum-type"
    let checksum ← as.bytes "manifest:checksum"
    let compressedSize ← as.size? "odpack:compressed-size"
    let descriptor : Descriptor :=
      { checksumType, checksum, algorithm := "", initialisationVector := []
        startKeyGeneration := "", startKeySize := 0, keyDerivation := "", keySize := 0
        iterationCount := 0, salt := [], compressedSize }
    return { r with entries := { entry with encryption := some descriptor } :: earlier }

/-- Complete the descriptor of the entry met last. -/
def withDescriptor (r : Reading) (f : Descriptor → Except Error Descriptor) :
    Except Error Reading :=
  match r.entries with
  | [] => .error (.format .strayDescriptorPart)
  | entry :: earlier =>
    match entry.encryption with
    | none => .error (.format .strayDescriptorPart)
    | some descriptor => do
      let descriptor ← f descriptor
      return { r with entries := { entry with encryption := some descriptor } :: earlier }

/-- Take in the cipher. -/
def algorithm (r : Reading) (as : Attributes) : Except Error Reading :=
  r.withDescriptor fun d => do
    let algorithm ← as.required "manifest:algorithm-name"
    let initialisationVector ← as.bytes "manifest:initialisation-vector"
    return { d with algorithm, initialisationVector }

/-- Take in how the password is reduced. -/
def startKey (r : Reading) (as : Attributes) : Except Error Reading :=
  r.withDescriptor fun d => do
    let startKeyGeneration ← as.required "manifest:start-key-generation-name"
    let startKeySize ← as.size "manifest:key-size"
    return { d with startKeyGeneration, startKeySize }

/-- Take in how the key is derived. -/
def keyDerivation (r : Reading) (as : Attributes) : Except Error Reading :=
  r.withDescriptor fun d => do
    let keyDerivation ← as.required "manifest:key-derivation-name"
    let keySize ← as.size "manifest:key-size"
    let iterationCount ← as.count "manifest:iteration-count"
    let salt ← as.bytes "manifest:salt"
    return { d with keyDerivation, keySize, iterationCount, salt }

/-- Take in an element by its name. -/
def element (r : Reading) (name : String) (as : Attributes) : Except Error Reading :=
  match name with
  | "manifest:file-entry" => r.fileEntry as
  | "manifest:encryption-data" => r.encryptionData as
  | "manifest:algorithm" => r.algorithm as
  | "manifest:start-key-generation" => r.startKey as
  | "manifest:key-derivation" => r.keyDerivation as
  | _ => .ok r

/-- Take in a start tag or empty tag. -/
def tag (r : Reading) (t : Markup.Tag) : Except Error Reading :=
  match t.attributes? with
  | none => .error (.format .invalidAttribute)
  | some as => r.element (String.ofList t.name) as

/-- Take in one construct of the document. -/
def event (r : Reading) : Markup.Event → Except Error Reading
  | .start t => r.tag t
  | .empty t => r.tag t
  | _ => .ok r

/-- The manifest that was read, if an entry for `/` has stated its media type. -/
def manifest (r : Reading) : Except Error Manifest :=
  match r.mediaType with
  | none => .error (.format .noRootEntry)
  | some mediaType => .ok { mediaType, entries := r.entries.reverse }

end Reading

/-! ## Documents -/

/-- The manifest of a document. What is wrong with an element is found in front of a fault of syntax
that comes later, since `Markup.events` is a list up to its first fault. -/
def parse (document : String) : Except Error Manifest :=
  let (events, fault) := Markup.events document.toList
  match events.foldlM Reading.event {} with
  | .error e => .error e
  | .ok r =>
    match fault with
    | some f => .error (.markup (.manifest f))
    | none => r.manifest

/-- The manifest of an archive, under `Vocabulary.manifestPath`. -/
def ofArchive (d : Zip.Directory) : Except Error Manifest :=
  match (d.find? Vocabulary.manifestPath.toUTF8.toList).bind fun e =>
      (d.open? e).map fun opened => (e, opened) with
  | none => .error (.format .noManifest)
  | some (e, method, packed) =>
    match Zip.unpackText method packed e.crc with
    | .error fault => .error (.stream fault)
    | .ok document => parse document

end Manifest

end OpenDocument
