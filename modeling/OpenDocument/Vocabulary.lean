/-!
# OpenDocument.Vocabulary

The fixed names of OpenDocument packages: media types, paths of the parts, and the namespaces and
identifiers that a manifest uses.
-/

namespace OpenDocument.Vocabulary

/-- The version of the format that is written. -/
def officeVersion : String := "1.2"

/-! ## Media types -/

def textMediaType : String := "application/vnd.oasis.opendocument.text"
def spreadsheetMediaType : String := "application/vnd.oasis.opendocument.spreadsheet"
def presentationMediaType : String := "application/vnd.oasis.opendocument.presentation"
def drawingMediaType : String := "application/vnd.oasis.opendocument.graphics"
def chartMediaType : String := "application/vnd.oasis.opendocument.chart"
def formulaMediaType : String := "application/vnd.oasis.opendocument.formula"

/-- The media type of the parts of a document. -/
def markupMediaType : String := "text/xml"

/-! ## Paths -/

def mimetypePath : String := "mimetype"
def contentPath : String := "content.xml"
def metaPath : String := "meta.xml"
def settingsPath : String := "settings.xml"
def stylesPath : String := "styles.xml"
def manifestPath : String := "META-INF/manifest.xml"

/-- The entries that a package writer writes itself. They are never encrypted. -/
def reservedPaths : List String := [mimetypePath, manifestPath]

/-- Whether an entry is one of `reservedPaths`. -/
def isReserved (path : String) : Bool :=
  reservedPaths.contains path

/-! ## Identifiers in manifests -/

/-- The namespace of manifests. -/
def manifestNamespace : String := "urn:oasis:names:tc:opendocument:xmlns:manifest:1.0"

/-- The namespace of the additional attributes. -/
def extensionNamespace : String := "urn:odpack:xmlns:manifest-ext:1.0"

def aes128Algorithm : String := "http://www.w3.org/2001/04/xmlenc#aes128-cbc"
def aes192Algorithm : String := "http://www.w3.org/2001/04/xmlenc#aes192-cbc"
def aes256Algorithm : String := "http://www.w3.org/2001/04/xmlenc#aes256-cbc"

def sha256StartKey : String := "http://www.w3.org/2000/09/xmldsig#sha256"
def sha1StartKey : String := "SHA1"

/-- The key derivation, which is PBKDF2 with HMAC-SHA1. -/
def keyDerivation : String := "PBKDF2"

/-- The checksum over the whole content. -/
def contentChecksum : String := "urn:oasis:names:tc:opendocument:xmlns:manifest:1.0#sha256"

/-- The checksum over the beginning of the compressed content. -/
def leadingChecksum : String := "urn:oasis:names:tc:opendocument:xmlns:manifest:1.0#sha256-1k"

/-- The transformation that encrypts an entry. -/
def cipherTransformation : String := "AES/CBC/ISO10126Padding"

end OpenDocument.Vocabulary
