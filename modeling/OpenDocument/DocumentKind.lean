import OpenDocument.Vocabulary

/-!
# OpenDocument.DocumentKind

The kinds of document, with the media type, file extension and body element of each.
-/

namespace OpenDocument

/-- A kind of document. -/
inductive DocumentKind where
  | text
  | spreadsheet
  | presentation
  | drawing
  | chart
  | formula
  deriving DecidableEq, Repr

namespace DocumentKind

/-- All kinds, in the order of the table of media types. -/
def all : List DocumentKind :=
  [text, spreadsheet, presentation, drawing, chart, formula]

/-- The media type of a package of this kind. -/
def mediaType : DocumentKind → String
  | text => Vocabulary.textMediaType
  | spreadsheet => Vocabulary.spreadsheetMediaType
  | presentation => Vocabulary.presentationMediaType
  | drawing => Vocabulary.drawingMediaType
  | chart => Vocabulary.chartMediaType
  | formula => Vocabulary.formulaMediaType

/-- The file extension. -/
def extension : DocumentKind → String
  | text => "odt"
  | spreadsheet => "ods"
  | presentation => "odp"
  | drawing => "odg"
  | chart => "odc"
  | formula => "odf"

/-- The element that the content of a document has as its body. -/
def bodyElement : DocumentKind → String
  | text => "office:text"
  | spreadsheet => "office:spreadsheet"
  | presentation => "office:presentation"
  | drawing => "office:drawing"
  | chart => "office:chart"
  | formula => "office:formula"

/-- The kind of document that a media type stands for, as `mediaType` has it. -/
def ofMediaType? (mediaType : String) : Option DocumentKind :=
  all.find? fun k => k.mediaType == mediaType

/-- `ofMediaType?` finds a kind again by its media type. -/
theorem ofMediaType?_mediaType (k : DocumentKind) : ofMediaType? k.mediaType = some k := by
  cases k <;> decide

end DocumentKind

/-- The file extension for a media type. -/
def extensionOf? (mediaType : String) : Option String :=
  (DocumentKind.ofMediaType? mediaType).map DocumentKind.extension

/-- Whether a media type is one of a kind of document. -/
def isDocumentMediaType (mediaType : String) : Bool :=
  (extensionOf? mediaType).isSome

end OpenDocument
