/-!
# OpenDocument.Markup.Fault

What can be wrong with a markup document, and how it is reported: a construct that is not closed,
markup of an unknown kind, and tags or references that do not fit together.
-/

namespace OpenDocument.Markup

/-- A construct with an end of its own. -/
inductive Construct where
  | tag
  /-- An attribute value in the given kind of quotes. -/
  | attributeValue (quote : Char)
  | instruction
  | declaration
  | comment
  | characterData
  | documentType
  deriving DecidableEq, Repr

/-- The name of a construct in reports. -/
def Construct.title : Construct → String
  | .tag => "tag"
  | .attributeValue _ => "attribute value"
  | .instruction => "processing instruction"
  | .declaration => "XML declaration"
  | .comment => "comment"
  | .characterData => "CDATA"
  | .documentType => "DOCTYPE"

/-- What ends a construct. -/
def Construct.terminator : Construct → String
  | .tag => ">"
  | .attributeValue quote => String.singleton quote
  | .instruction => "?>"
  | .declaration => "?>"
  | .comment => "-->"
  | .characterData => "]]>"
  | .documentType => ">"

/-- A fault of a markup document. -/
inductive Fault where
  /-- The source of the document failed. -/
  | source (detail : String)
  | unclosed (what : Construct)
  | unknownMarkup
  | unclosedReference
  | missingDocumentTypeName
  /-- An end tag that names another element than the innermost open one. -/
  | mismatchedEnd (expected found : String)
  /-- An end tag while no element is open. -/
  | unmatchedEnd (name : String)
  deriving DecidableEq, Repr

/-- The wording of a fault. -/
def Fault.message : Fault → String
  | .source detail => "I/O error: " ++ detail
  | .unclosed what =>
    "syntax error: " ++ what.title ++ " not closed: `" ++ what.terminator
      ++ "` not found before end of input"
  | .unknownMarkup => "syntax error: unknown or missed symbol in markup"
  | .unclosedReference =>
    "ill-formed document: entity or character reference not closed: "
      ++ "`;` not found before end of input"
  | .missingDocumentTypeName =>
    "ill-formed document: `<!DOCTYPE>` declaration does not contain a name of a document type"
  | .mismatchedEnd expected found =>
    "ill-formed document: expected `</" ++ expected ++ ">`, but `</" ++ found ++ ">` was found"
  | .unmatchedEnd name =>
    "ill-formed document: close tag `</" ++ name ++ ">` does not match any open tag"

end OpenDocument.Markup
