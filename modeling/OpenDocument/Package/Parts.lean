import OpenDocument.Package.Writer

/-!
# OpenDocument.Package.Parts

The four parts of a document, a skeleton for each of them, and writing them to a package.
-/

namespace OpenDocument

/-- The parts of a document, as markup; `Parts.files` gives them their paths. -/
structure Parts where
  content : String
  styles : String
  metadata : String
  settings : String
  deriving DecidableEq, Repr

/-! ## Skeletons -/

namespace Skeleton

/-- The lines of a part. -/
def lines (ls : List String) : String :=
  String.join (ls.map (· ++ "\n"))

/-- The line that every part begins with. -/
def declaration : String :=
  "<?xml version=\"1.0\" encoding=\"UTF-8\"?>"

/-- The declaration of the namespace of document structure. -/
def officeNamespace : String :=
  "xmlns:office=\"urn:oasis:names:tc:opendocument:xmlns:office:1.0\""

/-- The attribute that states the version of the format. -/
def versionAttribute : String :=
  "office:version=\"" ++ Vocabulary.officeVersion ++ "\""

/-- The content of a document with an empty body element. -/
def content (bodyElement : String) : String :=
  lines
    [declaration,
     "<office:document-content " ++ officeNamespace,
     "                          xmlns:table=\"urn:oasis:names:tc:opendocument:xmlns:table:1.0\"",
     "                          xmlns:text=\"urn:oasis:names:tc:opendocument:xmlns:text:1.0\"",
     "                          " ++ versionAttribute ++ ">",
     "  <office:automatic-styles/>",
     "  <office:body>",
     "    <" ++ bodyElement ++ "/>",
     "  </office:body>",
     "</office:document-content>"]

/-- Styles without any style. -/
def styles : String :=
  lines
    [declaration,
     "<office:document-styles " ++ officeNamespace,
     "                         xmlns:style=\"urn:oasis:names:tc:opendocument:xmlns:style:1.0\"",
     "                         " ++ versionAttribute ++ ">",
     "  <office:styles/>",
     "  <office:automatic-styles/>",
     "  <office:master-styles/>",
     "</office:document-styles>"]

/-- The program that parts without an author name as their origin. -/
def generator : String :=
  "odpack/0.0.1"

/-- Metadata that state the generator only. -/
def metadata : String :=
  lines
    [declaration,
     "<office:document-meta " ++ officeNamespace,
     "                       xmlns:meta=\"urn:oasis:names:tc:opendocument:xmlns:meta:1.0\"",
     "                       " ++ versionAttribute ++ ">",
     "  <office:meta>",
     "    <meta:generator>" ++ generator ++ "</meta:generator>",
     "  </office:meta>",
     "</office:document-meta>"]

/-- Settings without any setting. -/
def settings : String :=
  lines
    [declaration,
     "<office:document-settings " ++ officeNamespace,
     "                           xmlns:config=\"urn:oasis:names:tc:opendocument:xmlns:config:1.0\"",
     "                           " ++ versionAttribute ++ ">",
     "  <office:settings/>",
     "</office:document-settings>"]

end Skeleton

/-- The least document with the given body element. -/
def Parts.skeleton (bodyElement : String) : Parts where
  content := Skeleton.content bodyElement
  styles := Skeleton.styles
  metadata := Skeleton.metadata
  settings := Skeleton.settings

/-! ## Writing -/

/-- The paths of the parts with their text, in the order in which `Parts.write` writes them. -/
def Parts.files (p : Parts) : List (String × String) :=
  [(Vocabulary.metaPath, p.metadata), (Vocabulary.stylesPath, p.styles),
   (Vocabulary.contentPath, p.content), (Vocabulary.settingsPath, p.settings)]

/-- Write markup files to a package by `PackageWriter.add`, up to the first that is refused. -/
def writeFiles {ω : Type} [PackageWriter ω] (w : ω) :
    List (String × String) → Except Error Unit × ω
  | [] => (.ok (), w)
  | (path, text) :: rest =>
    match PackageWriter.add w path Vocabulary.markupMediaType text.toUTF8.toList with
    | (.error e, w) => (.error e, w)
    | (.ok (), w) => writeFiles w rest

/-- Write the parts of a document to a package. -/
def Parts.write {ω : Type} [PackageWriter ω] (p : Parts) (w : ω) : Except Error Unit × ω :=
  writeFiles w p.files

end OpenDocument
