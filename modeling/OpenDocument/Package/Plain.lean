import OpenDocument.Manifest.Document
import OpenDocument.Package.Archive
import OpenDocument.Package.Writer

/-!
# OpenDocument.Package.Plain

Packages in the clear. The media type is written first and stored, every file is deflated, and
the manifest is written when the package is closed. A file that the archive refuses is not
listed in the manifest, and the writer goes on; a package is closed by the first attempt, even one
that fails.
-/

namespace OpenDocument

/-- A package being written to an archive, all of it in the clear; compare `ProtectedWriter`. -/
structure PlainWriter (α : Type) where
  archive : α
  manifest : Manifest
  /-- The paths of the files written so far, last one first. -/
  written : List String := []
  closed : Bool := false

namespace PlainWriter

variable {α : Type} [Archive α]

/-- Begin a package: write its media type. A refusal hands the archive back. -/
def create (archive : α) (mediaType : String) : Except (Error × α) (PlainWriter α) :=
  match checkMediaType mediaType with
  | .error e => .error (e, archive)
  | .ok () =>
    match Archive.writeEntry archive Vocabulary.mimetypePath mediaType.toUTF8.toList .stored with
    | (.error e, archive) => .error (e, archive)
    | (.ok (), archive) => .ok { archive, manifest := { mediaType } }

/-- Add a file: check its path by `checkPath`, write it, and list it in the manifest. -/
def add (w : PlainWriter α) (path mediaType : String) (content : Bytes) :
    Except Error Unit × PlainWriter α :=
  if w.closed then (.error .writerClosed, w)
  else
    match checkPath w.written path with
    | .error e => (.error e, w)
    | .ok () =>
      match Archive.writeEntry w.archive path content .deflated with
      | (.error e, archive) => (.error e, { w with archive })
      | (.ok (), archive) =>
        (.ok (), { w with
          archive
          manifest := w.manifest.push (Entry.clear path mediaType)
          written := path :: w.written })

/-- Write the manifest and complete the archive. The package counts as `closed` whatever becomes of
that. -/
def close (w : PlainWriter α) : Except Error Unit × PlainWriter α :=
  if w.closed then (.error .writerClosed, w)
  else
    match Archive.writeEntry w.archive Vocabulary.manifestPath w.manifest.toXml.toUTF8.toList
        .deflated with
    | (.error e, archive) => (.error e, { w with archive, closed := true })
    | (.ok (), archive) =>
      let (result, archive) := Archive.finish archive
      (result, { w with archive, closed := true })

end PlainWriter

instance {α : Type} [Archive α] : PackageWriter (PlainWriter α) where
  add := PlainWriter.add
  close := PlainWriter.close

end OpenDocument
