import OpenDocument.Error
import OpenDocument.Text.Blank
import OpenDocument.Vocabulary

/-!
# OpenDocument.Package.Writer

What plain and protected package writers have in common: they take files and are closed, and they
refuse the same media types and paths.
-/

namespace OpenDocument

/-- Something that builds a package file by file, such as `PlainWriter` and `ProtectedWriter`. -/
class PackageWriter (ω : Type) where
  /-- Add a file. -/
  add : ω → (path mediaType : String) → (content : Bytes) → Except Error Unit × ω
  /-- Write the manifest and complete the archive. -/
  close : ω → Except Error Unit × ω

/-- A package must have a media type that is not blank, as `Text.isBlank` says. -/
def checkMediaType (mediaType : String) : Except Error Unit :=
  if (Text.trim mediaType.toList).isEmpty then .error (.configuration .mediaTypeNotSet) else .ok ()

/-- A path must not be empty, absolute, reserved or already written. -/
def checkPath (written : List String) (path : String) : Except Error Unit :=
  if path.isEmpty ∨ path.toList.head? = some '/' then .error (.format (.invalidPath path))
  else if Vocabulary.isReserved path then .error (.format (.reservedPath path))
  else if path ∈ written then .error (.format (.duplicatePath path))
  else .ok ()

/-- A path passes `checkPath` exactly if none of the reasons against it applies. -/
theorem checkPath_eq_ok_iff {written : List String} {path : String} :
    checkPath written path = .ok () ↔
      path ≠ "" ∧ path.toList.head? ≠ some '/' ∧ path ∉ Vocabulary.reservedPaths
        ∧ path ∉ written := by
  have hr : Vocabulary.isReserved path = true ↔ path ∈ Vocabulary.reservedPaths := by
    simp [Vocabulary.isReserved]
  have he : path.isEmpty = true ↔ path = "" := by simp
  unfold checkPath
  split
  · rename_i h
    rcases h with h | h
    · simp [he.mp h]
    · simp [h]
  · rename_i h₁
    rw [not_or, he] at h₁
    split
    · rename_i h₂; simp [hr.mp h₂]
    · rename_i h₂
      rw [hr] at h₂
      split
      · rename_i h₃; simp [h₃]
      · rename_i h₃; simp [h₁, h₂, h₃]

end OpenDocument
