import OpenDocument.Error
import OpenDocument.Zip.Writer

/-!
# OpenDocument.Package.Archive

Where the entries of a package go. An archive takes one complete entry at a time and is finished
once; any of its calls may fail. A traced archive keeps the calls made on it, with their
failures.
-/

namespace OpenDocument

/-- Something that takes the entries of a package. -/
class Archive (α : Type) where
  /-- Append one entry. -/
  writeEntry : α → (path : String) → (data : Bytes) → Zip.Method → Except Error Unit × α
  /-- Write the directory. -/
  finish : α → Except Error Unit × α

/-- The result of an archive call, with the error of a package. -/
def ofZipResult {β : Type} : Except Zip.Fault Unit × β → Except Error Unit × β
  | (.ok (), b) => (.ok (), b)
  | (.error fault, b) => (.error (.ofArchive fault), b)

instance {σ : Type} [Sink σ] : Archive (Zip.Writer σ) where
  writeEntry w path data method := ofZipResult (w.writeEntry path data method)
  finish w := ofZipResult w.finish

namespace Archive

/-- A call on an `Archive`, with its arguments. -/
inductive Call where
  | write (path : String) (data : Bytes) (method : Zip.Method)
  | finish
  deriving DecidableEq, Repr

/-- A call that was made, with its failure if it failed. -/
structure Made where
  call : Call
  failure : Option Error
  deriving DecidableEq, Repr

/-- The failure of a result, as a `Made` call keeps it. -/
def failure? : Except Error Unit → Option Error
  | .ok () => none
  | .error e => some e

/-- A result has a failure exactly if it is that error. -/
theorem failure?_eq_some_iff {result : Except Error Unit} {e : Error} :
    failure? result = some e ↔ result = .error e := by
  cases result <;> simp [failure?]

/-- An archive with the calls made on it, in order. -/
structure Traced (α : Type) where
  archive : α
  calls : List Made := []

instance {α : Type} [Archive α] : Archive (Traced α) where
  writeEntry t path data method :=
    let (result, archive) := writeEntry t.archive path data method
    (result, ⟨archive, t.calls ++ [⟨.write path data method, failure? result⟩]⟩)
  finish t :=
    let (result, archive) := finish t.archive
    (result, ⟨archive, t.calls ++ [⟨.finish, failure? result⟩]⟩)

end Archive

end OpenDocument
