import OpenDocument.Stream

/-!
# OpenDocument.Zip.Basic

How an archive holds an entry, and what can go wrong with an archive.
-/

namespace OpenDocument.Zip

/-- How the bytes of an entry are laid down. -/
inductive Method where
  /-- As they are. -/
  | stored
  /-- Compressed by the archive. -/
  | deflated
  deriving DecidableEq, Repr

/-- The number of a method in the headers. -/
def Method.code : Method → Nat
  | .stored => 0
  | .deflated => 8

/-- The method with a number. -/
def Method.ofCode? (code : Nat) : Option Method :=
  if code = 0 then some .stored else if code = 8 then some .deflated else none

theorem Method.ofCode?_code (m : Method) : ofCode? m.code = some m := by
  cases m <;> rfl

/-- What makes an archive invalid. -/
inductive Invalid where
  /-- Two entries of one name. -/
  | duplicateName (name : String)
  | other (detail : String)
  deriving DecidableEq, Repr

/-- The wording of a defect. -/
def Invalid.message : Invalid → String
  | .duplicateName name => "Duplicate filename: " ++ name
  | .other detail => detail

/-- A fault of an archive. -/
inductive Fault where
  /-- The stream below the archive failed. -/
  | stream (fault : StreamFault)
  | entryNotFound
  | invalid (defect : Invalid)
  | wrongPassword
  /-- The directory was written before, or was to be written. -/
  | alreadyFinished
  /-- The archive was asked for before it was complete. -/
  | notFinished
  | other (detail : String)
  deriving DecidableEq, Repr

/-- The wording of a fault. -/
def Fault.message : Fault → String
  | .stream fault => "i/o error: " ++ fault.message
  | .entryNotFound => "specified file not found in archive"
  | .invalid defect => "invalid Zip archive: " ++ defect.message
  | .wrongPassword => "provided password is incorrect"
  | .alreadyFinished => "archive already finished"
  | .notFinished => "archive has not been finished"
  | .other detail => detail

end OpenDocument.Zip
