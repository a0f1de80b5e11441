import OpenDocument.Package.Archive

/-!
# OpenDocument.Proofs.Archive

Archives from outside.  Calls are data here, and an archive is known by its answers: `Judges` says
that they depend on nothing but the shapes of the calls, not on the content that is written.  Two
archives that judge alike give equal answers to calls of equal shape, one call after the other
(`Agree.perform`).
-/

namespace OpenDocument

namespace Archive

variable {α β : Type} [Archive α] [Archive β]

/-! ## Calls -/

/-- What a call answers, and the archive after it: `writeEntry` or `finish`. -/
def perform (a : α) : Call → Except Error Unit × α
  | .write path data method => writeEntry a path data method
  | .finish => finish a

/-- The archive after a sequence of calls, each made by `perform`. -/
def performAll (a : α) (cs : List Call) : α :=
  cs.foldl (fun a c => (perform a c).2) a

theorem performAll_concat (a : α) (cs : List Call) (c : Call) :
    performAll a (cs ++ [c]) = (perform (performAll a cs) c).2 :=
  List.foldl_append

/-- What every `perform` keeps, calls one after the other keep. -/
theorem performAll_induction {P : α → Prop} (call : ∀ a c, P a → P (perform a c).2) {a : α}
    (h : P a) (cs : List Call) : P (performAll a cs) := by
  induction cs generalizing a with
  | nil => exact h
  | cons c cs ih => exact ih (call a c h)

/-- What of a call shows without its content. -/
inductive Shape where
  | write (path : String) (length : Nat) (method : Zip.Method)
  | finish
  deriving DecidableEq, Repr

/-- The shape of a call: path, length and method of a `write`. -/
def Call.shape : Call → Shape
  | .write path data method => .write path data.length method
  | .finish => .finish

/-- A traced archive answers like the archive in it, and keeps the call. -/
theorem Traced.perform_eq (t : Traced α) (c : Call) :
    perform t c = ((perform t.archive c).1,
      ⟨(perform t.archive c).2, t.calls ++ [⟨c, failure? (perform t.archive c).1⟩]⟩) := by
  cases c <;> rfl

theorem Traced.perform_of_eq {t : Traced α} {c : Call} {result : Except Error Unit} {a : α}
    (h : perform t.archive c = (result, a)) :
    perform t c = (result, ⟨a, t.calls ++ [⟨c, failure? result⟩]⟩) := by
  rw [perform_eq, h]

/-! ## Archives that do not look into contents -/

/-- An archive whose answer to a call is told by the shapes of the calls made so far, and so also by
their number, and by the shape of the call itself. -/
def Judges (verdict : List Shape → Shape → Except Error Unit) (a : α) : Prop :=
  ∀ (cs : List Call) (c : Call),
    (perform (performAll a cs) c).1 = verdict (cs.map Call.shape) c.shape

/-- Two archives that judge alike (`Judges`), by one verdict. -/
def Agree (a : α) (b : β) : Prop :=
  ∃ verdict, Judges verdict a ∧ Judges verdict b

/-- An archive that `Judges` goes on judging by what it has seen. -/
theorem Judges.perform {verdict : List Shape → Shape → Except Error Unit} {a : α}
    (h : Judges verdict a) (c : Call) :
    Judges (fun seen => verdict (c.shape :: seen)) (perform a c).2 :=
  fun cs => h (c :: cs)

/-- Archives that `Agree` answer calls of one shape alike, and go on judging alike. -/
theorem Agree.perform {a : α} {b : β} (h : Agree a b) {c c' : Call} (hc : c.shape = c'.shape) :
    (Archive.perform a c).1 = (Archive.perform b c').1
      ∧ Agree (Archive.perform a c).2 (Archive.perform b c').2 := by
  obtain ⟨verdict, ha, hb⟩ := h
  refine ⟨?_, _, ha.perform c, ?_⟩
  · exact (ha [] c).trans ((congrArg (verdict []) hc).trans (hb [] c').symm)
  · rw [hc]
    exact hb.perform c'

/-- An archive that refuses nothing. -/
def AcceptsAll (a : α) : Prop :=
  Judges (fun _ _ => .ok ()) a

theorem AcceptsAll.perform {a : α} (h : AcceptsAll a) (c : Call) :
    (Archive.perform a c).1 = .ok () ∧ AcceptsAll (Archive.perform a c).2 :=
  ⟨h [] c, Judges.perform h c⟩

/-- A `Traced` archive that refuses nothing keeps every call as one that was taken. -/
theorem AcceptsAll.exists_traced {t : Traced α} (h : AcceptsAll t.archive) (c : Call) :
    ∃ t', Archive.perform t c = (.ok (), t') ∧ AcceptsAll t'.archive
      ∧ t'.calls = t.calls ++ [⟨c, none⟩] := by
  obtain ⟨hr, ha⟩ := h.perform c
  rw [Traced.perform_eq, hr]
  exact ⟨_, rfl, ha, rfl⟩

end Archive

end OpenDocument
