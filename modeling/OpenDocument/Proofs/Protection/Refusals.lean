import OpenDocument.Proofs.Protection.Protocol

/-!
# OpenDocument.Proofs.Protection.Refusals

Refused calls leave no trace.  A call is refused up front when the package is complete or given up,
or for its path; which calls are, depends on everything that was done before (`refuses?`).  A
refused call changes nothing (`Step.eq_of_refuses?`), so the calls behind it meet the writers that
they would have met without it: the run without its refused calls (`retained`) is the same run,
turn by turn.
-/

namespace OpenDocument

open Archive (Traced failure?)

namespace ProtectedWriter

variable {α ρ : Type}

/-! ## Refusing up front -/

/-- Why a call is refused before anything is done for it: the phase is not `writing` (`refusal?`),
or else `checkPath` does not pass the path. -/
def refuses? (w : ProtectedWriter α ρ) : Request → Option Error
  | .write path _ _ _ => w.refusal?.or (failure? (checkPath w.written path))
  | .close => w.refusal?

/-- `refuses?` has no reason exactly if `admits` lets the call past the checks it begins with. -/
theorem refuses?_eq_none_iff {w : ProtectedWriter α ρ} {q : Request} :
    w.refuses? q = none ↔ w.admits q = true := by
  cases q with
  | close => rw [refuses?, refusal?_eq_none_iff, admits_close_iff]
  | write path mediaType content encrypt =>
      rw [refuses?, Option.or_eq_none_iff, refusal?_eq_none_iff, admits_write_iff]
      cases checkPath w.written path <;> simp [failure?]

/-- Whether `refuses?` had a reason to refuse the call of a turn up front. -/
def Turn.refused (t : Turn α ρ) : Bool :=
  (t.before.refuses? t.request).isSome

variable [Archive α] [RandomSource ρ]

/-- A call that `refuses?` has a reason for answers it, and changes nothing. -/
theorem Step.eq_of_refuses? {w w' : ProtectedWriter α ρ} {q : Request}
    {result : Except Error Unit} (h : Step w q result w') {e : Error}
    (he : w.refuses? q = some e) : result = .error e ∧ w' = w := by
  have admitted : w.admits q = true → result = .error e ∧ w' = w := by
    intro ha
    rw [refuses?_eq_none_iff.mpr ha] at he
    cases he
  cases h with
  | @refused q e' hr =>
      have hq : w.refuses? q = some e' := by cases q <;> simp [refuses?, hr]
      rw [hq] at he
      cases he
      exact ⟨rfl, rfl⟩
  | rejected hw hp =>
      rw [refuses?, (refusal?_eq_none_iff w).mpr hw, hp] at he
      cases he
      exact ⟨rfl, rfl⟩
  | unencrypted hw hp | encryptedLost hw hp | encrypted hw hp | clearLost hw hp | clear hw hp =>
      exact admitted (admits_write_iff.mpr ⟨hw, hp⟩)
  | manifestLost hw | unfinished hw | closed hw => exact admitted (admits_close_iff.mpr hw)

/-! ## Runs without their refused calls -/

/-- The calls of a run that are not `Turn.refused`. -/
def retained (w : ProtectedWriter α ρ) (qs : List Request) : List Request :=
  ((w.turns qs).filter fun t => !t.refused).map Turn.request

section

variable {w : ProtectedWriter α ρ} {q : Request}

theorem filter_turns_of_refuses? {e : Error} (he : w.refuses? q = some e) (qs : List Request) :
    (w.turns (q :: qs)).filter (fun t => !t.refused) = (w.turns qs).filter fun t => !t.refused := by
  rw [turns_cons, List.filter_cons_of_neg (by simp [Turn.refused, he]),
    ((step_serve w q).eq_of_refuses? he).2]

theorem filter_turns_of_admitted (he : w.refuses? q = none) (qs : List Request) :
    (w.turns (q :: qs)).filter (fun t => !t.refused)
      = ⟨w, q⟩ :: ((w.serve q).2.turns qs).filter fun t => !t.refused := by
  rw [turns_cons, List.filter_cons_of_pos (by simp [Turn.refused, he])]

theorem retained_cons_of_refuses? {e : Error} (he : w.refuses? q = some e) (qs : List Request) :
    w.retained (q :: qs) = w.retained qs := by
  rw [retained, filter_turns_of_refuses? he, retained]

theorem retained_cons_of_admitted (he : w.refuses? q = none) (qs : List Request) :
    w.retained (q :: qs) = q :: (w.serve q).2.retained qs := by
  rw [retained, filter_turns_of_admitted he, List.map_cons, retained]

end

/-- The `retained` calls meet the same writers without the others. -/
theorem turns_retained (w : ProtectedWriter α ρ) (qs : List Request) :
    w.turns (w.retained qs) = (w.turns qs).filter fun t => !t.refused := by
  induction qs generalizing w with
  | nil => rfl
  | cons q qs ih =>
      cases he : w.refuses? q with
      | some e => rw [retained_cons_of_refuses? he, filter_turns_of_refuses? he, ih]
      | none => rw [retained_cons_of_admitted he, filter_turns_of_admitted he, turns_cons, ih]

/-- The `run` of the `retained` calls ends in the same state. -/
theorem run_retained (w : ProtectedWriter α ρ) (qs : List Request) :
    w.run (w.retained qs) = w.run qs := by
  induction qs generalizing w with
  | nil => rfl
  | cons q qs ih =>
      cases he : w.refuses? q with
      | some e =>
          rw [retained_cons_of_refuses? he, ih, run_cons, ((step_serve w q).eq_of_refuses? he).2]
      | none => rw [retained_cons_of_admitted he, run_cons, ih, run_cons]

/-- **Refused calls leave no trace.**  A call that is refused up front answers the error of
`refuses?` and changes nothing.  With the `retained` calls alone, each of them meets the same writer
and so has the same answer, hands the same bytes to the archive and makes the same draws; and the
writer at the end is the same, with the log of its archive, the draws from its source, its ledger,
the vectors and paths that it has used, and its phase. -/
theorem traceless_run (w : ProtectedWriter (Traced α) (RecordedRandom ρ)) (qs : List Request) :
    (∀ t ∈ w.turns qs, ∀ e, t.before.refuses? t.request = some e →
      t.result = .error e ∧ t.after = t.before)
    ∧ w.turns (w.retained qs) = (w.turns qs).filter (fun t => !t.refused)
    ∧ w.run (w.retained qs) = w.run qs :=
  ⟨fun t _ _ he => t.step.eq_of_refuses? he, turns_retained w qs, run_retained w qs⟩

end ProtectedWriter

end OpenDocument
