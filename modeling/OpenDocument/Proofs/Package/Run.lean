import OpenDocument.Package.Plain

/-!
# OpenDocument.Proofs.Package.Run

Runs of package writers.  `replay` makes calls one after the other and keeps their answers, and
`visits` lists the calls with the writers that they met; a relation between two writers that every
call keeps, with equal answers, is kept by whole runs (`replay_lockstep`).  `PlainWriter.Step` lists
everything a call can do to a plain writer, one constructor for each way through `add` and `close`;
`PlainWriter.step_serve` says that the list is complete.
-/

namespace OpenDocument

/-! ## Runs -/

section

variable {ω ω' κ : Type}

/-- The answers of calls made one after the other by `serve`, and the state after them. -/
def replay (serve : ω → κ → Except Error Unit × ω) : ω → List κ → List (Except Error Unit) × ω
  | w, [] => ([], w)
  | w, q :: qs =>
    let (result, w) := serve w q
    let (results, w) := replay serve w qs
    (result :: results, w)

variable {serve : ω → κ → Except Error Unit × ω}

@[simp] theorem replay_nil (w : ω) : replay serve w [] = ([], w) := rfl

@[simp] theorem replay_cons (w : ω) (q : κ) (qs : List κ) :
    replay serve w (q :: qs) = ((serve w q).1 :: (replay serve (serve w q).2 qs).1,
      (replay serve (serve w q).2 qs).2) := rfl

theorem replay_concat (w : ω) (qs : List κ) (q : κ) :
    replay serve w (qs ++ [q]) = ((replay serve w qs).1 ++ [(serve (replay serve w qs).2 q).1],
      (serve (replay serve w qs).2 q).2) := by
  induction qs generalizing w with
  | nil => rfl
  | cons q' qs ih => rw [List.cons_append, replay_cons, ih, replay_cons]; rfl

theorem length_replay (w : ω) (qs : List κ) : (replay serve w qs).1.length = qs.length := by
  induction qs generalizing w with
  | nil => rfl
  | cons q qs ih => rw [replay_cons, List.length_cons, ih, List.length_cons]

/-- What every call of `serve` keeps, a `replay` keeps. -/
theorem replay_induction {P : ω → Prop} (step : ∀ w q, P w → P (serve w q).2) {w : ω} (h : P w)
    (qs : List κ) : P (replay serve w qs).2 := by
  induction qs generalizing w with
  | nil => exact h
  | cons q qs ih => exact ih (step w q h)

/-- Two machines between which `R` holds, and that answer alike call by call, answer alike over a
`replay`.  The calls may be of one `sort`, and the answers of the second machine of the `usable`
ones. -/
theorem replay_lockstep (serve : ω → κ → Except Error Unit × ω)
    (serve' : ω' → κ → Except Error Unit × ω') (R : ω → ω' → Prop) (sort : κ → Prop)
    (usable : Except Error Unit → Prop)
    (step : ∀ w w' q, R w w' → sort q → usable (serve' w' q).1 →
      (serve w q).1 = (serve' w' q).1 ∧ R (serve w q).2 (serve' w' q).2)
    {w : ω} {w' : ω'} (h : R w w') {qs : List κ} (hq : ∀ q ∈ qs, sort q)
    (hu : ∀ r ∈ (replay serve' w' qs).1, usable r) :
    (replay serve w qs).1 = (replay serve' w' qs).1
      ∧ R (replay serve w qs).2 (replay serve' w' qs).2 := by
  induction qs generalizing w w' with
  | nil => exact ⟨rfl, h⟩
  | cons q qs ih =>
      simp only [replay_cons, List.forall_mem_cons] at hq hu ⊢
      obtain ⟨hr, hR⟩ := step w w' q h hq.1 hu.1
      obtain ⟨hrs, hRs⟩ := ih hR hq.2 hu.2
      exact ⟨by rw [hr, hrs], hRs⟩

end

/-! ## Turns of a run -/

/-- One call of a run, with the state `before` that it met. -/
structure Visit (ω κ : Type) where
  before : ω
  request : κ

section

variable {ω κ : Type}

/-- The calls of a run, in order, each with the state that it met. -/
def visits (serve : ω → κ → Except Error Unit × ω) : ω → List κ → List (Visit ω κ)
  | _, [] => []
  | w, q :: qs => ⟨w, q⟩ :: visits serve (serve w q).2 qs

variable {serve : ω → κ → Except Error Unit × ω}

@[simp] theorem visits_nil (w : ω) : visits serve w [] = [] := rfl

@[simp] theorem visits_cons (w : ω) (q : κ) (qs : List κ) :
    visits serve w (q :: qs) = ⟨w, q⟩ :: visits serve (serve w q).2 qs := rfl

/-- The `visits` of a run in front of one call, and those behind it, are themselves the `visits` of
runs. -/
theorem visits_eq_append_cons {w : ω} {qs : List κ} {pre post : List (Visit ω κ)} {v : Visit ω κ}
    (h : visits serve w qs = pre ++ v :: post) :
    ∃ qs₁ qs₂, pre = visits serve w qs₁ ∧ v.before = (replay serve w qs₁).2
      ∧ post = visits serve (serve v.before v.request).2 qs₂ := by
  induction pre generalizing w qs with
  | nil =>
      cases qs with
      | nil => simp at h
      | cons q qs =>
          simp only [visits_cons, List.nil_append, List.cons.injEq] at h
          obtain ⟨rfl, rfl⟩ := h
          exact ⟨[], qs, rfl, rfl, rfl⟩
  | cons s pre ih =>
      cases qs with
      | nil => simp at h
      | cons q qs =>
          simp only [visits_cons, List.cons_append, List.cons.injEq] at h
          obtain ⟨rfl, h⟩ := h
          obtain ⟨qs₁, qs₂, rfl, hb, hp⟩ := ih h
          exact ⟨q :: qs₁, qs₂, rfl, hb, hp⟩

/-- The state that a call met is the one after a `replay` of the calls in front of it. -/
theorem exists_replay_of_mem_visits {w : ω} {qs : List κ} {v : Visit ω κ}
    (h : v ∈ visits serve w qs) : ∃ qs₁, v.before = (replay serve w qs₁).2 := by
  obtain ⟨pre, post, h⟩ := List.append_of_mem h
  obtain ⟨qs₁, -, -, hb, -⟩ := visits_eq_append_cons h
  exact ⟨qs₁, hb⟩

end

/-! ## Plain writers -/

namespace PlainWriter

/-- `create` begins a package by writing its media type, and by nothing else. -/
theorem exists_of_create {α : Type} [Archive α] {archive : α} {mediaType : String}
    {w : PlainWriter α} (h : create archive mediaType = .ok w) :
    ∃ archive', Archive.writeEntry archive Vocabulary.mimetypePath mediaType.toUTF8.toList .stored
        = (.ok (), archive')
      ∧ w = { archive := archive', manifest := { mediaType } } := by
  unfold create at h
  split at h
  · cases h
  · split at h
    · cases h
    · next archive' ha =>
        cases h
        exact ⟨archive', ha, rfl⟩

/-- A call on a plain writer: `add` with its arguments, or `close`. -/
inductive Request where
  | add (path mediaType : String) (content : Bytes)
  | close
  deriving DecidableEq, Repr

variable {α : Type} [Archive α]

/-- What a call answers, and the writer after it. -/
def serve (w : PlainWriter α) : Request → Except Error Unit × PlainWriter α
  | .add path mediaType content => w.add path mediaType content
  | .close => w.close

/-- Everything a call can do to a plain writer: `Step w q result w'` if the call `q` on `w` answers
`result` and leaves `w'`. -/
inductive Step (w : PlainWriter α) : Request → Except Error Unit → PlainWriter α → Prop
  /-- The package was `closed` before. -/
  | refused {q : Request} (hc : w.closed = true) : Step w q (.error .writerClosed) w
  /-- The path does not pass `checkPath`. -/
  | rejected {path mediaType : String} {content : Bytes} {e : Error} (hc : w.closed = false)
      (hp : checkPath w.written path = .error e) :
      Step w (.add path mediaType content) (.error e) w
  /-- The archive did not take the content. -/
  | lost {path mediaType : String} {content : Bytes} {e : Error} {archive : α}
      (hc : w.closed = false) (hp : checkPath w.written path = .ok ())
      (ha : Archive.writeEntry w.archive path content .deflated = (.error e, archive)) :
      Step w (.add path mediaType content) (.error e) { w with archive }
  /-- The content was written and listed. -/
  | added {path mediaType : String} {content : Bytes} {archive : α} (hc : w.closed = false)
      (hp : checkPath w.written path = .ok ())
      (ha : Archive.writeEntry w.archive path content .deflated = (.ok (), archive)) :
      Step w (.add path mediaType content) (.ok ())
        { w with archive, manifest := w.manifest.push (.clear path mediaType)
                 written := path :: w.written }
  /-- The archive did not take the manifest. -/
  | manifestLost {e : Error} {archive : α} (hc : w.closed = false)
      (ha : Archive.writeEntry w.archive Vocabulary.manifestPath w.manifest.toXml.toUTF8.toList
        .deflated = (.error e, archive)) :
      Step w .close (.error e) { w with archive, closed := true }
  /-- The manifest was written, and the archive has finished or has failed to. -/
  | closed {result : Except Error Unit} {archive archive' : α} (hc : w.closed = false)
      (ha : Archive.writeEntry w.archive Vocabulary.manifestPath w.manifest.toXml.toUTF8.toList
        .deflated = (.ok (), archive))
      (hf : Archive.finish archive = (result, archive')) :
      Step w .close result { w with archive := archive', closed := true }

/-- A `Step` tells what `serve` does. -/
theorem Step.serve_eq {w w' : PlainWriter α} {q : Request} {result : Except Error Unit}
    (h : Step w q result w') : w.serve q = (result, w') := by
  cases h with
  | refused hc => cases q <;> simp only [serve, add, close, hc, if_true]
  | rejected hc hp => simp only [serve, add, hc, Bool.false_eq_true, if_false, hp]
  | lost hc hp ha | added hc hp ha =>
      simp only [serve, add, hc, Bool.false_eq_true, if_false, hp, ha]
  | manifestLost hc ha => simp only [serve, close, hc, Bool.false_eq_true, if_false, ha]
  | closed hc ha hf => simp only [serve, close, hc, Bool.false_eq_true, if_false, ha, hf]

/-- Every call makes a `Step`. -/
theorem exists_step (w : PlainWriter α) (q : Request) : ∃ result w', Step w q result w' := by
  cases hc : w.closed with
  | true => exact ⟨_, _, .refused hc⟩
  | false =>
      cases q with
      | add path mediaType content =>
          cases hp : checkPath w.written path with
          | error e => exact ⟨_, _, .rejected hc hp⟩
          | ok u =>
              cases ha : Archive.writeEntry w.archive path content .deflated with
              | mk result archive =>
                  cases result with
                  | error e => exact ⟨_, _, .lost hc hp ha⟩
                  | ok u => exact ⟨_, _, .added hc hp ha⟩
      | close =>
          cases ha : Archive.writeEntry w.archive Vocabulary.manifestPath
              w.manifest.toXml.toUTF8.toList .deflated with
          | mk result archive =>
              cases result with
              | error e => exact ⟨_, _, .manifestLost hc ha⟩
              | ok u => exact ⟨_, _, .closed hc ha rfl⟩

/-- What `serve` does is a `Step`. -/
theorem step_serve (w : PlainWriter α) (q : Request) : Step w q (w.serve q).1 (w.serve q).2 := by
  obtain ⟨result, w', h⟩ := exists_step w q
  rw [h.serve_eq]
  exact h

end PlainWriter

end OpenDocument
