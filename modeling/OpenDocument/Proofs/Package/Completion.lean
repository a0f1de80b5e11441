import OpenDocument.Proofs.Package.Finished

/-!
# OpenDocument.Proofs.Package.Completion

An archive does not claim to be complete when it is not.  Finishing it can fail at any write, behind
which it is neither complete nor of further use; `Progress` says which states go with which logs,
and every call keeps it.  The writers of packages make no calls but these (`Step.archive_induction`)
and finish their archives only when they are closed, so a package is complete exactly if a close
has succeeded (`completion_truthful`).  How a finish fails is seen on a `Tape` that is full.
-/

namespace OpenDocument

open Archive (Made Traced failure?)

/-! ## Archives -/

namespace Zip.Writer

variable {σ : Type}

/-- A log in which every call behind a `finish` is turned away, whether the `finish` has failed or
not. -/
def Ends (calls : List Made) : Prop :=
  calls.Pairwise fun made later =>
    made.call = .finish → later.failure = some (.archive .alreadyFinished)

/-- The states of a `Zip.Writer` with the logs that lead to them. -/
inductive Progress : Writer σ → List Made → Prop
  | taking {session : Session σ} {calls : List Made} (hf : ∀ made ∈ calls, made.call ≠ .finish) :
      Progress (.taking session) calls
  | complete {sink : σ} {calls : List Made} (hf : ⟨.finish, none⟩ ∈ calls) (he : Ends calls) :
      Progress (.complete sink) calls
  | spoiled {e : Error} {calls : List Made} (hf : ⟨.finish, some e⟩ ∈ calls)
      (hn : ⟨.finish, none⟩ ∉ calls) (he : Ends calls) : Progress .spoiled calls

/-- What an archive says of itself by `isFinished` and `sink`, measured by the calls that were made
on it. -/
structure Truthful [Sink σ] (t : Traced (Writer σ)) : Prop where
  finished : t.archive.isFinished = true ↔ ⟨.finish, none⟩ ∈ t.calls
  /-- It gives back its `sink` exactly if it is finished, -/
  sink : (∃ sink, t.archive.sink = .ok sink) ↔ ⟨.finish, none⟩ ∈ t.calls
  /-- and says `notFinished` else. -/
  unfinished : ∀ fault, t.archive.sink = .error fault → fault = .notFinished
  /-- Behind the first `finish` it has turned away every call, -/
  ends : Ends t.calls
  /-- and goes on doing so. -/
  next : (∃ made ∈ t.calls, made.call = .finish) →
    ∀ c, Archive.perform t.archive c = (.error (.archive .alreadyFinished), t.archive)

theorem ends_of_not_finish {calls : List Made} (h : ∀ made ∈ calls, made.call ≠ .finish) :
    Ends calls :=
  List.pairwise_of_forall_mem_list fun made hm _ _ hf => absurd hf (h made hm)

/-- A call that is turned away, or one behind no `finish` at all, keeps a log in order (`Ends`). -/
theorem Ends.concat {calls : List Made} (h : Ends calls) {made : Made}
    (hm : made.failure = some (.archive .alreadyFinished)
      ∨ ∀ made ∈ calls, made.call ≠ .finish) : Ends (calls ++ [made]) := by
  refine List.pairwise_append.mpr ⟨h, List.pairwise_singleton _ _, ?_⟩
  intro first hfirst last hlast hf
  rw [List.mem_singleton.mp hlast]
  rcases hm with hm | hm
  · exact hm
  · exact absurd hf (hm first hfirst)

variable [Sink σ]

theorem perform_complete (sink : σ) (c : Archive.Call) :
    Archive.perform (complete sink) c = (.error (.archive .alreadyFinished), complete sink) := by
  cases c <;> rfl

theorem perform_spoiled (c : Archive.Call) :
    Archive.perform (spoiled : Writer σ) c = (.error (.archive .alreadyFinished), spoiled) := by
  cases c <;> rfl

/-- An archive that is `taking` entries goes on taking them, whatever became of one. -/
theorem exists_perform_write_taking (s : Session σ) (path : String) (data : Bytes)
    (method : Method) :
    ∃ result s', Archive.perform (taking s) (.write path data method) = (result, taking s') := by
  simp only [Archive.perform, Archive.writeEntry, writeEntry]
  cases s.write path data method with
  | mk result s' =>
      cases result with
      | ok u => exact ⟨.ok (), s', rfl⟩
      | error fault => exact ⟨.error (.ofArchive fault), s', rfl⟩

/-- What finishing an archive comes to: it is `complete`, or it is `spoiled` and of no more use. -/
theorem perform_finish_taking (s : Session σ) :
    (∃ sink, Archive.perform (taking s) .finish = (.ok (), complete sink))
      ∨ ∃ e, Archive.perform (taking s) .finish = (.error e, spoiled) := by
  simp only [Archive.perform, Archive.finish, finish]
  cases s.finish with
  | mk result s' =>
      cases result with
      | ok u => exact .inl ⟨s'.sink, rfl⟩
      | error fault => exact .inr ⟨.ofArchive fault, rfl⟩

/-- Every call makes `Progress` from one of the states to another. -/
theorem Progress.perform {t : Traced (Writer σ)} (h : Progress t.archive t.calls)
    (c : Archive.Call) :
    Progress (Archive.perform t c).2.archive (Archive.perform t c).2.calls := by
  obtain ⟨a, calls⟩ := t
  rw [Archive.Traced.perform_eq]
  cases h with
  | @taking session _ hf =>
      cases c with
      | write path data method =>
          obtain ⟨result, session', hp⟩ := exists_perform_write_taking session path data method
          rw [hp]
          refine .taking fun made hm => ?_
          rcases List.mem_append.mp hm with hm | hm
          · exact hf made hm
          · rw [List.mem_singleton.mp hm]
            exact Archive.Call.noConfusion
      | finish =>
          have he := ends_of_not_finish hf
          rcases perform_finish_taking session with ⟨sink, hp⟩ | ⟨e, hp⟩
          · rw [hp]
            exact .complete (by simp [failure?]) (he.concat (.inr hf))
          · rw [hp]
            refine .spoiled (e := e) (by simp [failure?]) ?_ (he.concat (.inr hf))
            simpa [failure?] using fun hm => hf _ hm rfl
  | complete hf he =>
      rw [perform_complete]
      exact .complete (List.mem_append_left _ hf) (he.concat (.inl rfl))
  | spoiled hf hn he =>
      rw [perform_spoiled]
      exact .spoiled (List.mem_append_left _ hf) (by simpa [failure?] using hn)
        (he.concat (.inl rfl))

/-- An archive that has taken an entry was not finished before, so it has made `Progress` to its
log. -/
theorem Progress.opened {a : Writer σ} {path : String} {data : Bytes} {method : Method}
    {t : Traced (Writer σ)}
    (h : Archive.writeEntry (⟨a, []⟩ : Traced (Writer σ)) path data method = (.ok (), t)) :
    Progress t.archive t.calls := by
  cases a with
  | taking session =>
      have hnone : Progress (.taking session) [] := .taking (by simp)
      have hnext := Progress.perform (t := ⟨.taking session, []⟩) hnone (.write path data method)
      rwa [Archive.perform, h] at hnext
  | complete | spoiled => cases h

/-- In each of the states an archive is `Truthful`. -/
theorem Progress.truthful {t : Traced (Writer σ)} (h : Progress t.archive t.calls) :
    Truthful t := by
  obtain ⟨a, calls⟩ := t
  cases h with
  | taking hf =>
      have hn : ⟨.finish, none⟩ ∉ calls := fun hm => hf _ hm rfl
      refine ⟨by simp [isFinished, hn], by simp [Writer.sink, hn], ?_, ends_of_not_finish hf, ?_⟩
      · rintro fault ⟨⟩
        rfl
      · rintro ⟨made, hm, hc⟩
        exact absurd hc (hf made hm)
  | complete hf he =>
      refine ⟨by simp [isFinished, hf], by simp [Writer.sink, hf], ?_, he,
        fun _ => perform_complete _⟩
      rintro fault ⟨⟩
  | spoiled hf hn he =>
      refine ⟨by simp [isFinished, hn], by simp [Writer.sink, hn], ?_, he, fun _ => perform_spoiled⟩
      rintro fault ⟨⟩
      rfl

theorem progress_performAll (sink : σ) (cs : List Archive.Call) :
    Progress (Archive.performAll (⟨.new sink, []⟩ : Traced (Writer σ)) cs).archive
      (Archive.performAll (⟨.new sink, []⟩ : Traced (Writer σ)) cs).calls :=
  Archive.performAll_induction (P := fun t : Traced (Writer σ) => Progress t.archive t.calls)
    (fun _ c ht => ht.perform c) (.taking (by simp)) cs

end Zip.Writer

open Zip.Writer (Progress Truthful)

/-! ## Writers of packages -/

/-- What the answer `r₀` to the call `q₀` brings about, and nothing else does or undoes, holds at
the end of a `replay` exactly if it held before or there was that answer to that call. -/
theorem replay_iff {ω κ : Type} {serve : ω → κ → Except Error Unit × ω} {P : ω → Prop} {q₀ : κ}
    {r₀ : Except Error Unit} (step : ∀ w q, P (serve w q).2 ↔ P w ∨ q = q₀ ∧ (serve w q).1 = r₀)
    (w : ω) (qs : List κ) :
    P (replay serve w qs).2 ↔ P w ∨ (q₀, r₀) ∈ qs.zip (replay serve w qs).1 := by
  induction qs generalizing w with
  | nil => simp
  | cons q qs ih =>
      rw [replay_cons, ih, step, or_assoc, List.zip_cons_cons, List.mem_cons, Prod.mk.injEq,
        eq_comm (a := q₀), eq_comm (a := r₀)]

/-- An archive that is `Truthful`, and is complete exactly if its package is. -/
structure Completed {σ : Type} [Sink σ] (t : Traced (Zip.Writer σ)) (closed : Prop) : Prop
    extends Truthful t where
  package : (∃ sink, t.archive.sink = .ok sink) ↔ closed

theorem Zip.Writer.Truthful.completed {σ : Type} [Sink σ] {t : Traced (Zip.Writer σ)}
    (h : Truthful t) {closed : Prop} (hc : ⟨.finish, none⟩ ∈ t.calls ↔ closed) :
    Completed t closed where
  toTruthful := h
  package := h.sink.trans hc

section

variable {σ : Type} [Sink σ] {a : Zip.Writer σ} {mediaType : String}

namespace PlainWriter

/-- A plain writer finishes its archive when `close` succeeds, and not else. -/
theorem Step.mem_finish {α : Type} [Archive α] {w w' : PlainWriter (Traced α)} {q : Request}
    {result : Except Error Unit} (h : Step w q result w') :
    ⟨.finish, none⟩ ∈ w'.archive.calls
      ↔ ⟨.finish, none⟩ ∈ w.archive.calls ∨ q = .close ∧ result = .ok () := by
  cases h with
  | refused | rejected => simp
  | lost _ _ ha | added _ _ ha | manifestLost _ ha =>
      simp [Traced.calls_of_writeEntry ha]
  | @closed result _ _ _ ha hf =>
      rw [Traced.calls_of_finish hf, Traced.calls_of_writeEntry ha]
      cases result <;> simp [failure?]

theorem Step.progress {w w' : PlainWriter (Traced (Zip.Writer σ))} {q : Request}
    {result : Except Error Unit} (h : Step w q result w')
    (hw : Progress w.archive.archive w.archive.calls) :
    Progress w'.archive.archive w'.archive.calls :=
  h.archive_induction (P := fun t : Traced (Zip.Writer σ) => Progress t.archive t.calls)
    (fun _ c ht => ht.perform c) hw

theorem completed_replay {w : PlainWriter (Traced (Zip.Writer σ))}
    (h : create ⟨a, []⟩ mediaType = .ok w) (qs : List Request) :
    Completed (replay serve w qs).2.archive ((.close, .ok ()) ∈ qs.zip (replay serve w qs).1) := by
  obtain ⟨archive, ha, hw⟩ := exists_of_create h
  have hopened : Progress w.archive.archive w.archive.calls := by
    rw [hw]
    exact .opened ha
  have hprogress := replay_induction
    (P := fun w : PlainWriter (Traced (Zip.Writer σ)) => Progress w.archive.archive w.archive.calls)
    (fun w q => (step_serve w q).progress) hopened qs
  refine hprogress.truthful.completed ?_
  rw [replay_iff (P := fun w : PlainWriter (Traced (Zip.Writer σ)) =>
    ⟨.finish, none⟩ ∈ w.archive.calls) fun w q => (step_serve w q).mem_finish]
  simp [hw, Traced.calls_of_writeEntry ha]

end PlainWriter

namespace ProtectedWriter

/-- A protected writer finishes its archive when `close` succeeds, and not else. -/
theorem Step.mem_finish {α ρ : Type} [Archive α] [RandomSource ρ]
    {w w' : ProtectedWriter (Traced α) ρ} {q : Request} {result : Except Error Unit}
    (h : Step w q result w') :
    ⟨.finish, none⟩ ∈ w'.archive.calls
      ↔ ⟨.finish, none⟩ ∈ w.archive.calls ∨ q = .close ∧ result = .ok () := by
  cases h with
  | refused | rejected | unencrypted => simp
  | encryptedLost _ _ _ ha | encrypted _ _ _ ha | clearLost _ _ ha | clear _ _ ha
  | manifestLost _ ha =>
      simp [Traced.calls_of_writeEntry ha]
  | unfinished _ ha hf | closed _ ha hf =>
      rw [Traced.calls_of_finish hf, Traced.calls_of_writeEntry ha]
      simp [failure?]

/-- The same calls take it to its last phase, `closed`. -/
theorem Step.isClosed {α ρ : Type} [Archive α] [RandomSource ρ] {w w' : ProtectedWriter α ρ}
    {q : Request} {result : Except Error Unit} (h : Step w q result w') :
    w'.isClosed = true ↔ w.isClosed = true ∨ q = .close ∧ result = .ok () := by
  cases h with
  | refused | rejected => simp
  | unencrypted hw | encryptedLost hw | encrypted hw | clearLost hw | clear hw | manifestLost hw
  | unfinished hw | closed hw => simp [ProtectedWriter.isClosed, hw]

variable {ρ : Type} [RandomSource ρ]

theorem Step.progress {w w' : ProtectedWriter (Traced (Zip.Writer σ)) ρ} {q : Request}
    {result : Except Error Unit} (h : Step w q result w')
    (hw : Progress w.archive.archive w.archive.calls) :
    Progress w'.archive.archive w'.archive.calls :=
  h.archive_induction (P := fun t : Traced (Zip.Writer σ) => Progress t.archive t.calls)
    (fun _ c ht => ht.perform c) hw

theorem completed_replay {parameters : Parameters} {random : ρ}
    {w : ProtectedWriter (Traced (Zip.Writer σ)) ρ}
    (h : Opened mediaType parameters ⟨a, []⟩ random w) (qs : List Request) :
    Completed (replay serve w qs).2.archive ((.close, .ok ()) ∈ qs.zip (replay serve w qs).1) := by
  obtain ⟨_, _, _, _, archive, -, ha, hw⟩ := h.exists_eq
  have hopened : Progress w.archive.archive w.archive.calls := by
    rw [hw]
    exact .opened ha
  have hprogress := replay_induction
    (P := fun w : ProtectedWriter (Traced (Zip.Writer σ)) ρ =>
      Progress w.archive.archive w.archive.calls)
    (fun w q => (step_serve w q).progress) hopened qs
  refine hprogress.truthful.completed ?_
  rw [replay_iff (P := fun w : ProtectedWriter (Traced (Zip.Writer σ)) ρ =>
    ⟨.finish, none⟩ ∈ w.archive.calls) fun w q => (step_serve w q).mem_finish]
  simp [hw, Traced.calls_of_writeEntry ha]

/-- A writer `isClosed` exactly if a close has succeeded. -/
theorem isClosed_replay_iff {α : Type} [Archive α] {parameters : Parameters} {archive : α}
    {random : ρ} {w : ProtectedWriter α ρ} (h : Opened mediaType parameters archive random w)
    (qs : List Request) :
    (replay serve w qs).2.isClosed = true
      ↔ (.close, .ok ()) ∈ qs.zip (replay serve w qs).1 := by
  rw [replay_iff (P := fun w : ProtectedWriter α ρ => w.isClosed = true)
    fun w q => (step_serve w q).isClosed]
  obtain ⟨_, _, _, _, _, -, -, rfl⟩ := h.exists_eq
  simp [isClosed]

end ProtectedWriter

end

/-! ## Archives that cannot be finished -/

namespace Zip.Session

variable {σ : Type} [Sink σ] {s s₁ s₂ : Session σ}

/-- A sink that takes no piece any more. -/
def Full (sink : σ) : Prop :=
  ∀ position piece, piece ≠ [] →
    ∃ fault sink', Sink.write sink position piece = (.error fault, sink')

/-- Writing a piece by `append` lists nothing. -/
theorem listed_append (s : Session σ) (bs : Bytes) : (s.append bs).2.listed = s.listed := by
  unfold append
  split
  · rfl
  · split <;> rfl

/-- An entry that was announced is in `listed`. -/
theorem listed_announce_ne_nil (s : Session σ) (name : Bytes) (method : Method) :
    (s.announce name method).2.listed ≠ [] := by
  simp only [announce]
  split
  · exact List.cons_ne_nil _ _
  · split
    · next s₁ hfields =>
      have hlisted := congrArg (fun x => x.2.listed) hfields
      rw [listed_append] at hlisted ⊢
      rw [← hlisted]
      exact List.cons_ne_nil _ _
    · rw [listed_append]
      exact List.cons_ne_nil _ _

/-- A compressed content that does not fill the buffer (`Deflate.bufferSize`) is held back as a
whole, so that no sink refuses it yet. -/
theorem exists_write_of_short {path : String} {data : Bytes} (hsettle : s.settle = (.ok (), s₁))
    (hname : s₁.hasName path.toUTF8.toList = false)
    (hannounce : s₁.announce path.toUTF8.toList .deflated = (.ok (), s₂))
    (hd : (Deflate.compress data).length < Deflate.bufferSize) (hs : data.length ≤ maxLong) :
    ∃ s', s.write path data .deflated = (.ok (), s')
      ∧ s'.stage = .pending (Deflate.compress data) ∧ s'.sink = s₂.sink ∧ s'.listed ≠ [] := by
  have hearly : Deflate.handedOn data.length (Deflate.compress data).length = 0 := by
    simp [Deflate.handedOn, Nat.div_eq_of_lt hd]
  have hsize : ¬ maxLong < max data.length (Deflate.compress data).length := by
    rw [Deflate.bufferSize] at hd
    rw [maxLong] at hs ⊢
    omega
  have hlisted : s₂.listed ≠ [] := by
    have hne := listed_announce_ne_nil s₁ path.toUTF8.toList .deflated
    rwa [hannounce] at hne
  refine ⟨{ s₂ with
    content := { start := s₂.position, size := data.length, crc := crc32 data }
    stage := .pending (Deflate.compress data) }, ?_, rfl, rfl, hlisted⟩
  simp only [write, hsettle, hname, Bool.false_eq_true, if_false, pack, hsize, hannounce, fill,
    hearly, List.take_zero, List.drop_zero]
  rfl

/-- What is owed to an entry is refused by a `Full` sink: the bytes that were held back, or else the
measured fields of its header. -/
theorem exists_settle_error (hf : Full s.sink) (hl : s.listed ≠ []) {held : Bytes}
    (hs : s.stage = .pending held) : ∃ fault s', s.settle = (.error fault, s') := by
  simp only [settle, hs]
  by_cases hheld : held.isEmpty
  · obtain ⟨⟨header, position⟩, earlier, hlisted⟩ := List.exists_cons_of_ne_nil hl
    obtain ⟨fault, sink, hw⟩ := hf (position + Header.measuredOffset)
      { header with
        crc := s.content.crc, compressedSize := s.position - s.content.start
        size := s.content.size : Header }.measured
      (List.ne_nil_of_length_pos (by rw [Header.length_measured]; decide))
    simp only [append, hheld, if_true, measureLast, hlisted, hw]
    exact ⟨fault, _, rfl⟩
  · obtain ⟨fault, sink, hw⟩ := hf s.position held fun h => hheld (h ▸ rfl)
    simp only [append, hheld, Bool.false_eq_true, if_false, hw]
    exact ⟨fault, _, rfl⟩

/-- An archive whose last entry is not settled cannot be finished on a `Full` sink. -/
theorem exists_finish_error (hf : Full s.sink) (hl : s.listed ≠ []) {held : Bytes}
    (hs : s.stage = .pending held) : ∃ fault s', s.finish = (.error fault, s') := by
  obtain ⟨fault, s', hsettle⟩ := exists_settle_error hf hl hs
  refine ⟨.stream fault, s', ?_⟩
  rw [finish, hsettle]

end Zip.Session

/-! ## Tapes -/

/-- A sink with room for so many bytes, which refuses a piece that does not fit. -/
structure Tape where
  room : Nat

instance : Sink Tape where
  write t _ bs :=
    if bs.length ≤ t.room then (.ok (), ⟨t.room - bs.length⟩) else (.error (.other "no room"), t)

/-- An archive of one entry, to be written on a `Tape` and finished there. -/
def Tape.archive (t : Tape) : Traced (Zip.Writer Tape) :=
  Archive.performAll ⟨.new t, []⟩ [.write "a" [1] .stored, .finish]

/-- A plain writer of a package on a `Tape`. -/
def Tape.plain (t : Tape) :
    Except (Error × Traced (Zip.Writer Tape)) (PlainWriter (Traced (Zip.Writer Tape))) :=
  PlainWriter.create ⟨.new t, []⟩ "text"

/-- Whether an archive is `Full` as soon as the header of an entry was written. -/
def Tape.fillsWith (name : Bytes) : Zip.Writer Tape → Bool
  | .taking session =>
    match session.settle with
    | (.ok (), session) =>
      !session.hasName name
        && match session.announce name .deflated with
          | (.ok (), session) => session.sink.room == 0
          | _ => false
    | _ => false
  | _ => false

/-- An archive that `fillsWith` the header of an entry takes it if it is short, and holds its
content back, but cannot be finished. -/
theorem Tape.exists_unfinished {a : Zip.Writer Tape} {path : String} {data : Bytes}
    (h : fillsWith path.toUTF8.toList a = true)
    (hd : (Deflate.compress data).length < Deflate.bufferSize) (hs : data.length ≤ Zip.maxLong) :
    ∃ a' e, Archive.writeEntry a path data .deflated = (.ok (), a')
      ∧ Archive.finish a' = (.error e, .spoiled) := by
  cases a with
  | complete | spoiled => cases h
  | taking s =>
      simp only [fillsWith] at h
      split at h
      · next s₁ hsettle =>
        rw [Bool.and_eq_true, Bool.not_eq_true'] at h
        obtain ⟨hname, h⟩ := h
        split at h
        · next s₂ hannounce =>
          obtain ⟨s₃, hw, hstage, hsink, hlisted⟩ :=
            Zip.Session.exists_write_of_short hsettle hname hannounce hd hs
          have hfull : s₃.sink.room = 0 := by
            rw [hsink]
            exact beq_iff_eq.mp h
          have hfaulty : Zip.Session.Full s₃.sink := by
            intro position piece hpiece
            have hroom : ¬ piece.length ≤ s₃.sink.room := by
              rw [hfull, Nat.le_zero, List.length_eq_zero_iff]
              exact hpiece
            exact ⟨.other "no room", _, if_neg hroom⟩
          obtain ⟨fault, s₄, hf⟩ := Zip.Session.exists_finish_error hfaulty hlisted hstage
          refine ⟨.taking s₃, .ofArchive fault, ?_, ?_⟩
          · simp only [Archive.writeEntry, Zip.Writer.writeEntry, hw, ofZipResult]
          · simp only [Archive.finish, Zip.Writer.finish, hf, ofZipResult]
        · cases h
      · cases h

/-- A plain package that is full with the header of its manifest cannot be closed: the manifest is
taken, and the `finish` behind it fails. -/
theorem Tape.exists_close_error {w : PlainWriter (Traced (Zip.Writer Tape))}
    (hopen : w.closed = false)
    (hfull : fillsWith Vocabulary.manifestPath.toUTF8.toList w.archive.archive = true)
    (hdata : w.manifest.toXml.toUTF8.toList.length ≤ 1000) :
    ∃ e, (w.serve .close).1 = .error e ∧ ⟨.finish, some e⟩ ∈ (w.serve .close).2.archive.calls := by
  have hpacked := Deflate.length_compress_le w.manifest.toXml.toUTF8.toList
  have hshort : (Deflate.compress w.manifest.toXml.toUTF8.toList).length < Deflate.bufferSize := by
    rw [Deflate.maxStored] at hpacked
    rw [Deflate.bufferSize]
    omega
  obtain ⟨a, e, ha, hf⟩ := exists_unfinished hfull hshort (Nat.le_trans hdata (by decide))
  have hstep := (PlainWriter.Step.closed hopen
    (Traced.perform_of_eq (c := .write _ _ _) ha)
    (Traced.perform_of_eq (c := .finish) hf)).serve_eq
  rw [hstep]
  exact ⟨e, rfl, List.mem_append_right _ (List.mem_singleton_self _)⟩

/-! ## Completion -/

/-- **Completion is reported truthfully**, over any sink, wherever it fails.  By itself or in the
hands of a writer, an archive is finished exactly if a finish has succeeded, and turns away every
call behind the first; and a writer of packages leaves it finished exactly if a close has
succeeded, which a protected writer knows of itself, and which none that has given up claims. -/
theorem completion_truthful {σ : Type} [Sink σ] :
    (Error.archive .alreadyFinished).message = "ZIP error: archive already finished"
      ∧ (∀ (sink : σ) cs,
        Truthful (Archive.performAll (⟨.new sink, []⟩ : Traced (Zip.Writer σ)) cs))
      ∧ (∀ (a : Zip.Writer σ) mediaType w,
        PlainWriter.create (⟨a, []⟩ : Traced (Zip.Writer σ)) mediaType = .ok w → ∀ qs,
          Completed (replay PlainWriter.serve w qs).2.archive
            ((.close, .ok ()) ∈ qs.zip (replay PlainWriter.serve w qs).1))
      ∧ ∀ {ρ : Type} [RandomSource ρ] (a : Zip.Writer σ) (random : ρ) mediaType parameters w,
        ProtectedWriter.Opened mediaType parameters (⟨a, []⟩ : Traced (Zip.Writer σ)) random w →
          ∀ qs, Completed (replay ProtectedWriter.serve w qs).2.archive
              ((.close, .ok ()) ∈ qs.zip (replay ProtectedWriter.serve w qs).1)
            ∧ ((replay ProtectedWriter.serve w qs).2.isClosed = true
              ↔ (.close, .ok ()) ∈ qs.zip (replay ProtectedWriter.serve w qs).1)
            ∧ ((replay ProtectedWriter.serve w qs).2.phase = .aborted →
              ∀ sink, (replay ProtectedWriter.serve w qs).2.archive.archive.sink ≠ .ok sink) := by
  refine ⟨rfl, fun sink cs => (Zip.Writer.progress_performAll sink cs).truthful,
    fun _ _ _ h qs => PlainWriter.completed_replay h qs, fun _ _ _ _ _ h qs => ?_⟩
  have hcompleted := ProtectedWriter.completed_replay h qs
  have hclosed := ProtectedWriter.isClosed_replay_iff h qs
  refine ⟨hcompleted, hclosed, fun hphase sink hsink => ?_⟩
  have hc := hclosed.mpr (hcompleted.package.mp ⟨sink, hsink⟩)
  rw [ProtectedWriter.isClosed, hphase] at hc
  cases hc

/-- An archive that fits on its tape, and one whose directory does not; two packages that have taken
a file and are not closed; one that was closed with success, and one that is full with its manifest,
so that its archive cannot be finished. -/
theorem completion_truthful_tape :
    (∃ sink, (Tape.archive ⟨200⟩).archive.sink = .ok sink)
      ∧ (∀ sink, (Tape.archive ⟨60⟩).archive.sink ≠ .ok sink)
      ∧ (∀ c, (Archive.perform (Tape.archive ⟨60⟩).archive c).1
        = .error (.archive .alreadyFinished))
      ∧ (∃ w, Tape.plain ⟨200⟩ = .ok w
        ∧ ∀ sink, (replay PlainWriter.serve w [.add "a" "x" [1]]).2.archive.archive.sink
          ≠ .ok sink)
      ∧ (∃ w, ProtectedWriter.Opened "text" .least (⟨.new ⟨200⟩, []⟩ : Traced (Zip.Writer Tape))
          (⟨0⟩ : Counter) w
        ∧ (replay ProtectedWriter.serve w [.write "a" "x" [1] true]).2.isClosed = false
        ∧ ∀ sink, (replay ProtectedWriter.serve w
          [.write "a" "x" [1] true]).2.archive.archive.sink ≠ .ok sink)
      ∧ (∃ w, ProtectedWriter.Opened "text" .least (⟨.new {}, []⟩ : Traced (Zip.Writer Memory))
          (⟨0⟩ : Counter) w
        ∧ (replay ProtectedWriter.serve w (someFiles ++ [.close])).2.isClosed = true
        ∧ ∃ sink, (replay ProtectedWriter.serve w (someFiles ++ [.close])).2.archive.archive.sink
          = .ok sink)
      ∧ ∃ w e, Tape.plain ⟨105⟩ = .ok w
        ∧ (replay PlainWriter.serve w [.close]).1 = [.error e]
        ∧ ⟨.finish, some e⟩ ∈ (replay PlainWriter.serve w [.close]).2.archive.calls
        ∧ (∀ sink, (replay PlainWriter.serve w [.close]).2.archive.archive.sink ≠ .ok sink)
        ∧ ∀ c, (Archive.perform (replay PlainWriter.serve w [.close]).2.archive.archive c).1
          = .error (.archive .alreadyFinished) := by
  have htape := (completion_truthful (σ := Tape)).2.1
  have hplain := (completion_truthful (σ := Tape)).2.2.1
  refine ⟨?archive, ?spoiled, ?refused, ?plainOpen, ?protectedOpen, ?closed, ?unfinished⟩
  case archive =>
    have hfits : ⟨.finish, none⟩ ∈ (Tape.archive ⟨200⟩).calls := by decide +kernel
    exact (htape _ _).sink.mpr hfits
  case spoiled =>
    have hspoiled : ⟨.finish, none⟩ ∉ (Tape.archive ⟨60⟩).calls := by decide +kernel
    exact fun sink hs => hspoiled ((htape _ _).sink.mp ⟨sink, hs⟩)
  case refused =>
    have hfinish : ∃ made ∈ (Tape.archive ⟨60⟩).calls, made.call = .finish := by decide +kernel
    exact fun c => congrArg Prod.fst ((htape _ _).next hfinish c)
  case plainOpen =>
    obtain ⟨w, hw⟩ := exists_eq_ok_of_isOk (x := Tape.plain ⟨200⟩) (by decide +kernel)
    refine ⟨w, hw, fun sink hs => ?_⟩
    have hclose := (List.of_mem_zip ((hplain _ _ w hw _).package.mp ⟨sink, hs⟩)).1
    cases List.mem_singleton.mp hclose
  case protectedOpen =>
    obtain ⟨w, hw⟩ := exists_eq_ok_of_isOk (x := (ProtectedWriter.openWithPassword "text" .least
      (⟨.new ⟨200⟩, []⟩ : Traced (Zip.Writer Tape)) (⟨0⟩ : Counter) [112]).1) (by decide +kernel)
    have hopened := ProtectedWriter.Opened.withPassword hw
    obtain ⟨hcompleted, hclosed, -⟩ :=
      completion_truthful.2.2.2 _ _ _ _ w hopened [.write "a" "x" [1] true]
    refine ⟨w, hopened, Bool.eq_false_iff.mpr fun hc => ?_, fun sink hs => ?_⟩
    · have hclose := (List.of_mem_zip (hclosed.mp hc)).1
      cases List.mem_singleton.mp hclose
    · have hclose := (List.of_mem_zip (hcompleted.package.mp ⟨sink, hs⟩)).1
      cases List.mem_singleton.mp hclose
  case closed =>
    obtain ⟨w, hopened, hclose, -⟩ := ProtectedWriter.exists_closed_memory
    obtain ⟨hcompleted, hclosed, -⟩ :=
      completion_truthful.2.2.2 _ _ _ _ w hopened (someFiles ++ [.close])
    exact ⟨w, hopened, hclosed.mpr hclose, hcompleted.package.mpr hclose⟩
  case unfinished =>
    obtain ⟨w, hw, hfull⟩ := exists_eq_ok_of_any (x := Tape.plain ⟨105⟩) (p := fun w =>
      !w.closed && decide (w.manifest = { mediaType := "text" })
        && Tape.fillsWith Vocabulary.manifestPath.toUTF8.toList w.archive.archive)
      (by decide +kernel)
    simp only [Bool.and_eq_true, Bool.not_eq_true', decide_eq_true_eq] at hfull
    obtain ⟨⟨hopen, hmanifest⟩, hfull⟩ := hfull
    have hdata : w.manifest.toXml.toUTF8.toList.length ≤ 1000 := by
      rw [hmanifest]
      decide +kernel
    obtain ⟨e, hresult, hfinish⟩ := Tape.exists_close_error hopen hfull hdata
    have hanswers : (replay PlainWriter.serve w [.close]).1 = [.error e] :=
      congrArg (fun result => [result]) hresult
    have hcompleted := hplain _ _ w hw [.close]
    refine ⟨w, e, hw, hanswers, hfinish, fun sink hs => ?_, fun c => congrArg Prod.fst
      (hcompleted.next ⟨_, hfinish, rfl⟩ c)⟩
    have hclose := hcompleted.package.mp ⟨sink, hs⟩
    rw [hanswers] at hclose
    cases List.mem_singleton.mp hclose

end OpenDocument
