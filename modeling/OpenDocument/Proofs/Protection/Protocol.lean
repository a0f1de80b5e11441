import OpenDocument.Proofs.Protection.Draws
import OpenDocument.Proofs.Protection.Run

/-!
# OpenDocument.Proofs.Protection.Protocol

What a protected writer does to its archive over a whole run.  `Closing` and `Discipline` say it
turn by turn: the log is the media type, one attempt for each entry that gets so far, and at most
one attempt at the manifest with at most one finish behind it; whatever fails once is answered,
and after it the writer is silent.  The run lemmas go by induction on the calls, with
`Step.calls_write` and `Step.calls_close` as the step lemmas and `run_of_phase_ne` for what follows
the last admitted call.
-/

namespace OpenDocument

open Archive (Made Traced failure? failure?_eq_some_iff)

namespace ProtectedWriter

variable {α ρ : Type}

/-! ## What a call hands on -/

/-- Whether a call gets past the checks it begins with: the phase is `writing`, and the path of an
entry passes `checkPath`. -/
def admits (w : ProtectedWriter α ρ) : Request → Bool
  | .write path _ _ _ => w.phase == .writing && (checkPath w.written path).isOk
  | .close => w.phase == .writing

theorem admits_write_iff {w : ProtectedWriter α ρ} {path mediaType : String} {content : Bytes}
    {encrypt : Bool} : w.admits (.write path mediaType content encrypt) = true ↔
      w.phase = .writing ∧ checkPath w.written path = .ok () := by
  rw [admits, Bool.and_eq_true, beq_iff_eq]
  cases checkPath w.written path <;> simp [Except.isOk, Except.toBool]

theorem admits_close_iff {w : ProtectedWriter α ρ} :
    w.admits .close = true ↔ w.phase = .writing := by
  rw [admits, beq_iff_eq]

/-- No call is admitted outside of the phase `writing`. -/
theorem phase_of_admits {w : ProtectedWriter α ρ} {q : Request} (h : w.admits q = true) :
    w.phase = .writing := by
  cases q with
  | write path mediaType content encrypt => exact (admits_write_iff.mp h).1
  | close => exact admits_close_iff.mp h

theorem refusal?_of_admits {w : ProtectedWriter α ρ} {q : Request} (h : w.admits q = true) :
    w.refusal? = none :=
  (refusal?_eq_none_iff w).mpr (phase_of_admits h)

variable [Archive α] [RandomSource ρ]

/-- The call on the archive for the entry that a request writes, if its content can be encrypted
where that is asked for. -/
def entryCall? (w : ProtectedWriter α ρ) : Request → Option Archive.Call
  | .write path _ content true =>
    match (w.encryptContent content).1 with
    | .ok entry => some (.write path entry.ciphertext .stored)
    | .error _ => none
  | .write path _ content false => some (.write path content .deflated)
  | .close => none

/-- The call on the archive for the manifest. -/
def manifestCall (w : ProtectedWriter α ρ) : Archive.Call :=
  .write Vocabulary.manifestPath w.manifest.toXml.toUTF8.toList .deflated

namespace Turn

/-- Whether the call got past the checks it begins with. -/
def admitted (t : Turn α ρ) : Bool :=
  t.before.admits t.request

/-- The attempt at an entry that an admitted call makes (`entryCall?`), with its failure. -/
def attempt? (t : Turn α ρ) : Option Made :=
  if t.admitted then (t.before.entryCall? t.request).map (⟨·, failure? t.result⟩) else none

/-- The calls on the archive that were made during the turn, as the log `Traced.calls` has grown. -/
def calls (t : Turn (Traced α) ρ) : List Made :=
  t.after.archive.calls.drop t.before.archive.calls.length

/-- The draws that were made during the turn, as the log of the `RecordedRandom` has grown. -/
def draws (t : Turn α (RecordedRandom ρ)) : List Draw :=
  t.after.random.draws.drop t.before.random.draws.length

end Turn

/-! ## The two halves of the protocol -/

/-- `Closing ts made`: after the turns `ts`, what closing the package has put at the end of the log
is `made`.  It is nothing while the package was never closed, else what the first admitted `close`
did, and a finish stands only behind a manifest that was taken. -/
inductive Closing : List (Turn α ρ) → List Made → Prop
  | pending {ts : List (Turn α ρ)} (h : ∀ t ∈ ts, t.admitted → t.request ≠ .close) :
      Closing ts []
  | manifestLost {pre post : List (Turn α ρ)} {t : Turn α ρ} {e : Error}
      (hp : ∀ s ∈ pre, s.admitted → s.request ≠ .close) (ht : t.request = .close)
      (ha : t.admitted) (hr : t.result = .error e) :
      Closing (pre ++ t :: post) [⟨t.before.manifestCall, some e⟩]
  | finished {pre post : List (Turn α ρ)} {t : Turn α ρ}
      (hp : ∀ s ∈ pre, s.admitted → s.request ≠ .close) (ht : t.request = .close)
      (ha : t.admitted) :
      Closing (pre ++ t :: post) [⟨t.before.manifestCall, none⟩, ⟨.finish, failure? t.result⟩]

/-- How the turns of a run answer failures, and what follows them. -/
structure Discipline (ts : List (Turn (Traced α) (RecordedRandom ρ))) : Prop where
  /-- A call that is not admitted is refused and changes nothing. -/
  refused : ∀ t ∈ ts, ¬ t.admitted → (∃ e, t.result = .error e) ∧ t.after = t.before
  /-- The failure of an archive call is the answer. -/
  archive : ∀ t ∈ ts, ∀ made ∈ t.calls, ∀ e, made.failure = some e → t.result = .error e
  /-- The failure of a draw is the answer, and nothing goes to the archive. -/
  draw : ∀ t ∈ ts, ∀ d ∈ t.draws, ∀ e, d.result = .error e → t.result = .error e ∧ t.calls = []
  /-- So is any failure of encrypting. -/
  encryption : ∀ t ∈ ts, t.admitted → ∀ path mediaType content,
    t.request = .write path mediaType content true →
      ∀ e, (t.before.encryptContent content).1 = .error e → t.result = .error e ∧ t.calls = []
  /-- After the failure of an admitted call every call is refused and does nothing. -/
  aborted : ∀ pre t post, ts = pre ++ t :: post → t.admitted → ∀ e, t.result = .error e →
    ∀ s ∈ post, s.result = .error .archiveAborted ∧ s.calls = [] ∧ s.draws = []
  /-- So it is after the package was completed. -/
  closed : ∀ pre t post, ts = pre ++ t :: post → t.admitted → t.request = .close →
    t.result = .ok () → ∀ s ∈ post, s.result = .error .writerClosed ∧ s.calls = [] ∧ s.draws = []

/-! ## One step -/

section Step

variable {w w' : ProtectedWriter α ρ} {q : Request} {result : Except Error Unit}

/-- A call that is not admitted is refused and changes nothing. -/
theorem Step.eq_of_not_admits (h : Step w q result w') (ha : ¬ w.admits q = true) :
    w' = w ∧ ∃ e, result = .error e := by
  cases h with
  | refused h | rejected h hp => exact ⟨rfl, _, rfl⟩
  | unencrypted hw hp | encryptedLost hw hp | encrypted hw hp | clearLost hw hp | clear hw hp =>
      exact absurd (admits_write_iff.mpr ⟨hw, hp⟩) ha
  | manifestLost hw | unfinished hw | closed hw => exact absurd (admits_close_iff.mpr hw) ha

/-- An admitted call that fails leads to the phase `aborted`, and one that succeeds to `closed` or
`writing`. -/
theorem Step.phase_of_admits (h : Step w q result w') (ha : w.admits q = true) :
    (∃ e, result = .error e ∧ w'.phase = .aborted)
      ∨ result = .ok () ∧ w'.phase = if q = .close then .closed else .writing := by
  cases h with
  | refused h => rw [refusal?_of_admits ha] at h; cases h
  | rejected hw hp => rw [(admits_write_iff.mp ha).2] at hp; cases hp
  | unencrypted | encryptedLost | clearLost | manifestLost | unfinished =>
      exact .inl ⟨_, rfl, rfl⟩
  | encrypted hw | clear hw => exact .inr ⟨rfl, hw⟩
  | closed => exact .inr ⟨rfl, rfl⟩

/-- An admitted write for which `encryptContent` fails has that failure as its answer. -/
theorem Step.result_of_encryption_failed {path mediaType : String} {content : Bytes}
    (h : Step w (.write path mediaType content true) result w')
    (ha : w.admits (.write path mediaType content true) = true) {e : Error}
    (he : (w.encryptContent content).1 = .error e) : result = .error e := by
  cases h with
  | refused h => rw [refusal?_of_admits ha] at h; cases h
  | rejected hw hp => rw [(admits_write_iff.mp ha).2] at hp; cases hp
  | unencrypted hw hp h => rw [h] at he; cases he; rfl
  | encryptedLost hw hp h | encrypted hw hp h => rw [h] at he; cases he

end Step

section TracedStep

variable {w w' : ProtectedWriter (Traced α) ρ} {result : Except Error Unit}

/-- An admitted write adds the one attempt at its entry (`entryCall?`) to the log, if it gets so
far. -/
theorem Step.calls_write {path mediaType : String} {content : Bytes} {encrypt : Bool}
    (h : Step w (.write path mediaType content encrypt) result w')
    (ha : w.admits (.write path mediaType content encrypt) = true) :
    w'.archive.calls = w.archive.calls
      ++ ((w.entryCall? (.write path mediaType content encrypt)).map
          (⟨·, failure? result⟩)).toList := by
  cases h with
  | refused h => rw [refusal?_of_admits ha] at h; cases h
  | rejected hw hp => rw [(admits_write_iff.mp ha).2] at hp; cases hp
  | unencrypted hw hp he => simp [entryCall?, he]
  | encryptedLost hw hp he hs | encrypted hw hp he hs =>
      simpa [entryCall?, he] using Traced.calls_of_writeEntry hs
  | clearLost hw hp hs | clear hw hp hs =>
      simpa [entryCall?] using Traced.calls_of_writeEntry hs

/-- An admitted `close` attempts `manifestCall`, and a finish only behind a manifest that was
taken. -/
theorem Step.calls_close (h : Step w .close result w') (ha : w.admits .close = true) :
    (∃ e, result = .error e ∧ w'.archive.calls = w.archive.calls ++ [⟨w.manifestCall, some e⟩])
      ∨ w'.archive.calls
        = w.archive.calls ++ [⟨w.manifestCall, none⟩, ⟨.finish, failure? result⟩] := by
  cases h with
  | refused h => rw [refusal?_of_admits ha] at h; cases h
  | manifestLost hw hs => exact .inl ⟨_, rfl, Traced.calls_of_writeEntry hs⟩
  | unfinished hw hs hf | closed hw hs hf =>
      refine .inr ?_
      rw [Traced.calls_of_finish hf, Traced.calls_of_writeEntry hs, List.append_assoc]
      rfl

end TracedStep

omit [Archive α] in
/-- The draws of `encryptContent` are those of a search for an unused vector (`Redraw`). -/
theorem encryptContent_redraw {w : ProtectedWriter α (RecordedRandom ρ)} {k : Cipher.RoundKeys}
    (hk : Cipher.RoundKeys.ofBytes? w.key.bytes = some k) (content : Bytes) :
    ∃ ds outcome, Redraw w.vectors (fillerLength (Deflate.compress content)) maxAttempts ds outcome
      ∧ (w.encryptContent content).2.draws = w.random.draws ++ ds
      ∧ (w.encryptContent content).1 = outcome.map fun p =>
          sealEntry k (Deflate.compress content) (Summary.of content) w.parameters p.vector
            p.filler :=
  encryptFresh_redraw hk rfl

/-- An admitted call that encrypts leaves the source as `encryptContent` does. -/
theorem Step.random_of_admits {w w' : ProtectedWriter α ρ} {path mediaType : String}
    {content : Bytes} {result : Except Error Unit}
    (h : Step w (.write path mediaType content true) result w')
    (ha : w.admits (.write path mediaType content true) = true) :
    w'.random = (w.encryptContent content).2 := by
  cases h with
  | refused h => rw [refusal?_of_admits ha] at h; cases h
  | rejected hw hp => rw [(admits_write_iff.mp ha).2] at hp; cases hp
  | unencrypted hw hp he | encryptedLost hw hp he | encrypted hw hp he => rw [he]

/-- Any other call draws nothing. -/
theorem Step.random_eq {w w' : ProtectedWriter α ρ} {q : Request} {result : Except Error Unit}
    (h : Step w q result w')
    (hq : w.admits q = true → ∀ path mediaType content, q ≠ .write path mediaType content true) :
    w'.random = w.random := by
  cases h with
  | refused | rejected | clearLost | clear | manifestLost | unfinished | closed => rfl
  | unencrypted hw hp | encryptedLost hw hp | encrypted hw hp =>
      exact absurd rfl (hq (admits_write_iff.mpr ⟨hw, hp⟩) _ _ _)

/-! ## Turns -/

namespace Turn

theorem after_of_not_admitted {t : Turn α ρ} (h : ¬ t.admitted = true) : t.after = t.before :=
  (t.step.eq_of_not_admits h).1

theorem calls_eq {t : Turn (Traced α) ρ} {made : List Made}
    (h : t.after.archive.calls = t.before.archive.calls ++ made) : t.calls = made := by
  rw [calls, h, List.drop_left]

theorem draws_eq {t : Turn α (RecordedRandom ρ)} {ds : List Draw}
    (h : t.after.random.draws = t.before.random.draws ++ ds) : t.draws = ds := by
  rw [draws, h, List.drop_left]

/-- A turn that leaves its writer as it was has made no `Turn.calls` and no `Turn.draws`. -/
theorem silent_of_after_eq {t : Turn (Traced α) (RecordedRandom ρ)} (h : t.after = t.before) :
    t.calls = [] ∧ t.draws = [] :=
  ⟨calls_eq (by rw [h, List.append_nil]), draws_eq (by rw [h, List.append_nil])⟩

/-- The log grows by the `attempt?` of a turn that is not an admitted `close`. -/
theorem calls_of_not_close {t : Turn (Traced α) ρ} (h : t.admitted → t.request ≠ .close) :
    t.after.archive.calls = t.before.archive.calls ++ t.attempt?.toList := by
  by_cases ha : t.admitted = true
  · obtain ⟨w, q⟩ := t
    rw [attempt?, if_pos ha]
    cases q with
    | close => exact absurd rfl (h ha)
    | write path mediaType content encrypt => exact (step _).calls_write ha
  · rw [after_of_not_admitted ha, attempt?, if_neg ha, Option.toList_none, List.append_nil]

end Turn

/-- Outside of the phase `writing` every turn meets the same writer, is refused, and does
nothing. -/
theorem turns_of_phase_ne {w : ProtectedWriter α ρ} (hw : w.phase ≠ .writing)
    {qs : List Request} {t : Turn α ρ} (ht : t ∈ w.turns qs) :
    ¬ t.admitted = true ∧ t.after = t.before ∧ ∃ e, w.refusal? = some e ∧ t.result = .error e := by
  obtain ⟨qs₁, qs₂, -, hb⟩ := exists_run_of_mem_turns ht
  rw [run_of_phase_ne hw] at hb
  obtain ⟨ha, he⟩ := t.step.eq_of_phase_ne (by rwa [hb])
  rw [hb] at he
  refine ⟨fun h => hw ?_, ha, he⟩
  rw [← hb]
  exact phase_of_admits h

/-! ## Runs -/

/-- A turn that is not an admitted `close` can stand in front of a `Closing`. -/
theorem Closing.cons {t : Turn α ρ} {ts : List (Turn α ρ)} {closing : List Made}
    (h : t.admitted → t.request ≠ .close) (hc : Closing ts closing) :
    Closing (t :: ts) closing := by
  have mem : ∀ {ss : List (Turn α ρ)}, (∀ s ∈ ss, s.admitted → s.request ≠ .close) →
      ∀ s ∈ t :: ss, s.admitted → s.request ≠ .close := fun hs s hm =>
    (List.mem_cons.mp hm).elim (fun hst => hst ▸ h) (hs s)
  cases hc with
  | pending hs => exact .pending (mem hs)
  | @manifestLost pre post s e hp ht ha hr =>
      exact @Closing.manifestLost _ _ _ _ (t :: pre) post s e (mem hp) ht ha hr
  | @finished pre post s hp ht ha =>
      exact @Closing.finished _ _ _ _ (t :: pre) post s (mem hp) ht ha

/-- Every run adds the attempts of its turns (`Turn.attempt?`) to the log, and behind them what
`Closing` says. -/
theorem calls_run (w : ProtectedWriter (Traced α) ρ) (qs : List Request) :
    ∃ closing, Closing (w.turns qs) closing
      ∧ (w.run qs).archive.calls
        = w.archive.calls ++ (w.turns qs).filterMap Turn.attempt? ++ closing := by
  induction qs generalizing w with
  | nil => exact ⟨[], .pending (by simp), by simp⟩
  | cons q qs ih =>
      by_cases hq : w.admits q = true ∧ q = .close
      · -- nothing follows an admitted `close`, so its calls end the log
        obtain ⟨ha, rfl⟩ := hq
        have hphase : (w.serve .close).2.phase ≠ .writing := by
          rcases (step_serve w .close).phase_of_admits ha with ⟨e, -, h⟩ | ⟨-, h⟩ <;> rw [h] <;> simp
        have silent : ((w.serve .close).2.turns qs).filterMap Turn.attempt? = [] := by
          rw [List.filterMap_eq_nil_iff]
          intro t ht
          rw [Turn.attempt?, if_neg (turns_of_phase_ne hphase ht).1]
        have none : Turn.attempt? (⟨w, .close⟩ : Turn (Traced α) ρ) = none := by
          simp [Turn.attempt?, entryCall?]
        simp only [run_cons, turns_cons, run_of_phase_ne hphase, List.filterMap_cons, none, silent,
          List.append_nil]
        rcases (step_serve w .close).calls_close ha with ⟨e, hr, h⟩ | h
        · exact ⟨_, @Closing.manifestLost _ _ _ _ [] _ ⟨w, .close⟩ e (by simp) rfl ha hr, h⟩
        · exact ⟨_, @Closing.finished _ _ _ _ [] _ ⟨w, .close⟩ (by simp) rfl ha, h⟩
      · have hq' : (⟨w, q⟩ : Turn (Traced α) ρ).admitted → q ≠ .close := fun ha hc => hq ⟨ha, hc⟩
        obtain ⟨closing, hc, hl⟩ := ih (w.serve q).2
        refine ⟨closing, hc.cons hq', ?_⟩
        have hstep := Turn.calls_of_not_close hq'
        simp only [run_cons, turns_cons, List.filterMap_cons, hl]
        rw [show (w.serve q).2.archive.calls = _ from hstep]
        cases Turn.attempt? (⟨w, q⟩ : Turn (Traced α) ρ) <;> simp

/-- A write for which `encryptContent` fails has that failure as its answer, and hands nothing
on. -/
theorem Turn.result_of_encryption_failed {t : Turn (Traced α) ρ} (ha : t.admitted)
    {path mediaType : String} {content : Bytes}
    (hq : t.request = .write path mediaType content true) {e : Error}
    (he : (t.before.encryptContent content).1 = .error e) :
    t.result = .error e ∧ t.calls = [] := by
  have hs := t.step
  rw [admitted, hq] at ha
  rw [hq] at hs
  refine ⟨hs.result_of_encryption_failed ha he, calls_eq ?_⟩
  rw [hs.calls_write ha, entryCall?, he]
  rfl

/-- A failed call on the archive is the answer of its turn. -/
theorem Turn.result_of_call_failed {t : Turn (Traced α) ρ} {made : Made} (hm : made ∈ t.calls)
    {e : Error} (he : made.failure = some e) : t.result = .error e := by
  by_cases hc : t.admitted = true ∧ t.request = .close
  · obtain ⟨ha, hq⟩ := hc
    have hs := t.step
    rw [admitted, hq] at ha
    rw [hq] at hs
    rcases hs.calls_close ha with ⟨e', hr, h⟩ | h
    · rw [calls_eq h, List.mem_singleton] at hm
      subst hm; cases he; exact hr
    · rw [calls_eq h] at hm
      simp only [List.mem_cons, List.not_mem_nil, or_false] at hm
      rcases hm with rfl | rfl
      · cases he
      · exact failure?_eq_some_iff.mp he
  · rw [calls_eq (calls_of_not_close fun ha hq => hc ⟨ha, hq⟩), Option.mem_toList] at hm
    unfold attempt? at hm
    by_cases ha : t.admitted = true
    · rw [if_pos ha] at hm
      obtain ⟨c, -, rfl⟩ := Option.map_eq_some_iff.mp hm
      exact failure?_eq_some_iff.mp he
    · rw [if_neg ha] at hm; cases hm

/-- The draws of a turn that encrypts are those of a search for an unused vector (`Redraw`), and its
outcome decides the answer. -/
theorem Turn.redraw {t : Turn α (RecordedRandom ρ)} {k : Cipher.RoundKeys}
    (hk : Cipher.RoundKeys.ofBytes? t.before.key.bytes = some k) (ha : t.admitted)
    {path mediaType : String} {content : Bytes}
    (hq : t.request = .write path mediaType content true) :
    ∃ outcome, Redraw t.before.vectors (fillerLength (Deflate.compress content)) maxAttempts t.draws
        outcome
      ∧ (t.before.encryptContent content).1 = outcome.map fun p =>
          sealEntry k (Deflate.compress content) (Summary.of content) t.before.parameters p.vector
            p.filler := by
  obtain ⟨ds, outcome, hr, hd, ho⟩ := encryptContent_redraw hk content
  have hs := t.step
  rw [admitted, hq] at ha
  rw [hq] at hs
  rw [← hs.random_of_admits ha] at hd
  rw [draws_eq hd]
  exact ⟨outcome, hr, ho⟩

/-- A failed draw is the answer of its turn, which hands nothing on. -/
theorem Turn.result_of_draw_failed {t : Turn (Traced α) (RecordedRandom ρ)}
    {k : Cipher.RoundKeys} (hk : Cipher.RoundKeys.ofBytes? t.before.key.bytes = some k) {d : Draw}
    (hd : d ∈ t.draws) {e : Error} (he : d.result = .error e) :
    t.result = .error e ∧ t.calls = [] := by
  by_cases hq : ∃ path mediaType content, t.admitted = true
      ∧ t.request = .write path mediaType content true
  · obtain ⟨path, mediaType, content, ha, hq⟩ := hq
    obtain ⟨outcome, hr, ho⟩ := redraw hk ha hq
    rw [hr.eq_error_of_mem hd he] at ho
    exact result_of_encryption_failed ha hq ho
  · have hr : t.after.random = t.before.random :=
      t.step.random_eq fun ha path mediaType content hreq => hq ⟨path, mediaType, content, ha, hreq⟩
    rw [draws, hr, List.drop_length] at hd
    cases hd

/-- What follows an admitted call that has ended the package: turns that are refused and do
nothing. -/
theorem silent_after {w : ProtectedWriter (Traced α) (RecordedRandom ρ)} {qs : List Request}
    {pre post : List (Turn (Traced α) (RecordedRandom ρ))}
    {t : Turn (Traced α) (RecordedRandom ρ)} (h : w.turns qs = pre ++ t :: post) {e : Error}
    (hp : t.after.phase ≠ .writing) (he : t.after.refusal? = some e) :
    ∀ s ∈ post, s.result = .error e ∧ s.calls = [] ∧ s.draws = [] := by
  intro s hs
  obtain ⟨-, qs₂, -, -, -, rfl⟩ := turns_eq_append_cons h
  obtain ⟨-, ha, e', he', hr⟩ := turns_of_phase_ne hp hs
  rw [he] at he'
  cases he'
  exact ⟨hr, Turn.silent_of_after_eq ha⟩

/-- A run of a writer whose key fits its cipher keeps the `Discipline`. -/
theorem discipline_turns {w : ProtectedWriter (Traced α) (RecordedRandom ρ)}
    {k : Cipher.RoundKeys} (hk : Cipher.RoundKeys.ofBytes? w.key.bytes = some k)
    (qs : List Request) : Discipline (w.turns qs) where
  refused t _ ha := ⟨(t.step.eq_of_not_admits ha).2, Turn.after_of_not_admitted ha⟩
  archive _ _ _ hm _ he := Turn.result_of_call_failed hm he
  draw t ht _ hd _ he := by
    obtain ⟨qs₁, -, -, hb⟩ := exists_run_of_mem_turns ht
    exact Turn.result_of_draw_failed (by rw [hb, (run_frame w qs₁).1, hk]) hd he
  encryption _ _ ha _ _ _ hq _ he := Turn.result_of_encryption_failed ha hq he
  aborted pre t post h ha e he := by
    rcases t.step.phase_of_admits ha with ⟨e', -, hp⟩ | ⟨hr, -⟩
    · exact silent_after h (by rw [hp]; simp) (by rw [refusal?, hp])
    · rw [he] at hr; cases hr
  closed pre t post h ha hq hr := by
    rcases t.step.phase_of_admits ha with ⟨e, he, -⟩ | ⟨-, hp⟩
    · rw [hr] at he; cases he
    · rw [if_pos hq] at hp
      exact silent_after h (by rw [hp]; simp) (by rw [refusal?, hp])

/-- **The protocol of a package.**  The log of an opened writer is the media type, the attempts at
entries in the order of their calls (`Turn.attempt?`), and what closing the package did (`Closing`);
and the run keeps the `Discipline` of failures. -/
theorem protocol_run_of_opened {mediaType : String} {parameters : Parameters} {archive : α}
    {random : ρ} {w : ProtectedWriter (Traced α) (RecordedRandom ρ)}
    (h : Opened mediaType parameters ⟨archive, []⟩ ⟨random, []⟩ w) (qs : List Request) :
    (∃ closing, Closing (w.turns qs) closing
      ∧ (w.run qs).archive.calls
        = ⟨.write Vocabulary.mimetypePath mediaType.toUTF8.toList .stored, none⟩
          :: (w.turns qs).filterMap Turn.attempt? ++ closing)
      ∧ Discipline (w.turns qs) := by
  refine ⟨?_, discipline_turns h.roundKeys qs⟩
  obtain ⟨closing, hc, hl⟩ := calls_run w qs
  refine ⟨closing, hc, ?_⟩
  obtain ⟨digest, salt, random', key, archive', -, ha, rfl⟩ := h.exists_eq
  rw [hl, Traced.calls_of_writeEntry ha]
  rfl

/-- On a `Shelf` with room for two calls the second entry fails, and no manifest is attempted. -/
theorem protocol_run_shelf :
    ∃ w, Opened "text" .least (⟨⟨2⟩, []⟩ : Traced Shelf) (⟨⟨0⟩, []⟩ : RecordedRandom Counter) w
      ∧ (∃ closing, Closing (w.turns
            [.write "a" "x" [1, 2] true, .write "b" "y" [3] false, .close]) closing
        ∧ (w.run [.write "a" "x" [1, 2] true, .write "b" "y" [3] false, .close]).archive.calls
          = ⟨.write Vocabulary.mimetypePath "text".toUTF8.toList .stored, none⟩
            :: (w.turns [.write "a" "x" [1, 2] true, .write "b" "y" [3] false, .close]).filterMap
                Turn.attempt? ++ closing)
      ∧ Discipline (w.turns [.write "a" "x" [1, 2] true, .write "b" "y" [3] false, .close]) := by
  obtain ⟨w, hw⟩ := exists_eq_ok_of_isOk (x := (openWithPassword "text" .least
    (⟨⟨2⟩, []⟩ : Traced Shelf) (⟨⟨0⟩, []⟩ : RecordedRandom Counter) [112]).1) (by decide +kernel)
  exact ⟨w, .withPassword hw, protocol_run_of_opened (.withPassword hw) _⟩

end ProtectedWriter

end OpenDocument
