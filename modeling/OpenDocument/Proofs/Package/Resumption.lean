import OpenDocument.Proofs.Package.Protocol

/-!
# OpenDocument.Proofs.Package.Resumption

A plain package after a file that its archive did not take.  A protected writer gives up there; a
plain one goes on, as if the file had not been added (`resumed_of_lost`), and may complete the
package around what the archive holds of the file.  It answers that an archive was aborted only
where the archive says so itself, so a run is given up exactly if nothing but such answers follow
(`givenUp_iff`).
-/

namespace OpenDocument

open Archive (Made Traced failure? failure?_eq_some_iff)

theorem checkPath_ne_aborted (written : List String) (path : String) :
    checkPath written path ≠ .error .archiveAborted := by
  unfold checkPath
  split_ifs <;> simp

/-- An archive with a script of its first answers; behind them it takes everything. -/
structure Scripted where
  answers : List (Except Error Unit)

/-- A call on a `Scripted` archive, with the next answer of its script. -/
def Scripted.answer (s : Scripted) : Except Error Unit × Scripted :=
  match s.answers with
  | [] => (.ok (), s)
  | result :: answers => (result, ⟨answers⟩)

instance : Archive Scripted where
  writeEntry s _ _ _ := s.answer
  finish s := s.answer

/-- What a `Scripted` archive may answer for once. -/
def Scripted.full : Error := .stream (.other "full")

namespace PlainWriter

variable {α : Type} [Archive α]

/-! ## Turns -/

/-- The calls on the archive that were made during the turn. -/
def Turn.calls (t : Turn (Traced α)) : List Made :=
  t.after.archive.calls.drop t.before.archive.calls.length

theorem Turn.calls_eq {t : Turn (Traced α)} {made : List Made}
    (h : t.after.archive.calls = t.before.archive.calls ++ made) : t.calls = made := by
  rw [calls, h, List.drop_left]

/-- Only the archive answers `archiveAborted`: no check of the writer does. -/
theorem Step.admits_of_aborted {w w' : PlainWriter α} {q : Request}
    (h : Step w q (.error .archiveAborted) w') : w.admits q = true := by
  cases h with
  | rejected hc hp => exact absurd hp (checkPath_ne_aborted _ _)
  | lost hc hp => exact admits_add_iff.mpr ⟨hc, hp⟩
  | manifestLost hc | closed hc => exact admits_close_iff.mpr hc

/-- An admitted `close` attempts the manifest, and behind it `finish` if the manifest was taken. -/
theorem Turn.calls_close {t : Turn (Traced α)} (hq : t.request = .close) (ha : t.admitted) :
    (∃ e, t.result = .error e ∧ t.calls = [⟨t.before.manifestCall, some e⟩])
      ∨ t.calls = [⟨t.before.manifestCall, none⟩, ⟨.finish, failure? t.result⟩] := by
  have hs := t.step
  rw [admitted, hq] at ha
  rw [hq] at hs
  rcases hs.calls_close ha with ⟨e, hr, h⟩ | h
  · exact .inl ⟨e, hr, calls_eq h⟩
  · exact .inr (calls_eq h)

/-- Any other turn makes `Turn.attempt?`, the attempt at its file, if it is admitted. -/
theorem Turn.calls_of_ne_close {t : Turn (Traced α)} (hq : t.request ≠ .close) :
    t.calls = t.attempt?.toList :=
  calls_eq (calls_of_not_close fun _ => hq)

/-! ## Giving up -/

/-- Turns after which the package is given up: each answers `archiveAborted`, and neither the
manifest nor a finish reaches the archive. -/
def GivenUp (ts : List (Turn (Traced α))) : Prop :=
  ∀ t ∈ ts, t.result = .error .archiveAborted
    ∧ ∀ made ∈ t.calls, made.isManifest = false ∧ made.isFinish = false

/-- A turn gives the package up exactly if `attempt?` is at a file and the archive answers
`archiveAborted`. -/
theorem Turn.aborted_iff (t : Turn (Traced α)) :
    (t.result = .error .archiveAborted
      ∧ ∀ made ∈ t.calls, made.isManifest = false ∧ made.isFinish = false)
    ↔ ∃ c, t.attempt? = some ⟨c, some .archiveAborted⟩ := by
  constructor
  · rintro ⟨hr, hcalls⟩
    have hs := t.step
    rw [hr] at hs
    have ha : t.admitted := hs.admits_of_aborted
    cases hq : t.request with
    | close =>
        -- an admitted `close` attempts the manifest
        rcases calls_close hq ha with ⟨e, -, h⟩ | h <;> rw [h] at hcalls <;>
          exact absurd (hcalls _ List.mem_cons_self).1 (by simp [manifestCall, Made.isManifest])
    | add path mediaType content =>
        exact ⟨_, attempt?_eq_some_iff.mpr ⟨path, mediaType, content, hq, ha, by rw [hr]; rfl⟩⟩
  · rintro ⟨c, h⟩
    obtain ⟨path, mediaType, content, hq, -, hmade⟩ := attempt?_eq_some_iff.mp h
    refine ⟨failure?_eq_some_iff.mp (congrArg Made.failure hmade), fun made hm => ?_⟩
    rw [calls_of_ne_close (by simp [hq]), h, Option.toList_some, List.mem_singleton] at hm
    rw [hm]
    exact isManifest_of_attempt? h

/-- **Giving up is up to the archive.**  Turns are `GivenUp` exactly if each of them attempts a file
and the archive answers that it was aborted. -/
theorem givenUp_iff (ts : List (Turn (Traced α))) :
    GivenUp ts ↔ ∀ t ∈ ts, ∃ c, t.attempt? = some ⟨c, some .archiveAborted⟩ :=
  forall₂_congr fun t _ => t.aborted_iff

/-! ## Going on -/

/-- What a turn that lost its file is followed by, in the turns `post` behind it. -/
structure Resumed (t : Turn (Traced α)) (post : List (Turn (Traced α))) : Prop where
  /-- The writer is what it was, but for its archive. -/
  frame : t.after = { t.before with archive := t.after.archive }
  /-- Until the first `close`, files under usable paths are attempted, the lost one included. -/
  files : ∀ mid s rest, post = mid ++ s :: rest → (∀ r ∈ mid, r.request ≠ .close) →
    ∀ path mediaType content, s.request = .add path mediaType content →
      checkPath s.before.written path = .ok () →
        s.calls = [⟨.write path content .deflated, failure? s.result⟩]
  /-- The first `close` attempts the manifest, and finishes an archive that has taken it. -/
  manifest : ∀ mid s rest, post = mid ++ s :: rest → (∀ r ∈ mid, r.request ≠ .close) →
    s.request = .close →
      (∃ e, s.result = .error e ∧ s.calls = [⟨s.before.manifestCall, some e⟩])
        ∨ s.calls = [⟨s.before.manifestCall, none⟩, ⟨.finish, failure? s.result⟩]
  /-- So the package is `GivenUp` only if the archive refuses file after file as aborted. -/
  givenUp : GivenUp post ↔ ∀ s ∈ post, ∃ c, s.attempt? = some ⟨c, some .archiveAborted⟩

/-- A package is open until the first `close`. -/
theorem closed_of_visits {w : PlainWriter α} (hw : w.closed = false) {qs : List Request}
    {mid rest : List (Turn α)} {s : Turn α} (h : visits serve w qs = mid ++ s :: rest)
    (hm : ∀ r ∈ mid, r.request ≠ .close) : s.before.closed = false := by
  induction mid generalizing w qs with
  | nil =>
      cases qs with
      | nil => cases h
      | cons q qs => cases h; exact hw
  | cons r mid ih =>
      cases qs with
      | nil => cases h
      | cons q qs =>
          simp only [visits_cons, List.cons_append, List.cons.injEq] at h
          obtain ⟨rfl, h⟩ := h
          obtain ⟨hq, hm⟩ := List.forall_mem_cons.mp hm
          refine ih ?_ h hm
          cases q with
          | close => exact absurd rfl hq
          | add path mediaType content => rw [(step_serve w _).closed_add, hw]

/-- **A lost file does not end a package.**  Behind an attempt at a file that the archive did not
take, whatever it holds of it, the writer is what it was and goes on until the first `close`, which
completes the package if the archive takes the manifest. -/
theorem resumed_of_lost {w : PlainWriter (Traced α)} {qs : List Request}
    {pre post : List (Turn (Traced α))} {t : Turn (Traced α)}
    (h : visits serve w qs = pre ++ t :: post) {c : Archive.Call} {e : Error}
    (ht : t.attempt? = some ⟨c, some e⟩) : Resumed t post := by
  obtain ⟨path, mediaType, content, hq, ha, hmade⟩ := Turn.attempt?_eq_some_iff.mp ht
  have hr : t.result = .error e := failure?_eq_some_iff.mp (congrArg Made.failure hmade)
  have hs := t.step
  rw [hq, hr] at hs
  rw [Turn.admitted, hq] at ha
  have hopen : t.after.closed = false := hs.closed_add.trans (admits_add_iff.mp ha).1
  obtain ⟨-, qs₂, -, -, rfl⟩ := visits_eq_append_cons h
  exact {
    frame := hs.eq_of_add_error
    files := by
      intro mid s rest hpost hm path mediaType content hq hp
      have hadmits : s.admitted := by
        rw [Turn.admitted, hq]
        exact admits_add_iff.mpr ⟨closed_of_visits hopen hpost hm, hp⟩
      rw [Turn.calls_of_ne_close (by simp [hq]), Turn.attempt?_eq_some_iff.mpr
        ⟨path, mediaType, content, hq, hadmits, rfl⟩, Option.toList_some]
    manifest := by
      intro mid s rest hpost hm hq
      refine Turn.calls_close hq ?_
      rw [Turn.admitted, hq]
      exact admits_close_iff.mpr (closed_of_visits hopen hpost hm)
    givenUp := givenUp_iff _ }

/-- A package on an archive that will refuse its first file with `Scripted.full` and take the
rest. -/
def onScripted : PlainWriter (Traced Scripted) where
  archive := ⟨⟨[.error Scripted.full]⟩, [(mimetypeItem "text").taken]⟩
  manifest := { mediaType := "text" }

/-- The first file of `onScripted` is lost, and the package goes on. -/
theorem resumed_scripted :
    create (⟨⟨[.ok (), .error Scripted.full]⟩, []⟩ : Traced Scripted) "text" = .ok onScripted
      ∧ ∃ t post, visits serve onScripted [.add "a" "x" [1], .close] = t :: post
        ∧ Resumed t post := by
  refine ⟨rfl, _, _, rfl, ?_⟩
  exact resumed_of_lost
    (show visits serve onScripted [.add "a" "x" [1], .close] = [] ++ _ :: _ from rfl)
    (by decide +kernel :
      Turn.attempt? ⟨onScripted, .add "a" "x" [1]⟩
        = some ⟨.write "a" [1] .deflated, some Scripted.full⟩)

/-- It is even completed: the manifest and the finish follow on what there is of the file. -/
theorem completed_around_lost :
    create (⟨⟨[.ok (), .error Scripted.full]⟩, []⟩ : Traced Scripted) "text" = .ok onScripted
      ∧ (replay serve onScripted [.add "a" "x" [1], .close]).1 = [.error Scripted.full, .ok ()]
      ∧ (replay serve onScripted [.add "a" "x" [1], .close]).2.archive.calls
        = [(mimetypeItem "text").taken, ⟨.write "a" [1] .deflated, some Scripted.full⟩,
          ⟨onScripted.manifestCall, none⟩, ⟨.finish, none⟩]
      ∧ ∃ t post, visits serve onScripted [.add "a" "x" [1], .close] = t :: post
        ∧ ¬ GivenUp post := by
  refine ⟨rfl, rfl, rfl, _, _, rfl, fun h => ?_⟩
  cases (h _ (List.mem_singleton_self _)).1

end PlainWriter

end OpenDocument
