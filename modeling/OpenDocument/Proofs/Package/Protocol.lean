import OpenDocument.Proofs.Manifest
import OpenDocument.Proofs.Package.Filing

/-!
# OpenDocument.Proofs.Package.Protocol

What a plain writer does over a whole run.  `Orderly` says it turn by turn: the log of the archive
is the media type and then what each turn adds to it, an attempt at a file or, once, an attempt at
the manifest with at most one finish behind it; the manifest lists the files that the archive has
taken.  The step lemmas go by cases on `Step`, the run lemmas by induction on the calls.
-/

namespace OpenDocument

open Archive (Made Traced failure?)

/-- Whether a call writes under `manifestPath`. -/
def Archive.Made.isManifest : Made → Bool
  | ⟨.write path _ _, _⟩ => path == Vocabulary.manifestPath
  | ⟨.finish, _⟩ => false

/-- Whether a call finishes the archive. -/
def Archive.Made.isFinish : Made → Bool
  | ⟨.write _ _ _, _⟩ => false
  | ⟨.finish, _⟩ => true

/-- What a call writes, read as a manifest by `Manifest.parse`. -/
def Archive.Call.manifest? : Archive.Call → Option (Except Error Manifest)
  | .write _ data _ => (String.fromUTF8? data.toByteArray).map Manifest.parse
  | .finish => none

namespace PlainWriter

variable {α : Type}

/-! ## Turns -/

/-- Whether a call gets past the checks it begins with: the package is open, and the path of a file
passes `checkPath`. -/
def admits (w : PlainWriter α) : Request → Bool
  | .add path _ _ => !w.closed && (checkPath w.written path).isOk
  | .close => !w.closed

theorem admits_add_iff {w : PlainWriter α} {path mediaType : String} {content : Bytes} :
    w.admits (.add path mediaType content) = true
      ↔ w.closed = false ∧ checkPath w.written path = .ok () := by
  rw [admits, Bool.and_eq_true, Bool.not_eq_true']
  cases checkPath w.written path <;> simp [Except.isOk, Except.toBool]

theorem admits_close_iff {w : PlainWriter α} : w.admits .close = true ↔ w.closed = false := by
  rw [admits, Bool.not_eq_true']

/-- How a writer hands its manifest to the archive, by `toXml`. -/
def manifestCall (w : PlainWriter α) : Archive.Call :=
  .write Vocabulary.manifestPath w.manifest.toXml.toUTF8.toList .deflated

/-- A call of a run of a plain writer, as `visits` has it. -/
abbrev Turn (α : Type) := Visit (PlainWriter α) Request

namespace Turn

/-- Whether the call got past the checks it begins with, `admits`. -/
def admitted (t : Turn α) : Bool :=
  t.before.admits t.request

variable [Archive α]

/-- What the call answered. -/
def result (t : Turn α) : Except Error Unit :=
  (t.before.serve t.request).1

/-- The writer after the call. -/
def after (t : Turn α) : PlainWriter α :=
  (t.before.serve t.request).2

theorem step (t : Turn α) : Step t.before t.request t.result t.after :=
  step_serve t.before t.request

/-- The attempt at a file that an admitted call makes, with its failure. -/
def attempt? (t : Turn α) : Option Made :=
  match t.request with
  | .add path _ content =>
    if t.admitted then some ⟨.write path content .deflated, failure? t.result⟩ else none
  | .close => none

/-- The entry for the file of a turn, if the archive has taken the file. -/
def listed? (t : Turn α) : Option Entry :=
  match t.request, t.attempt? with
  | .add path mediaType _, some ⟨_, none⟩ => some (.clear path mediaType)
  | _, _ => none

end Turn

/-! ## The protocol -/

section

variable [Archive α]

/-- What stands at the end of a log: nothing while the package was never closed, else what the first
admitted `close` did.  A `finish` stands only behind a manifest that was taken. -/
inductive Closing : List (Turn α) → List Made → Prop
  | pending {ts : List (Turn α)} (h : ∀ t ∈ ts, t.admitted → t.request ≠ .close) : Closing ts []
  | manifestLost {pre post : List (Turn α)} {t : Turn α} {e : Error}
      (hp : ∀ s ∈ pre, s.admitted → s.request ≠ .close) (ht : t.request = .close)
      (ha : t.admitted) (hr : t.result = .error e) :
      Closing (pre ++ t :: post) [⟨t.before.manifestCall, some e⟩]
  | finished {pre post : List (Turn α)} {t : Turn α}
      (hp : ∀ s ∈ pre, s.admitted → s.request ≠ .close) (ht : t.request = .close)
      (ha : t.admitted) :
      Closing (pre ++ t :: post) [⟨t.before.manifestCall, none⟩, ⟨.finish, failure? t.result⟩]

end

/-- What holds between the turns `ts` of a run and the writer `w` at its end. -/
structure Orderly [Archive α] (mediaType : String) (ts : List (Turn (Traced α)))
    (w : PlainWriter (Traced α)) : Prop where
  /-- The log is the media type, each `attempt?` at a file, and what closing the package did. -/
  log : ∃ closing, Closing ts closing
    ∧ w.archive.calls = (mimetypeItem mediaType).taken :: ts.filterMap Turn.attempt? ++ closing
  /-- The manifest is attempted at most once. -/
  manifestOnce : w.archive.calls.countP Made.isManifest ≤ 1
  /-- So is the finish. -/
  finishOnce : w.archive.calls.countP Made.isFinish ≤ 1
  /-- What is handed to the archive by `manifestCall` reads back as the manifest of the moment. -/
  reads : ∀ t ∈ ts, t.before.manifestCall.manifest? = some (.ok t.before.manifest)
  /-- A call that is not admitted is refused and changes nothing. -/
  refused : ∀ t ∈ ts, ¬ t.admitted → (∃ e, t.result = .error e) ∧ t.after = t.before
  /-- A file that is not added, for whatever reason, leaves no mark but in the archive. -/
  failed : ∀ t ∈ ts, ∀ path mediaType content e, t.request = .add path mediaType content →
    t.result = .error e → t.after = { t.before with archive := t.after.archive }
  /-- After the first admitted `close` every call is refused and changes nothing. -/
  closed : ∀ pre t post, ts = pre ++ t :: post → t.admitted → t.request = .close →
    ∀ s ∈ post, s.result = .error .writerClosed ∧ s.after = s.before
  /-- The manifest lists the files that the archive has taken (`listed?`). -/
  manifest : w.manifest = { mediaType, entries := ts.filterMap Turn.listed? }
  /-- They have usable paths of their own, and these are the paths in use. -/
  usable : ∀ path ∈ w.manifest.paths, EntryPath path
  nodup : w.manifest.paths.Nodup
  written : w.written = w.manifest.paths.reverse

/-! ## One step -/

section Step

variable [Archive α] {w w' : PlainWriter α} {q : Request} {result : Except Error Unit}

/-- A call that `admits` does not let pass is refused and changes nothing. -/
theorem Step.eq_of_not_admits (h : Step w q result w') (ha : ¬ w.admits q = true) :
    w' = w ∧ ∃ e, result = .error e := by
  cases h with
  | refused | rejected => exact ⟨rfl, _, rfl⟩
  | lost hc hp | added hc hp => exact absurd (admits_add_iff.mpr ⟨hc, hp⟩) ha
  | manifestLost hc | closed hc => exact absurd (admits_close_iff.mpr hc) ha

/-- Once a package is `closed`, every call is refused and changes nothing. -/
theorem Step.eq_of_closed (h : Step w q result w') (hc : w.closed = true) :
    w' = w ∧ result = .error .writerClosed := by
  cases h with
  | refused => exact ⟨rfl, rfl⟩
  | rejected hn | lost hn | added hn | manifestLost hn | closed hn => cases hc.symm.trans hn

/-- An admitted `close` closes the package, whatever becomes of it. -/
theorem Step.closed_close (h : Step w .close result w') : w'.closed = true := by
  cases h with
  | refused hc => exact hc
  | manifestLost | closed => rfl

/-- Adding a file by `add` does not close the package. -/
theorem Step.closed_add {path mediaType : String} {content : Bytes}
    (h : Step w (.add path mediaType content) result w') : w'.closed = w.closed := by
  cases h <;> rfl

/-- A file that `add` fails on, for whatever reason, leaves no mark but in the archive. -/
theorem Step.eq_of_add_error {path mediaType : String} {content : Bytes} {e : Error}
    (h : Step w (.add path mediaType content) (.error e) w') :
    w' = { w with archive := w'.archive } := by
  cases h <;> rfl

/-- The manifest lists the path of every file that was added. -/
theorem Step.paths (h : Step w q result w') : w'.manifest.paths
    = w.manifest.paths ++ (addedBy Request.addition? q result).map Addition.path := by
  cases h with
  | refused | rejected | lost | manifestLost =>
      rw [addedBy_error, List.map_nil, List.append_nil]
  | added => exact Manifest.paths_push _ _
  | closed => rw [addedBy_close, List.map_nil, List.append_nil]

end Step

section TracedStep

variable [Archive α] {w w' : PlainWriter (Traced α)} {result : Except Error Unit}

/-- An admitted `add` attempts its file once, with its content as it is. -/
theorem Step.calls_add {path mediaType : String} {content : Bytes}
    (h : Step w (.add path mediaType content) result w')
    (ha : w.admits (.add path mediaType content) = true) :
    w'.archive.calls
      = w.archive.calls ++ [⟨.write path content .deflated, failure? result⟩] := by
  obtain ⟨hc, hp⟩ := admits_add_iff.mp ha
  cases h with
  | refused hn => cases hc.symm.trans hn
  | rejected hn hr => cases hp.symm.trans hr
  | lost hn hr hs | added hn hr hs => exact Traced.calls_of_writeEntry hs

/-- An admitted `close` attempts the manifest, and a finish only behind a manifest that was
taken. -/
theorem Step.calls_close (h : Step w .close result w') (ha : w.admits .close = true) :
    (∃ e, result = .error e ∧ w'.archive.calls = w.archive.calls ++ [⟨w.manifestCall, some e⟩])
      ∨ w'.archive.calls
        = w.archive.calls ++ [⟨w.manifestCall, none⟩, ⟨.finish, failure? result⟩] := by
  cases h with
  | refused hc => cases hc.symm.trans (admits_close_iff.mp ha)
  | manifestLost hc hs => exact .inl ⟨_, rfl, Traced.calls_of_writeEntry hs⟩
  | closed hc hs hf =>
      refine .inr ?_
      rw [Traced.calls_of_finish hf, Traced.calls_of_writeEntry hs, List.append_assoc]
      rfl

end TracedStep

/-! ## Turns -/

section

variable [Archive α]

namespace Turn

theorem after_of_not_admitted {t : Turn α} (h : ¬ t.admitted = true) : t.after = t.before :=
  (t.step.eq_of_not_admits h).1

/-- An `attempt?` is made by an admitted call that adds a file. -/
theorem attempt?_eq_some_iff {t : Turn α} {made : Made} : t.attempt? = some made
    ↔ ∃ path mediaType content, t.request = .add path mediaType content ∧ t.admitted
      ∧ ⟨.write path content .deflated, failure? t.result⟩ = made := by
  cases hq : t.request <;> simp [attempt?, hq]

/-- The log grows by the `attempt?` of a turn that is not an admitted `close`. -/
theorem calls_of_not_close {t : Turn (Traced α)} (h : t.admitted → t.request ≠ .close) :
    t.after.archive.calls = t.before.archive.calls ++ t.attempt?.toList := by
  obtain ⟨w, q⟩ := t
  by_cases ha : admitted ⟨w, q⟩ = true
  · cases q with
    | close => exact absurd rfl (h ha)
    | add path mediaType content =>
        simp only [attempt?, if_pos ha]
        exact (step_serve w _).calls_add ha
  · rw [after_of_not_admitted ha]
    cases q <;> simp [attempt?, ha]

/-- The manifest grows by the entry of the turn, `listed?`. -/
theorem manifest_after (t : Turn α) : t.after.manifest
    = { t.before.manifest with entries := t.before.manifest.entries ++ t.listed?.toList } := by
  obtain ⟨w, q⟩ := t
  by_cases ha : admitted ⟨w, q⟩ = true
  · have hs := step_serve w q
    cases q with
    | close =>
        simp only [listed?, Option.toList_none, List.append_nil]
        rw [after]
        generalize (w.serve .close).1 = r, (w.serve .close).2 = w' at hs ⊢
        cases hs <;> rfl
    | add path mediaType content =>
        obtain ⟨hc, hp⟩ := admits_add_iff.mp ha
        simp only [listed?, attempt?, if_pos ha, result, after]
        generalize (w.serve (.add path mediaType content)).1 = r,
          (w.serve (.add path mediaType content)).2 = w' at hs ⊢
        cases hs with
        | refused hn => cases hc.symm.trans hn
        | rejected hn hr => cases hp.symm.trans hr
        | lost => simp [failure?]
        | added => rfl
  · rw [after_of_not_admitted ha]
    cases q <;> simp [listed?, attempt?, ha]

end Turn

/-- A `replay` leaves a writer that was closed as it is. -/
theorem replay_of_closed {w : PlainWriter α} (hc : w.closed = true) (qs : List Request) :
    (replay serve w qs).2 = w := by
  refine replay_induction (P := (· = w)) ?_ rfl qs
  rintro w' q rfl
  exact ((step_serve w' q).eq_of_closed hc).1

/-- Once a package is closed, every turn meets the same writer, is refused, and does nothing. -/
theorem visits_of_closed {w : PlainWriter α} (hc : w.closed = true) {qs : List Request}
    {t : Turn α} (ht : t ∈ visits serve w qs) :
    ¬ t.admitted = true ∧ t.result = .error .writerClosed ∧ t.after = t.before := by
  obtain ⟨qs₁, hb⟩ := exists_replay_of_mem_visits ht
  rw [replay_of_closed hc] at hb
  rw [← hb] at hc
  obtain ⟨ha, hr⟩ := t.step.eq_of_closed hc
  refine ⟨?_, hr, ha⟩
  cases hq : t.request <;> simp [Turn.admitted, admits, hq, hc]

/-! ## Runs -/

/-- A turn that is not an admitted `close` can stand in front of a run. -/
theorem Closing.cons {t : Turn α} {ts : List (Turn α)} {closing : List Made}
    (h : t.admitted → t.request ≠ .close) (hc : Closing ts closing) :
    Closing (t :: ts) closing := by
  have mem : ∀ {ss : List (Turn α)}, (∀ s ∈ ss, s.admitted → s.request ≠ .close) →
      ∀ s ∈ t :: ss, s.admitted → s.request ≠ .close := fun hs s hm =>
    (List.mem_cons.mp hm).elim (fun hst => hst ▸ h) (hs s)
  cases hc with
  | pending hs => exact .pending (mem hs)
  | @manifestLost pre post s e hp ht ha hr =>
      exact @Closing.manifestLost _ _ (t :: pre) post s e (mem hp) ht ha hr
  | @finished pre post s hp ht ha =>
      exact @Closing.finished _ _ (t :: pre) post s (mem hp) ht ha

/-- Every run adds each `attempt?` at a file to the log, and behind them what `Closing` it does. -/
theorem calls_replay (w : PlainWriter (Traced α)) (qs : List Request) :
    ∃ closing, Closing (visits serve w qs) closing
      ∧ (replay serve w qs).2.archive.calls
        = w.archive.calls ++ (visits serve w qs).filterMap Turn.attempt? ++ closing := by
  induction qs generalizing w with
  | nil => exact ⟨[], .pending (by simp), by simp⟩
  | cons q qs ih =>
      by_cases hq : w.admits q = true ∧ q = .close
      · -- nothing follows an admitted `close`, so its calls end the log
        obtain ⟨ha, rfl⟩ := hq
        have hclosed := (step_serve w .close).closed_close
        have silent : (visits serve (w.serve .close).2 qs).filterMap Turn.attempt? = [] := by
          rw [List.filterMap_eq_nil_iff]
          intro t ht
          cases hr : t.request <;> simp [Turn.attempt?, hr, (visits_of_closed hclosed ht).1]
        have none : Turn.attempt? (⟨w, .close⟩ : Turn (Traced α)) = none := rfl
        simp only [replay_cons, visits_cons, replay_of_closed hclosed, List.filterMap_cons, none,
          silent, List.append_nil]
        rcases (step_serve w .close).calls_close ha with ⟨e, hr, h⟩ | h
        · exact ⟨_, @Closing.manifestLost _ _ [] _ ⟨w, .close⟩ e (by simp) rfl ha hr, h⟩
        · exact ⟨_, @Closing.finished _ _ [] _ ⟨w, .close⟩ (by simp) rfl ha, h⟩
      · have hq' : Turn.admitted ⟨w, q⟩ → q ≠ .close := fun ha hc => hq ⟨ha, hc⟩
        obtain ⟨closing, hc, hl⟩ := ih (w.serve q).2
        refine ⟨closing, hc.cons hq', ?_⟩
        have hstep := Turn.calls_of_not_close hq'
        simp only [replay_cons, visits_cons, List.filterMap_cons, hl]
        rw [show (w.serve q).2.archive.calls = _ from hstep]
        cases Turn.attempt? (⟨w, q⟩ : Turn (Traced α)) <;> simp

/-- Every run adds the `listed?` files, which the archive has taken, to the manifest. -/
theorem manifest_replay (w : PlainWriter α) (qs : List Request) :
    (replay serve w qs).2.manifest = { w.manifest with
      entries := w.manifest.entries ++ (visits serve w qs).filterMap Turn.listed? } := by
  induction qs generalizing w with
  | nil => simp
  | cons q qs ih =>
      have hstep : (w.serve q).2.manifest = _ := Turn.manifest_after ⟨w, q⟩
      simp only [replay_cons, visits_cons, ih, hstep, List.filterMap_cons]
      cases Turn.listed? (⟨w, q⟩ : Turn α) <;> simp

/-- The paths of a package are `Fresh`, and are those of its manifest. -/
theorem exists_fresh {archive : α} {mediaType : String} {w : PlainWriter α}
    (h : create archive mediaType = .ok w) (qs : List Request) :
    ∃ as, Fresh as (replay serve w qs).2.written
      ∧ (replay serve w qs).2.manifest.paths = as.map Addition.path := by
  obtain ⟨archive', -, rfl⟩ := exists_of_create h
  refine ⟨_, replay_additions (P := fun as (w : PlainWriter α) =>
    Fresh as w.written ∧ w.manifest.paths = as.map Addition.path) Request.addition? ?_
    ⟨Fresh.nil, rfl⟩ qs⟩
  rintro as w q ⟨hf, hp⟩
  refine ⟨(step_serve w q).fresh hf, ?_⟩
  rw [(step_serve w q).paths, hp, List.map_append]

/-- What a package that was begun hands to its archive by `manifestCall` reads back. -/
theorem manifest?_manifestCall {archive : α} {mediaType : String} {w : PlainWriter α}
    (h : create archive mediaType = .ok w) (qs : List Request) :
    (replay serve w qs).2.manifestCall.manifest? = some (.ok (replay serve w qs).2.manifest) := by
  obtain ⟨as, hf, hp⟩ := exists_fresh h qs
  have hroot : ∀ e ∈ (replay serve w qs).2.manifest.entries, e.path ≠ "/" := by
    intro e he hpath
    have hmem : e.path ∈ (replay serve w qs).2.manifest.paths := List.mem_map_of_mem he
    rw [hp] at hmem
    obtain ⟨a, ha, hae⟩ := List.mem_map.mp hmem
    apply (hf.usable a ha).relative
    rw [hae, hpath]
    decide
  rw [manifestCall, Archive.Call.manifest?, fromUTF8?_toUTF8, Option.map_some,
    Manifest.parse_toXml hroot]

/-- An `attempt?` is at a file, and not at the manifest or the finish. -/
theorem Turn.isManifest_of_attempt? {t : Turn α} {made : Made} (h : t.attempt? = some made) :
    made.isManifest = false ∧ made.isFinish = false := by
  obtain ⟨path, mediaType, content, hq, ha, rfl⟩ := attempt?_eq_some_iff.mp h
  rw [admitted, hq] at ha
  have hpath := (entryPath_of_checkPath (admits_add_iff.mp ha).2).1
  exact ⟨by simp [Made.isManifest, hpath.ne_manifest], rfl⟩

/-- Neither is writing the media type. -/
theorem isManifest_mimetypeItem (mediaType : String) :
    (mimetypeItem mediaType).taken.isManifest = false
      ∧ (mimetypeItem mediaType).taken.isFinish = false :=
  ⟨(by decide : (Vocabulary.mimetypePath == Vocabulary.manifestPath) = false), rfl⟩

/-- Among the `attempt?` calls are none at the manifest or the finish, so the rest of the log
counts. -/
theorem countP_filterMap_attempt? (ts : List (Turn α)) :
    (ts.filterMap Turn.attempt?).countP Made.isManifest = 0
      ∧ (ts.filterMap Turn.attempt?).countP Made.isFinish = 0 := by
  simp only [List.countP_eq_zero, List.mem_filterMap, Bool.not_eq_true]
  refine ⟨?_, ?_⟩ <;> rintro made ⟨t, -, h⟩
  · exact (Turn.isManifest_of_attempt? h).1
  · exact (Turn.isManifest_of_attempt? h).2

/-- `Closing` attempts the manifest and the finish at most once. -/
theorem Closing.countP_le {ts : List (Turn α)} {closing : List Made} (h : Closing ts closing) :
    closing.countP Made.isManifest ≤ 1 ∧ closing.countP Made.isFinish ≤ 1 := by
  cases h with
  | pending => simp
  | manifestLost | finished => simp [Made.isManifest, Made.isFinish, manifestCall]

/-- The log of a package that was begun. -/
theorem calls_of_created {mediaType : String} {archive : α} {w : PlainWriter (Traced α)}
    (h : create ⟨archive, []⟩ mediaType = .ok w) (qs : List Request) :
    ∃ closing, Closing (visits serve w qs) closing
      ∧ (replay serve w qs).2.archive.calls
        = (mimetypeItem mediaType).taken :: (visits serve w qs).filterMap Turn.attempt?
          ++ closing := by
  obtain ⟨archive', ha, rfl⟩ := exists_of_create h
  obtain ⟨closing, hc, hl⟩ :=
    calls_replay (⟨archive', { mediaType }, [], false⟩ : PlainWriter (Traced α)) qs
  refine ⟨closing, hc, ?_⟩
  rw [hl, Traced.calls_of_writeEntry ha]
  rfl

/-- **The protocol of a plain package.**  Every run of a package that `create` has begun is
`Orderly`. -/
theorem orderly_of_created {mediaType : String} {archive : α} {w : PlainWriter (Traced α)}
    (h : create ⟨archive, []⟩ mediaType = .ok w) (qs : List Request) :
    Orderly mediaType (visits serve w qs) (replay serve w qs).2 := by
  obtain ⟨closing, hc, hl⟩ := calls_of_created h qs
  obtain ⟨as, hf, hp⟩ := exists_fresh h qs
  obtain ⟨hm, hfin⟩ := countP_filterMap_attempt? (visits serve w qs)
  exact {
    log := ⟨closing, hc, hl⟩
    manifestOnce := by
      rw [hl, List.countP_append, List.countP_cons, hm, (isManifest_mimetypeItem mediaType).1]
      simpa using hc.countP_le.1
    finishOnce := by
      rw [hl, List.countP_append, List.countP_cons, hfin, (isManifest_mimetypeItem mediaType).2]
      simpa using hc.countP_le.2
    reads := by
      intro t ht
      obtain ⟨qs₁, hb⟩ := exists_replay_of_mem_visits ht
      rw [hb]
      exact manifest?_manifestCall h qs₁
    refused := fun t _ ha => ⟨(t.step.eq_of_not_admits ha).2, Turn.after_of_not_admitted ha⟩
    failed := by
      intro t _ path mediaType content e hq he
      have hs := t.step
      rw [hq, he] at hs
      exact hs.eq_of_add_error
    closed := by
      intro pre t post hts _ hq s hs
      obtain ⟨-, qs₂, -, -, rfl⟩ := visits_eq_append_cons hts
      have hclosed := t.step
      rw [hq] at hclosed
      exact (visits_of_closed hclosed.closed_close hs).2
    manifest := by
      obtain ⟨archive', -, rfl⟩ := exists_of_create h
      rw [manifest_replay]
      rfl
    usable := by
      intro path hpath
      rw [hp] at hpath
      obtain ⟨a, ha, rfl⟩ := List.mem_map.mp hpath
      exact hf.usable a ha
    nodup := by
      rw [hp]
      exact hf.nodup
    written := by
      rw [hp]
      exact hf.written }

/-- On a `Shelf` with room for two calls the second file is not taken, and neither is the
manifest. -/
theorem orderly_shelf :
    ∃ w, create (⟨⟨2⟩, []⟩ : Traced Shelf) "text" = .ok w
      ∧ Orderly "text" (visits serve w [.add "a" "x" [1], .add "b" "y" [2], .close, .close])
        (replay serve w [.add "a" "x" [1], .add "b" "y" [2], .close, .close]).2 := by
  obtain ⟨w, hw⟩ := exists_eq_ok_of_isOk (x := create (⟨⟨2⟩, []⟩ : Traced Shelf) "text")
    (by decide +kernel)
  exact ⟨w, hw, orderly_of_created hw _⟩

end

end PlainWriter

end OpenDocument
