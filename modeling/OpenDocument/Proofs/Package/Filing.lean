import OpenDocument.Proofs.Package.Run
import OpenDocument.Proofs.Protection.Bookkeeping
import OpenDocument.Proofs.Zip.Log

/-!
# OpenDocument.Proofs.Package.Filing

What package writers file.  Plain and protected writers keep, next to their archives, a manifest of
what they have written; `Filed` ties the manifest and the log of the archive to the files that were
added, for both kinds of writers, and `Fresh` says that these have names of their own.  Each step of
either writer keeps both.
-/

namespace OpenDocument

open Archive (Made Traced)
open Zip (Item)

/-! ## Files -/

/-- A file as it was given to a writer that has added it to its package. -/
structure Addition where
  path : String
  mediaType : String
  content : Bytes
  encrypt : Bool
  deriving DecidableEq, Repr

/-- The file that a call gives to a plain writer, which never encrypts. -/
def PlainWriter.Request.addition? : PlainWriter.Request → Option Addition
  | .add path mediaType content => some ⟨path, mediaType, content, false⟩
  | .close => none

/-- The file that a call gives to a protected writer. -/
def ProtectedWriter.Request.addition? : ProtectedWriter.Request → Option Addition
  | .write path mediaType content encrypt => some ⟨path, mediaType, content, encrypt⟩
  | .close => none

section

variable {ω κ : Type} (addition? : κ → Option Addition)

/-- What a call with this answer has added: its `addition?` if the answer is a success. -/
def addedBy (q : κ) (result : Except Error Unit) : List Addition :=
  if result.isOk then (addition? q).toList else []

@[simp] theorem addedBy_error (q : κ) (e : Error) : addedBy addition? q (.error e) = [] := rfl

/-- What calls with these answers have added, by `addedBy`. -/
def additions (qs : List κ) (results : List (Except Error Unit)) : List Addition :=
  (qs.zip results).flatMap fun (q, result) => addedBy addition? q result

theorem additions_concat {qs : List κ} {results : List (Except Error Unit)}
    (h : qs.length = results.length) (q : κ) (result : Except Error Unit) :
    additions addition? (qs ++ [q]) (results ++ [result])
      = additions addition? qs results ++ addedBy addition? q result := by
  rw [additions, List.zip_append h, List.flatMap_append]
  exact congrArg _ (List.append_nil _)

/-- A property of what was added so far, and of the writer, is kept by a `replay` if it is kept call
by call. -/
theorem replay_additions {serve : ω → κ → Except Error Unit × ω} {P : List Addition → ω → Prop}
    (step : ∀ as w q, P as w → P (as ++ addedBy addition? q (serve w q).1) (serve w q).2)
    {as : List Addition} {w : ω} (h : P as w) (qs : List κ) :
    P (as ++ additions addition? qs (replay serve w qs).1) (replay serve w qs).2 := by
  induction qs generalizing as w with
  | nil => simpa [additions] using h
  | cons q qs ih =>
      have hnext := ih (step as w q h)
      rw [List.append_assoc] at hnext
      simpa only [replay_cons, additions, List.zip_cons_cons, List.flatMap_cons] using hnext

/-- What the answer `r₀` to the call `q₀` brings about and every call keeps, holds at the end of a
`replay` with that answer to that call. -/
theorem replay_reaches {serve : ω → κ → Except Error Unit × ω} {P : ω → Prop} {q₀ : κ}
    {r₀ : Except Error Unit} (reach : ∀ w, (serve w q₀).1 = r₀ → P (serve w q₀).2)
    (keep : ∀ w q, P w → P (serve w q).2) {w : ω} {qs : List κ}
    (h : (q₀, r₀) ∈ qs.zip (replay serve w qs).1) : P (replay serve w qs).2 := by
  induction qs generalizing w with
  | nil => cases h
  | cons q qs ih =>
      simp only [replay_cons, List.zip_cons_cons, List.mem_cons, Prod.mk.injEq] at h ⊢
      rcases h with ⟨rfl, hr⟩ | h
      · exact replay_induction keep (reach w hr.symm) qs
      · exact ih h

end

@[simp] theorem PlainWriter.addedBy_close (result : Except Error Unit) :
    addedBy PlainWriter.Request.addition? .close result = [] := by
  cases result <;> rfl

@[simp] theorem ProtectedWriter.addedBy_close (result : Except Error Unit) :
    addedBy ProtectedWriter.Request.addition? .close result = [] := by
  cases result <;> rfl

/-- A file of a package: as it was added, as the `entry` of the manifest lists it, and as the `item`
that the archive got. -/
structure Filing where
  addition : Addition
  entry : Entry
  item : Item

/-- A file that was filed as its kind demands.  A clear one has nothing but path and media type in
the manifest, and its content is deflated; an encrypted one has a descriptor, and what is stored is
the deflated content, encrypted under the vector of the descriptor with the given key. -/
inductive Filing.Valid (k : Option Cipher.RoundKeys) : Filing → Prop
  | clear {path mediaType : String} {content : Bytes} :
      Valid k ⟨⟨path, mediaType, content, false⟩, .clear path mediaType,
        ⟨path, content, .deflated⟩⟩
  | encrypted {path mediaType : String} {content filler : Bytes} {keys : Cipher.RoundKeys}
      {e : Entry} {d : Descriptor} (hk : k = some keys) (hp : e.path = path)
      (hm : e.mediaType = mediaType) (hd : e.encryption = some d)
      (hf : filler.length = fillerLength (Deflate.compress content)) :
      Valid k ⟨⟨path, mediaType, content, true⟩, e,
        ⟨path, Cipher.encryptBytes keys d.initialisationVector
          (Cipher.pad (Deflate.compress content) filler), .stored⟩⟩

/-- A ciphertext that is recorded as `Ledger.record` does it is filed as it has to be. -/
theorem Filing.Valid.of_record (keys : Cipher.RoundKeys) (l : Ledger) (r : Record)
    {content filler : Bytes} (hf : filler.length = fillerLength (Deflate.compress content)) :
    Filing.Valid (some keys) ⟨⟨r.path, r.mediaType, content, true⟩, l.entry r,
      ⟨r.path, Cipher.encryptBytes keys r.vector (Cipher.pad (Deflate.compress content) filler),
        .stored⟩⟩ :=
  @Valid.encrypted (some keys) r.path r.mediaType content filler keys (l.entry r) (l.descriptor r)
    rfl rfl rfl rfl hf

/-- A `Valid` filing lists and stores a file under the path that it was added with. -/
theorem Filing.Valid.paths {k : Option Cipher.RoundKeys} {f : Filing} (h : f.Valid k) :
    f.entry.path = f.addition.path ∧ f.item.path = f.addition.path := by
  cases h with
  | clear => exact ⟨rfl, rfl⟩
  | encrypted hk hp => exact ⟨hp, rfl⟩

/-- Files with usable paths (`EntryPath`) of their own, which the writer knows. -/
structure Fresh (as : List Addition) (written : List String) : Prop where
  written : written = (as.map Addition.path).reverse
  nodup : (as.map Addition.path).Nodup
  usable : ∀ a ∈ as, EntryPath a.path

theorem Fresh.nil : Fresh [] [] :=
  ⟨rfl, List.nodup_nil, by simp⟩

/-- A path that passes `checkPath` is one more that is `Fresh`. -/
theorem Fresh.add {as : List Addition} {written : List String} (h : Fresh as written)
    {a : Addition} (hp : checkPath written a.path = .ok ()) :
    Fresh (as ++ [a]) (a.path :: written) := by
  obtain ⟨hpath, hnew⟩ := entryPath_of_checkPath hp
  rw [h.written, List.mem_reverse] at hnew
  refine ⟨?_, ?_, ?_⟩
  · rw [List.map_append, List.reverse_append, h.written]
    rfl
  · rw [List.map_append, List.map_singleton, ← List.concat_eq_append]
    exact List.Nodup.concat hnew h.nodup
  · intro b hb
    rcases List.mem_append.mp hb with hb | hb
    · exact h.usable b hb
    · rw [List.mem_singleton.mp hb]
      exact hpath

/-! ## Packages -/

/-- The media type as the archive gets it. -/
def mimetypeItem (mediaType : String) : Item :=
  ⟨Vocabulary.mimetypePath, mediaType.toUTF8.toList, .stored⟩

/-- A manifest as the archive gets it. -/
def manifestItem (m : Manifest) : Item :=
  ⟨Vocabulary.manifestPath, m.toXml.toUTF8.toList, .deflated⟩

/-- The items of a package with these files: the media type, the files, and the manifest. -/
def packageItems (filings : List Filing) (m : Manifest) : List Item :=
  mimetypeItem m.mediaType :: filings.map Filing.item ++ [manifestItem m]

/-- What a writer has filed, if its archive has taken every call: the files that were added, one by
one, in the manifest and in the log, behind the media type and, when it was closed, in front of the
manifest and a finish. -/
structure Filed (k : Option Cipher.RoundKeys) (mediaType : String) (as : List Addition)
    (m : Manifest) (calls : List Made) (closed : Bool) (filings : List Filing) : Prop where
  additions : filings.map Filing.addition = as
  entries : filings.map Filing.entry = m.entries
  valid : ∀ f ∈ filings, f.Valid k
  mediaType_eq : m.mediaType = mediaType
  calls : calls = (mimetypeItem mediaType :: filings.map Filing.item).map Item.taken
    ++ if closed then [(manifestItem m).taken, Zip.finished] else []

/-- What a writer keeps: as long as its archive has taken every call, the package is `Filed`. -/
def Files (k : Option Cipher.RoundKeys) (mediaType : String) (as : List Addition) (m : Manifest)
    (calls : List Made) (closed : Bool) : Prop :=
  (∀ made ∈ calls, made.failure = none) → ∃ filings, Filed k mediaType as m calls closed filings

namespace Files

variable {k : Option Cipher.RoundKeys} {mediaType : String} {as : List Addition} {m : Manifest}
  {calls : List Made} {closed : Bool}

/-- A log with a failure at its end files nothing. -/
theorem of_failure {c : Archive.Call} {e : Error} :
    Files k mediaType as m (calls ++ [⟨c, Archive.failure? (.error e)⟩]) closed := by
  intro hall
  cases hall _ (List.mem_append_right _ (List.mem_singleton_self _))

/-- A package of which only `mimetypeItem` was written. -/
theorem opened (k : Option Cipher.RoundKeys) (mediaType : String) :
    Files k mediaType [] { mediaType } [(mimetypeItem mediaType).taken] false :=
  fun _ => ⟨[], rfl, rfl, by simp, rfl, rfl⟩

/-- One more file that is `Valid`. -/
theorem add (h : Files k mediaType as m calls false) {f : Filing} (hf : f.Valid k) :
    Files k mediaType (as ++ [f.addition]) (m.push f.entry) (calls ++ [f.item.taken]) false := by
  intro hall
  obtain ⟨filings, hfiled⟩ := h fun made hm => hall made (List.mem_append_left _ hm)
  refine ⟨filings ++ [f], ?_, ?_, ?_, hfiled.mediaType_eq, ?_⟩
  · rw [List.map_append, hfiled.additions]
    rfl
  · rw [List.map_append, hfiled.entries]
    rfl
  · intro g hg
    rcases List.mem_append.mp hg with hg | hg
    · exact hfiled.valid g hg
    · rw [List.mem_singleton.mp hg]
      exact hf
  · rw [hfiled.calls]
    simp

/-- The package is complete with `manifestItem` and a finish. -/
theorem close (h : Files k mediaType as m calls false) :
    Files k mediaType as m (calls ++ [(manifestItem m).taken, Zip.finished]) true := by
  intro hall
  obtain ⟨filings, hfiled⟩ := h fun made hm => hall made (List.mem_append_left _ hm)
  refine ⟨filings, hfiled.additions, hfiled.entries, hfiled.valid, hfiled.mediaType_eq, ?_⟩
  rw [hfiled.calls]
  simp

end Files

/-! ## Steps -/

/-- A call on an archive, made by a writer with `perform`, keeps what every call keeps. -/
theorem Archive.of_perform {α : Type} [Archive α] {P : α → Prop}
    (call : ∀ a c, P a → P (Archive.perform a c).2) {a a' : α} {c : Archive.Call}
    {result : Except Error Unit} (h : P a) (hc : Archive.perform a c = (result, a')) : P a' := by
  have hp := call a c h
  rwa [hc] at hp

namespace PlainWriter

variable {α : Type} [Archive α] {q : Request} {result : Except Error Unit}

/-- What every call on an archive keeps, a plain writer keeps for its archive. -/
theorem Step.archive_induction {w w' : PlainWriter α} {P : α → Prop}
    (call : ∀ a c, P a → P (Archive.perform a c).2) (hs : Step w q result w')
    (h : P w.archive) : P w'.archive := by
  cases hs with
  | refused | rejected => exact h
  | lost hc hp ha | added hc hp ha => exact Archive.of_perform call (c := .write _ _ _) h ha
  | manifestLost hc ha => exact Archive.of_perform call (c := .write _ _ _) h ha
  | closed hc ha hf =>
      exact Archive.of_perform call (c := .finish)
        (Archive.of_perform call (c := .write _ _ _) h ha) hf

/-- A plain writer keeps `Files` of what is added. -/
theorem Step.files {w w' : PlainWriter (Traced α)} {mediaType : String} {as : List Addition}
    (hs : Step w q result w') (h : Files none mediaType as w.manifest w.archive.calls w.closed) :
    Files none mediaType (as ++ addedBy Request.addition? q result) w'.manifest w'.archive.calls
      w'.closed := by
  cases hs with
  | refused | rejected => rwa [addedBy_error, List.append_nil]
  | lost hc hp ha =>
      rw [Traced.calls_of_writeEntry ha]
      exact .of_failure
  | @added path mediaType' content archive hc hp ha =>
      rw [hc] at h ⊢
      rw [Traced.calls_of_writeEntry ha]
      exact h.add (f := ⟨⟨path, mediaType', content, false⟩, .clear path mediaType',
        ⟨path, content, .deflated⟩⟩) .clear
  | manifestLost hc ha =>
      rw [Traced.calls_of_writeEntry ha]
      exact .of_failure
  | @closed result archive archive' hc ha hf =>
      rw [hc] at h
      rw [Traced.calls_of_finish hf, Traced.calls_of_writeEntry ha]
      cases result with
      | error e => exact .of_failure
      | ok u =>
          rw [List.append_assoc, addedBy_close, List.append_nil]
          exact h.close

/-- A plain writer takes no path twice, and so keeps what was added `Fresh`. -/
theorem Step.fresh {w w' : PlainWriter α} {as : List Addition} (hs : Step w q result w')
    (h : Fresh as w.written) : Fresh (as ++ addedBy Request.addition? q result) w'.written := by
  cases hs with
  | refused | rejected | lost | manifestLost => rwa [addedBy_error, List.append_nil]
  | added hc hp ha => exact h.add hp
  | closed => rwa [addedBy_close, List.append_nil]

end PlainWriter

namespace ProtectedWriter

variable {α ρ : Type} [Archive α] [RandomSource ρ] {q : Request} {result : Except Error Unit}

/-- What every call on an archive keeps, a protected writer keeps for its archive. -/
theorem Step.archive_induction {w w' : ProtectedWriter α ρ} {P : α → Prop}
    (call : ∀ a c, P a → P (Archive.perform a c).2) (hs : Step w q result w')
    (h : P w.archive) : P w'.archive := by
  cases hs with
  | refused | rejected | unencrypted => exact h
  | encryptedLost hw hp he ha | encrypted hw hp he ha =>
      exact Archive.of_perform call (c := .write _ _ _) h ha
  | clearLost hw hp ha | clear hw hp ha =>
      exact Archive.of_perform call (c := .write _ _ _) h ha
  | manifestLost hw ha => exact Archive.of_perform call (c := .write _ _ _) h ha
  | unfinished hw ha hf | closed hw ha hf =>
      exact Archive.of_perform call (c := .finish)
        (Archive.of_perform call (c := .write _ _ _) h ha) hf

/-- A protected writer keeps `Files` of what is added. -/
theorem Step.files {w w' : ProtectedWriter (Traced α) ρ} {keys : Cipher.RoundKeys}
    (hk : Cipher.RoundKeys.ofBytes? w.key.bytes = some keys) {mediaType : String}
    {as : List Addition} (hs : Step w q result w')
    (h : Files (some keys) mediaType as w.manifest w.archive.calls w.isClosed) :
    Files (some keys) mediaType (as ++ addedBy Request.addition? q result) w'.manifest
      w'.archive.calls w'.isClosed := by
  have writing : w.phase = .writing → w.isClosed = false := fun hw => by rw [isClosed, hw]; rfl
  cases hs with
  | refused | rejected => rwa [addedBy_error, List.append_nil]
  | unencrypted hw hp he =>
      rw [writing hw] at h
      rwa [addedBy_error, List.append_nil]
  | encryptedLost hw hp he ha | clearLost hw hp ha | manifestLost hw ha =>
      rw [Traced.calls_of_writeEntry ha]
      exact .of_failure
  | unfinished hw ha hf =>
      rw [Traced.calls_of_finish hf]
      exact .of_failure
  | @encrypted path mediaType' content entry random archive ledger hw hp he ha hl =>
      obtain ⟨p, hfit, -, rfl⟩ := encryptFresh_eq_ok hk he
      -- the manifest names the vector of the attempt whose ciphertext is stored
      have hvalid := Filing.Valid.of_record keys w.ledger (w.recordOf path mediaType'
        (sealEntry keys (Deflate.compress content) (Summary.of content) w.parameters p.vector
          p.filler)) hfit.filler
      have hmanifest := congrArg Ledger.manifest (eq_of_record hl)
      rw [writing hw] at h
      rw [ciphertext_sealEntry] at ha
      show Files (some keys) mediaType (as ++ [⟨path, mediaType', content, true⟩]) ledger.manifest
        archive.calls w.isClosed
      rw [writing hw, Traced.calls_of_writeEntry ha, hmanifest]
      exact h.add hvalid
  | @clear path mediaType' content archive hw hp ha =>
      rw [writing hw] at h
      show Files (some keys) mediaType (as ++ [⟨path, mediaType', content, false⟩])
        (w.manifest.push (.clear path mediaType')) archive.calls w.isClosed
      rw [writing hw, Traced.calls_of_writeEntry ha]
      exact h.add (f := ⟨⟨path, mediaType', content, false⟩, .clear path mediaType',
        ⟨path, content, .deflated⟩⟩) .clear
  | closed hw ha hf =>
      rw [writing hw] at h
      rw [Traced.calls_of_finish hf, Traced.calls_of_writeEntry ha, List.append_assoc,
        addedBy_close, List.append_nil]
      exact h.close

/-- A protected writer takes no path twice, and so keeps what was added `Fresh`. -/
theorem Step.fresh {w w' : ProtectedWriter α ρ} {as : List Addition} (hs : Step w q result w')
    (h : Fresh as w.written) : Fresh (as ++ addedBy Request.addition? q result) w'.written := by
  cases hs with
  | refused | rejected | unencrypted | encryptedLost | clearLost | manifestLost | unfinished =>
      rwa [addedBy_error, List.append_nil]
  | encrypted hw hp | clear hw hp => exact h.add hp
  | closed => rwa [addedBy_close, List.append_nil]

end ProtectedWriter

end OpenDocument
