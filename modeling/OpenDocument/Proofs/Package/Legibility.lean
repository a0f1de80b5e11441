import OpenDocument.Proofs.Manifest.Listing
import OpenDocument.Proofs.Package.Finished
import OpenDocument.Proofs.Package.Protocol

/-!
# OpenDocument.Proofs.Package.Legibility

What a reader that keeps to XML 1.0 sees of the manifest of a package.  `Documented` ties the
document that a writer hands to its archive to the files that were added; each step of either writer
keeps it, whatever the archive refuses.  The writers accept any path and any media type, and escape
only the characters that have an entity.  So the document lists what was accepted as `seen`, and not
at all if a character is not legal (`legible_of_ran`); accepted paths that differ in nothing but
white space are listed alike (`confused_shelf`).
-/

namespace OpenDocument

open Archive (Made Traced)
open Markup (isLegal isLegalText isPlainText seen)

/-! ## Documents -/

/-- What a writer keeps, `writing` as long as it takes files: the manifest lists what was added,
with descriptors that have legal texts, and whatever the archive got as the manifest is the document
of it, after which no file is taken. -/
structure Documented (mediaType : String) (as : List Addition) (m : Manifest) (calls : List Made)
    (writing : Bool) : Prop where
  mediaType_eq : m.mediaType = mediaType
  listed : m.entries.map (fun e => (e.path, e.mediaType)) = as.map fun a => (a.path, a.mediaType)
  legal : ∀ e ∈ m.entries, ∀ d ∈ e.encryption, d.texts.all isLegalText = true
  document : ∀ made ∈ calls, made.isManifest = true →
    made.call = .write Vocabulary.manifestPath m.toXml.toUTF8.toList .deflated ∧ writing = false

namespace Documented

variable {mediaType : String} {as : List Addition} {m : Manifest} {calls : List Made}
  {writing : Bool}

/-- A package of which only `mimetypeItem` was written. -/
theorem opened (mediaType : String) :
    Documented mediaType [] { mediaType } [(mimetypeItem mediaType).taken] true where
  mediaType_eq := rfl
  listed := rfl
  legal := by simp
  document := by
    intro made hmade hm
    rw [List.mem_singleton.mp hmade, (PlainWriter.isManifest_mimetypeItem mediaType).1] at hm
    cases hm

/-- A call that is not `isManifest` changes nothing. -/
theorem call (h : Documented mediaType as m calls writing) {made : Made}
    (hm : made.isManifest = false) : Documented mediaType as m (calls ++ [made]) writing where
  mediaType_eq := h.mediaType_eq
  listed := h.listed
  legal := h.legal
  document := by
    intro made' hmade hm'
    rcases List.mem_append.mp hmade with hmade | hmade
    · exact h.document made' hmade hm'
    · rw [List.mem_singleton.mp hmade, hm] at hm'
      cases hm'

/-- Neither does taking no more files. -/
theorem giveUp (h : Documented mediaType as m calls writing) :
    Documented mediaType as m calls false :=
  { h with document := fun made hmade hm => ⟨(h.document made hmade hm).1, rfl⟩ }

/-- While files are taken, no call of the log `isManifest`. -/
theorem isManifest_eq_false (h : Documented mediaType as m calls true) :
    ∀ made ∈ calls, made.isManifest = false := by
  intro made hmade
  cases hm : made.isManifest with
  | false => rfl
  | true => cases (h.document made hmade hm).2

/-- One more file, with an entry under its path. -/
theorem push (h : Documented mediaType as m calls true) {a : Addition} {e : Entry} {made : Made}
    (hp : e.path = a.path) (hm : e.mediaType = a.mediaType)
    (hd : ∀ d ∈ e.encryption, d.texts.all isLegalText = true) (hc : made.isManifest = false) :
    Documented mediaType (as ++ [a]) (m.push e) (calls ++ [made]) true where
  mediaType_eq := h.mediaType_eq
  listed := by
    rw [Manifest.entries_push, List.map_append, List.map_append, h.listed, List.map_singleton,
      List.map_singleton, hp, hm]
  legal := List.forall_mem_append.mpr ⟨h.legal, List.forall_mem_singleton.mpr hd⟩
  document := by
    intro made' hmade hm'
    rcases List.mem_append.mp hmade with hmade | hmade
    · rw [h.isManifest_eq_false made' hmade] at hm'
      cases hm'
    · rw [List.mem_singleton.mp hmade, hc] at hm'
      cases hm'

/-- The document by `toXml` is handed over, and no file is taken after it. -/
theorem close (h : Documented mediaType as m calls true) (failure : Option Error) :
    Documented mediaType as m (calls ++
      [⟨.write Vocabulary.manifestPath m.toXml.toUTF8.toList .deflated, failure⟩]) false where
  mediaType_eq := h.mediaType_eq
  listed := h.listed
  legal := h.legal
  document := by
    intro made hmade hm
    rcases List.mem_append.mp hmade with hmade | hmade
    · rw [h.isManifest_eq_false made hmade] at hm
      cases hm
    · rw [List.mem_singleton.mp hmade]
      exact ⟨rfl, rfl⟩

end Documented

/-! ## Steps -/

/-- No path that passed `checkPath` is that of the manifest. -/
theorem isManifest_of_checkPath {written : List String} {path : String}
    (h : checkPath written path = .ok ()) (data : Bytes) (method : Zip.Method)
    (failure : Option Error) : Made.isManifest ⟨.write path data method, failure⟩ = false := by
  have hpath := (entryPath_of_checkPath h).1
  simp [Made.isManifest, hpath.ne_manifest]

/-- A plain writer keeps what is added `Documented`. -/
theorem PlainWriter.Step.documented {α : Type} [Archive α] {w w' : PlainWriter (Traced α)}
    {q : Request} {result : Except Error Unit} {mediaType : String} {as : List Addition}
    (hs : Step w q result w')
    (h : Documented mediaType as w.manifest w.archive.calls !w.closed) :
    Documented mediaType (as ++ addedBy Request.addition? q result) w'.manifest w'.archive.calls
      !w'.closed := by
  cases hs with
  | refused | rejected => rwa [addedBy_error, List.append_nil]
  | lost hc hp ha =>
      rw [Traced.calls_of_writeEntry ha, addedBy_error, List.append_nil]
      exact h.call (isManifest_of_checkPath hp _ _ _)
  | @added path mediaType' content archive hc hp ha =>
      rw [hc] at h ⊢
      rw [Traced.calls_of_writeEntry ha]
      exact h.push (a := ⟨path, mediaType', content, false⟩) rfl rfl (by rintro d ⟨⟩)
        (isManifest_of_checkPath hp _ _ _)
  | manifestLost hc ha =>
      rw [hc] at h
      rw [Traced.calls_of_writeEntry ha, addedBy_error, List.append_nil]
      exact h.close _
  | closed hc ha hf =>
      rw [hc] at h
      rw [Traced.calls_of_finish hf, Traced.calls_of_writeEntry ha, addedBy_close, List.append_nil]
      exact (h.close _).call rfl

/-- The texts of a descriptor by `Ledger.descriptor` are of the vocabulary, and so legal. -/
theorem ProtectedWriter.isLegalText_recordOf {α ρ : Type} (w : ProtectedWriter α ρ)
    (path mediaType : String) (entry : EncryptedEntry) :
    (w.ledger.descriptor (w.recordOf path mediaType entry)).texts.all isLegalText = true := by
  have hchecksum : ∀ kind : ChecksumKind, isLegalText kind.identifier = true := by
    intro kind
    cases kind <;> decide +kernel
  have hcipher : ∀ size : Cipher.KeySize, isLegalText size.identifier = true := by
    intro size
    cases size <;> decide +kernel
  have hstart : ∀ algorithm : Hash.Algorithm, isLegalText algorithm.startKeyName = true := by
    intro algorithm
    cases algorithm <;> decide +kernel
  have hderivation : isLegalText Vocabulary.keyDerivation = true := by decide +kernel
  simp [Descriptor.texts, Ledger.descriptor, recordOf, hchecksum, hcipher, hstart, hderivation]

/-- A protected writer keeps what is added `Documented`. -/
theorem ProtectedWriter.Step.documented {α ρ : Type} [Archive α] [RandomSource ρ]
    {w w' : ProtectedWriter (Traced α) ρ} {q : Request} {result : Except Error Unit}
    {mediaType : String} {as : List Addition} (hs : Step w q result w')
    (h : Documented mediaType as w.manifest w.archive.calls (w.phase == .writing)) :
    Documented mediaType (as ++ addedBy Request.addition? q result) w'.manifest w'.archive.calls
      (w'.phase == .writing) := by
  cases hs with
  | refused | rejected => rwa [addedBy_error, List.append_nil]
  | unencrypted hw hp he =>
      rw [addedBy_error, List.append_nil]
      exact h.giveUp
  | encryptedLost hw hp he ha | clearLost hw hp ha =>
      rw [Traced.calls_of_writeEntry ha, addedBy_error, List.append_nil]
      exact (h.call (isManifest_of_checkPath hp _ _ _)).giveUp
  | @encrypted path mediaType' content entry random archive ledger hw hp he ha hl =>
      have hmanifest := congrArg Ledger.manifest (eq_of_record hl)
      rw [hw] at h
      show Documented mediaType (as ++ [⟨path, mediaType', content, true⟩]) ledger.manifest
        archive.calls (w.phase == .writing)
      rw [hw, Traced.calls_of_writeEntry ha, hmanifest]
      refine h.push rfl rfl ?_ (isManifest_of_checkPath hp _ _ _)
      rintro d ⟨⟩
      exact isLegalText_recordOf w path mediaType' entry
  | @clear path mediaType' content archive hw hp ha =>
      rw [hw] at h
      show Documented mediaType (as ++ [⟨path, mediaType', content, false⟩])
        (w.manifest.push (.clear path mediaType')) archive.calls (w.phase == .writing)
      rw [hw, Traced.calls_of_writeEntry ha]
      exact h.push rfl rfl (by rintro d ⟨⟩) (isManifest_of_checkPath hp _ _ _)
  | manifestLost hw ha =>
      rw [hw] at h
      rw [Traced.calls_of_writeEntry ha, addedBy_close, List.append_nil]
      exact h.close _
  | unfinished hw ha hf | closed hw ha hf =>
      rw [hw] at h
      rw [Traced.calls_of_finish hf, Traced.calls_of_writeEntry ha, addedBy_close, List.append_nil]
      exact (h.close _).call rfl

/-! ## Runs -/

/-- Runs of a plain or a protected writer on an archive, begun as `a`: what was added, and the log
of the archive at the end of the run. -/
inductive Ran {α : Type} [Archive α] (a : α) (mediaType : String) :
    List Addition → List Made → Prop
  | ofPlain {w : PlainWriter (Traced α)} (h : PlainWriter.create ⟨a, []⟩ mediaType = .ok w)
      (qs : List PlainWriter.Request) :
      Ran a mediaType
        (additions PlainWriter.Request.addition? qs (replay PlainWriter.serve w qs).1)
        (replay PlainWriter.serve w qs).2.archive.calls
  | ofProtected {ρ : Type} [RandomSource ρ] {random : ρ} {parameters : Parameters}
      {w : ProtectedWriter (Traced α) ρ}
      (h : ProtectedWriter.Opened mediaType parameters ⟨a, []⟩ random w)
      (qs : List ProtectedWriter.Request) :
      Ran a mediaType
        (additions ProtectedWriter.Request.addition? qs (replay ProtectedWriter.serve w qs).1)
        (replay ProtectedWriter.serve w qs).2.archive.calls

section

variable {α : Type} [Archive α] {a : α} {mediaType : String} {as : List Addition}
  {calls : List Made}

/-- Whatever is handed over as the manifest of what `Ran` was `Documented`. -/
theorem Ran.exists_documented (h : Ran a mediaType as calls) :
    ∃ m writing, Documented mediaType as m calls writing := by
  cases h with
  | @ofPlain w h qs =>
      have hopened : Documented mediaType [] w.manifest w.archive.calls !w.closed := by
        obtain ⟨archive, ha, rfl⟩ := PlainWriter.exists_of_create h
        rw [Traced.calls_of_writeEntry ha]
        exact .opened mediaType
      have hreplay := replay_additions (P := fun as (w : PlainWriter (Traced α)) =>
        Documented mediaType as w.manifest w.archive.calls !w.closed)
        PlainWriter.Request.addition? (fun as w q h => (PlainWriter.step_serve w q).documented h)
        hopened qs
      exact ⟨_, _, hreplay⟩
  | @ofProtected ρ _ random parameters w h qs =>
      have hopened : Documented mediaType [] w.manifest w.archive.calls (w.phase == .writing) := by
        obtain ⟨digest, salt, random', key, archive, -, ha, rfl⟩ := h.exists_eq
        rw [Traced.calls_of_writeEntry ha]
        exact .opened mediaType
      have hreplay := replay_additions (P := fun as (w : ProtectedWriter (Traced α) ρ) =>
        Documented mediaType as w.manifest w.archive.calls (w.phase == .writing))
        ProtectedWriter.Request.addition?
        (fun as w q h => (ProtectedWriter.step_serve w q).documented h) hopened qs
      exact ⟨_, _, hreplay⟩

/-- No path is accepted twice. -/
theorem Ran.nodup_paths (h : Ran a mediaType as calls) : (as.map Addition.path).Nodup := by
  cases h with
  | ofPlain h qs => exact (PlainWriter.kept_replay h qs).fresh.nodup
  | ofProtected h qs => exact (ProtectedWriter.kept_replay h qs).fresh.nodup

/-- The texts that a package was given: its media type, and the paths and the media types of its
files. -/
def givenTexts (mediaType : String) (as : List Addition) : List String :=
  mediaType :: as.flatMap fun a => [a.path, a.mediaType]

/-- What a reader that keeps to XML 1.0 sees of the manifest of a package, by `listing?`. -/
structure Legible (mediaType : String) (as : List Addition) (text : String) : Prop where
  /-- The document is as legal as the `givenTexts`. -/
  legal : text.toList.all isLegal = (givenTexts mediaType as).all isLegalText
  /-- If it is legal, then it lists the package and every file, as they are seen. -/
  listing : listing? text = if (givenTexts mediaType as).all isLegalText then
    some (("/", seen mediaType) :: as.map fun a => (seen a.path, seen a.mediaType)) else none
  /-- They are listed as they were given exactly if every reader sees them as they are
  (`isPlainText`). -/
  faithful : listing? text = some (("/", mediaType) :: as.map fun a => (a.path, a.mediaType))
    ↔ ∀ s ∈ givenTexts mediaType as, isPlainText s = true
  /-- The paths that were accepted are distinct, as they were given. -/
  nodup : (as.map Addition.path).Nodup

/-- Only the `givenTexts` count: all other texts of the manifest are legal. -/
theorem Documented.all_texts {m : Manifest} {writing : Bool}
    (h : Documented mediaType as m calls writing) :
    m.texts.all isLegalText = (givenTexts mediaType as).all isLegalText := by
  have hentry : ∀ e ∈ m.entries,
      e.texts.all isLegalText = [e.path, e.mediaType].all isLegalText := by
    intro e he
    have hlegal := h.legal e he
    cases hd : e.encryption with
    | none => simp [Entry.texts, hd]
    | some d => simp only [Entry.texts, hd, Option.toList_some, List.flatMap_cons,
        List.flatMap_nil, List.append_nil, List.all_cons, hlegal d hd, List.all_nil]
  have hentries : (m.entries.flatMap Entry.texts).all isLegalText
      = (m.entries.flatMap fun e => [e.path, e.mediaType]).all isLegalText := by
    rw [Bool.eq_iff_iff, List.all_flatMap, List.all_flatMap, List.all_eq_true, List.all_eq_true]
    exact forall₂_congr fun e he => by rw [hentry e he]
  have hgiven : (m.entries.flatMap fun e => [e.path, e.mediaType])
      = as.flatMap fun a => [a.path, a.mediaType] := by
    have hpairs := congrArg (List.flatMap fun p : String × String => [p.1, p.2]) h.listed
    simpa only [List.flatMap_map] using hpairs
  rw [Manifest.texts, List.all_cons, hentries, hgiven, h.mediaType_eq]
  rfl

/-- Nothing is listed otherwise than it was given exactly if every text `isPlainText`. -/
theorem forall_isPlainText_iff (mediaType : String) (as : List Addition) :
    (∀ s ∈ givenTexts mediaType as, isPlainText s = true)
      ↔ (givenTexts mediaType as).all isLegalText = true ∧ seen mediaType = mediaType
        ∧ as.map (fun a => (seen a.path, seen a.mediaType))
          = as.map fun a => (a.path, a.mediaType) := by
  have hpairs : as.map (fun a => (seen a.path, seen a.mediaType))
      = as.map (fun a => (a.path, a.mediaType))
        ↔ ∀ s ∈ as.flatMap (fun a => [a.path, a.mediaType]), seen s = s := by
    simp only [List.map_inj_left, Prod.mk.injEq, List.forall_mem_flatMap, List.forall_mem_cons,
      List.not_mem_nil, false_implies, implies_true, and_true]
  simp only [Markup.isPlainText_iff, forall₂_and, List.all_eq_true, hpairs, givenTexts,
    List.forall_mem_cons]

/-- The document by `toXml` of what is `Documented` is `Legible`. -/
theorem Documented.legible {m : Manifest} {writing : Bool}
    (h : Documented mediaType as m calls writing) (hn : (as.map Addition.path).Nodup) :
    Legible mediaType as m.toXml := by
  have hseen : m.entries.map (fun e => (seen e.path, seen e.mediaType))
      = as.map fun a => (seen a.path, seen a.mediaType) := by
    have hpairs := congrArg (List.map fun p : String × String => (seen p.1, seen p.2)) h.listed
    rwa [List.map_map, List.map_map] at hpairs
  have hlisting := m.listing?_toXml
  rw [h.all_texts, h.mediaType_eq, hseen] at hlisting
  refine ⟨?_, hlisting, ?_, hn⟩
  · rw [m.all_isLegal_toXml, h.all_texts]
  · rw [hlisting, forall_isPlainText_iff]
    cases (givenTexts mediaType as).all isLegalText with
    | false => simp
    | true => simp

/-- **What every reader sees of the paths that were written.**  Whatever is handed to the archive as
the manifest in a run of either writer is a document that lists the media type, and the paths and
media types that were accepted, as they are seen: exactly as they were given if all of them are
legal and have no white space but spaces, and otherwise not. -/
theorem legible_of_ran (h : Ran a mediaType as calls) {made : Made} (hm : made ∈ calls)
    (hw : made.isManifest = true) :
    ∃ text, made.call = .write Vocabulary.manifestPath text.toUTF8.toList .deflated
      ∧ Legible mediaType as text := by
  obtain ⟨m, writing, hd⟩ := h.exists_documented
  exact ⟨m.toXml, (hd.document made hm hw).1, hd.legible h.nodup_paths⟩

end

/-- A plain package on a shelf, of which the media type was written. -/
def onShelf : PlainWriter (Traced Shelf) where
  archive := ⟨⟨8⟩, [(mimetypeItem "text").taken]⟩
  manifest := { mediaType := "text" }

/-- A package with a line feed in the path of its file. -/
theorem legible_of_ran_shelf :
    let as : List Addition := [⟨"a\nb", "x", [1], false⟩]
    let m : Manifest := ⟨"text", [.clear "a\nb" "x"]⟩
    let calls := [(mimetypeItem "text").taken, ⟨.write "a\nb" [1] .deflated, none⟩,
      (manifestItem m).taken, ⟨.finish, none⟩]
    Ran (⟨9⟩ : Shelf) "text" as calls ∧ (manifestItem m).taken ∈ calls
      ∧ (manifestItem m).taken.isManifest = true
      ∧ ∃ text, (manifestItem m).taken.call
          = .write Vocabulary.manifestPath text.toUTF8.toList .deflated
        ∧ Legible "text" as text := by
  intro as m calls
  have hcreate : PlainWriter.create (⟨⟨9⟩, []⟩ : Traced Shelf) "text" = .ok onShelf := rfl
  have hran : Ran (⟨9⟩ : Shelf) "text" as calls := .ofPlain hcreate [.add "a\nb" "x" [1], .close]
  have hmem : (manifestItem m).taken ∈ calls := by simp [calls]
  have hmanifest : (manifestItem m).taken.isManifest = true := by decide
  exact ⟨hran, hmem, hmanifest, legible_of_ran hran hmem hmanifest⟩

/-- Two paths that differ in white space are accepted and listed alike; a path with a control
character is accepted too, and makes the manifest no document. -/
theorem confused_shelf :
    let as : List Addition := [⟨"a\tb", "x", [1], false⟩, ⟨"a b", "x", [2], false⟩]
    let m : Manifest := ⟨"text", [.clear "a\tb" "x", .clear "a b" "x"]⟩
    let as' : List Addition := [⟨"\x01", "x", [1], false⟩]
    let m' : Manifest := ⟨"text", [.clear "\x01" "x"]⟩
    (Ran (⟨9⟩ : Shelf) "text" as [(mimetypeItem "text").taken, ⟨.write "a\tb" [1] .deflated, none⟩,
          ⟨.write "a b" [2] .deflated, none⟩, (manifestItem m).taken, ⟨.finish, none⟩]
        ∧ listing? m.toXml = some [("/", "text"), ("a b", "x"), ("a b", "x")])
      ∧ Ran (⟨9⟩ : Shelf) "text" as' [(mimetypeItem "text").taken,
          ⟨.write "\x01" [1] .deflated, none⟩, (manifestItem m').taken, ⟨.finish, none⟩]
        ∧ m'.toXml.toList.all isLegal = false := by
  intro as m as' m'
  have hcreate : PlainWriter.create (⟨⟨9⟩, []⟩ : Traced Shelf) "text" = .ok onShelf := rfl
  refine ⟨⟨.ofPlain hcreate [.add "a\tb" "x" [1], .add "a b" "x" [2], .close], ?_⟩,
    .ofPlain hcreate [.add "\x01" "x" [1], .close], ?_⟩
  · rw [m.listing?_toXml]
    decide +kernel
  · rw [m'.all_isLegal_toXml]
    decide +kernel

end OpenDocument
