import OpenDocument.Proofs.Manifest

/-!
# OpenDocument.Proofs.Manifest.Inverse

Writing and reading manifests are inverse to each other, but for entries with the path `/`, which
stands for the package.  No entry of that path is ever read (`Reading.Rootless` is kept by every
construct of a document), so a manifest that was read can be written and read again.
-/

namespace OpenDocument

/-- A computation in two parts succeeds only if both of them do. -/
theorem exists_of_bind_eq_ok {ε β γ : Type} {x : Except ε β} {f : β → Except ε γ} {c : γ}
    (h : x >>= f = .ok c) : ∃ b, x = .ok b ∧ f b = .ok c := by
  cases x with
  | error e => cases h
  | ok b => exact ⟨b, rfl, h⟩

namespace Manifest

namespace Reading

/-! ## Reading makes no entry for the package -/

/-- No entry read so far stands for the package, which has the path `"/"`. -/
def Rootless (r : Reading) : Prop :=
  ∀ e ∈ r.entries, e.path ≠ "/"

variable {r r' : Reading} {as : Attributes}

/-- The descriptor of the entry met last has no part in its path, so it keeps a reading
`Rootless`. -/
theorem Rootless.of_last (h : Rootless r) {entry : Entry} {earlier : List Entry}
    (he : r.entries = entry :: earlier) (d : Descriptor) :
    Rootless { r with entries := { entry with encryption := some d } :: earlier } := by
  rw [Rootless, he] at h
  obtain ⟨hlast, hearlier⟩ := List.forall_mem_cons.mp h
  exact List.forall_mem_cons.mpr ⟨hlast, hearlier⟩

theorem Rootless.fileEntry (h : Rootless r) (hr : r.fileEntry as = .ok r') : Rootless r' := by
  obtain ⟨path, -, hr⟩ := exists_of_bind_eq_ok hr
  by_cases hroot : path = "/"
  · simp only [hroot, if_true] at hr
    cases hr
    exact h
  · simp only [hroot, if_false] at hr
    obtain ⟨size, -, hr⟩ := exists_of_bind_eq_ok hr
    cases hr
    exact List.forall_mem_cons.mpr ⟨hroot, h⟩

theorem Rootless.encryptionData (h : Rootless r) (hr : r.encryptionData as = .ok r') :
    Rootless r' := by
  unfold Reading.encryptionData at hr
  split at hr
  · cases hr
  · next entry earlier he =>
      obtain ⟨checksumType, -, hr⟩ := exists_of_bind_eq_ok hr
      obtain ⟨checksum, -, hr⟩ := exists_of_bind_eq_ok hr
      obtain ⟨compressedSize, -, hr⟩ := exists_of_bind_eq_ok hr
      cases hr
      exact h.of_last he _

theorem Rootless.withDescriptor (h : Rootless r) {f : Descriptor → Except Error Descriptor}
    (hr : r.withDescriptor f = .ok r') : Rootless r' := by
  unfold Reading.withDescriptor at hr
  split at hr
  · cases hr
  · next entry earlier he =>
      split at hr
      · cases hr
      · obtain ⟨d, -, hr⟩ := exists_of_bind_eq_ok hr
        cases hr
        exact h.of_last he d

theorem Rootless.element (h : Rootless r) {name : String} (hr : r.element name as = .ok r') :
    Rootless r' := by
  unfold Reading.element at hr
  split at hr
  · exact h.fileEntry hr
  · exact h.encryptionData hr
  · exact h.withDescriptor hr
  · exact h.withDescriptor hr
  · exact h.withDescriptor hr
  · cases hr
    exact h

theorem Rootless.tag (h : Rootless r) {t : Markup.Tag} (hr : r.tag t = .ok r') :
    Rootless r' := by
  unfold Reading.tag at hr
  split at hr
  · cases hr
  · exact h.element hr

theorem Rootless.event (h : Rootless r) {e : Markup.Event} (hr : r.event e = .ok r') :
    Rootless r' := by
  cases e with
  | start t | empty t => exact h.tag hr
  | text | stop | comment | instruction | characterData | documentType =>
      cases hr
      exact h

/-- Any sequence of constructs leaves a reading `Rootless`. -/
theorem Rootless.foldlM_event (h : Rootless r) {es : List Markup.Event}
    (hr : es.foldlM Reading.event r = .ok r') : Rootless r' := by
  induction es generalizing r with
  | nil =>
      cases hr
      exact h
  | cons e es ih =>
      rw [List.foldlM_cons] at hr
      obtain ⟨r₁, he, hr⟩ := exists_of_bind_eq_ok hr
      exact ih (h.event he) hr

end Reading

/-- No manifest that `parse` has read has an entry for the package. -/
theorem path_ne_root_of_parse {document : String} {m : Manifest} (h : parse document = .ok m) :
    ∀ e ∈ m.entries, e.path ≠ "/" := by
  unfold parse at h
  split at h
  next events fault _ =>
    split at h
    · cases h
    · next r hr =>
        have hempty : Reading.Rootless {} := by simp [Reading.Rootless]
        have hrootless : Reading.Rootless r := hempty.foldlM_event hr
        split at h
        · cases h
        · unfold Reading.manifest at h
          split at h
          · cases h
          · cases h
            intro e he
            exact hrootless e (List.mem_reverse.mp he)

/-! ## Inverses -/

/-- **Writing and reading manifests are inverse to each other.**  A manifest is read by `parse` from
its document by `toXml` exactly if none of its entries stands for the package, and what was read
from any document is such a manifest. -/
theorem parse_inverse_toXml :
    (∀ m : Manifest, parse m.toXml = .ok m ↔ ∀ e ∈ m.entries, e.path ≠ "/")
      ∧ ∀ (document : String) (m : Manifest), parse document = .ok m → parse m.toXml = .ok m :=
  ⟨fun _ => ⟨path_ne_root_of_parse, parse_toXml⟩,
    fun _ _ h => parse_toXml (path_ne_root_of_parse h)⟩

/-- A document that no writer here would write, with blanks, both kinds of quotation marks, a
comment and open elements: what is read from it is read again.  An entry for the package is not. -/
theorem parse_inverse_toXml_tolerant :
    parse ("<a><manifest:file-entry manifest:full-path='a&amp;b' manifest:size=' +7 '/><!-- -->"
        ++ "<manifest:file-entry manifest:media-type='x' manifest:full-path = \"/\">")
        = .ok { mediaType := "x", entries := [⟨"a&b", "", some 7, none⟩] }
      ∧ parse (Manifest.toXml { mediaType := "x", entries := [⟨"a&b", "", some 7, none⟩] })
        = .ok { mediaType := "x", entries := [⟨"a&b", "", some 7, none⟩] }
      ∧ parse (Manifest.toXml { mediaType := "x", entries := [⟨"/", "", none, none⟩] })
        ≠ .ok { mediaType := "x", entries := [⟨"/", "", none, none⟩] } := by
  have hread : parse ("<a><manifest:file-entry manifest:full-path='a&amp;b' manifest:size=' +7 '/>"
      ++ "<!-- --><manifest:file-entry manifest:media-type='x' manifest:full-path = \"/\">")
      = .ok { mediaType := "x", entries := [⟨"a&b", "", some 7, none⟩] } := by
    decide +kernel
  refine ⟨hread, parse_inverse_toXml.2 _ _ hread, fun h => ?_⟩
  exact (parse_inverse_toXml.1 _).mp h _ (List.mem_singleton_self _) rfl

end Manifest

end OpenDocument
