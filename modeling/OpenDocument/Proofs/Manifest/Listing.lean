import OpenDocument.Proofs.Manifest
import OpenDocument.Proofs.Markup.Conformance

/-!
# OpenDocument.Proofs.Manifest.Listing

What a reader that keeps to XML 1.0 takes from the document of a manifest: the package and the
entries, with paths and media types as such a reader sees them (`listing?_toXml`).  The document is
legal exactly if the texts in it are.
-/

namespace OpenDocument

open Markup (Piece isLegal isLegalText seen seenAttributes)

/-- What the tag of an entry states: its `manifest:full-path` and its `manifest:media-type`. -/
def listed? (as : List (String × String)) : Option (String × String) := do
  let path ← as.lookup "manifest:full-path"
  let mediaType ← as.lookup "manifest:media-type"
  return (path, mediaType)

/-- What a document lists: the path and the media type of the package and of each entry, as they are
seen. -/
def listing? (text : String) : Option (List (String × String)) := do
  let tags ← Markup.tags? text.toList
  (tags.filter fun t => t.1 == "manifest:file-entry").mapM fun t => listed? t.2

/-! ## Texts -/

/-- The texts of a descriptor, the names of its functions; all else in `Descriptor` is numbers and
byte strings. -/
def Descriptor.texts (d : Descriptor) : List String :=
  [d.checksumType, d.algorithm, d.startKeyGeneration, d.keyDerivation]

/-- The texts of an entry: its path, its media type, and the `Descriptor.texts`. -/
def Entry.texts (e : Entry) : List String :=
  e.path :: e.mediaType :: e.encryption.toList.flatMap Descriptor.texts

/-- The texts of a manifest. -/
def Manifest.texts (m : Manifest) : List String :=
  m.mediaType :: m.entries.flatMap Entry.texts

theorem isLegal_of_printable {c : Char} (hmin : 32 ≤ c.toNat) (hmax : c.toNat < 127) :
    isLegal c = true := by
  have hrange : c.toNat ≤ 0xD7FF := by omega
  simp [isLegal, hmin, hrange]

theorem isLegalText_numberText (n : Nat) : isLegalText (numberText n) = true := by
  rw [isLegalText, numberText, String.toList_ofList, List.all_eq_true]
  intro c hc
  have hdigit := Text.isDigit_of_mem_decimal hc
  simp only [Char.isDigit, Bool.and_eq_true, decide_eq_true_eq] at hdigit
  have hmin : 48 ≤ c.toNat := hdigit.1
  have hmax : c.toNat ≤ 57 := hdigit.2
  exact isLegal_of_printable (by omega) (by omega)

theorem isLegalText_base64Text (bs : Bytes) : isLegalText (base64Text bs) = true := by
  rw [isLegalText, base64Text, String.toList_ofList, List.all_eq_true]
  intro c hc
  obtain ⟨b, hb, rfl⟩ := List.mem_map.mp hc
  obtain ⟨hmin, hmax⟩ := Base64.mem_encode_printable hb
  have hcode : (Char.ofNat b.toNat).toNat = b.toNat := toNat_ofNat (by omega)
  exact isLegal_of_printable (by omega) (by omega)

/-- The names of elements and attributes, `Manifest.names`, are legal. -/
theorem isLegalText_names : ∀ name ∈ Manifest.names, isLegalText name = true := by
  decide +kernel

/-- Numbers and byte strings are written in legal characters, so only the texts count. -/
theorem all_texts_entry (e : Entry) :
    (e.pieces.flatMap Piece.texts).all isLegalText = e.texts.all isLegalText := by
  have table := isLegalText_names
  simp only [Manifest.names, List.forall_mem_cons] at table
  obtain ⟨path, mediaType, size, encryption⟩ := e
  cases encryption with
  | none =>
      cases size <;>
        simp [Entry.pieces, Entry.attributes, Entry.texts, Piece.texts, table,
          isLegalText_numberText]
  | some d =>
      obtain ⟨a, b, c, d, e, f, g, h, i, j, compressedSize⟩ := d
      cases size <;> cases compressedSize <;>
        simp [Entry.pieces, Entry.attributes, Entry.texts, Descriptor.pieces, Descriptor.attributes,
          Descriptor.cipherAttributes, Descriptor.startKeyAttributes,
          Descriptor.derivationAttributes, Descriptor.texts, Piece.texts, table,
          isLegalText_numberText, isLegalText_base64Text]

namespace Manifest

theorem all_texts (m : Manifest) :
    (m.pieces.flatMap Piece.texts).all isLegalText = m.texts.all isLegalText := by
  have table := isLegalText_names
  simp only [names, List.forall_mem_cons] at table
  have hroot : (m.rootAttributes.flatMap fun a => [a.1, a.2]).all isLegalText = true := by
    have hvalues : isLegalText Vocabulary.manifestNamespace = true
        ∧ isLegalText Vocabulary.extensionNamespace = true
        ∧ isLegalText Vocabulary.officeVersion = true := by decide +kernel
    cases hx : m.hasExtension <;> simp [rootAttributes, hx, table, hvalues]
  have hpackage : (m.packageAttributes.flatMap fun a => [a.1, a.2]).all isLegalText
      = isLegalText m.mediaType := by
    have hvalues : isLegalText "/" = true ∧ isLegalText Vocabulary.officeVersion = true := by
      decide +kernel
    simp [packageAttributes, table, hvalues]
  have hentries : ((m.entries.flatMap Entry.pieces).flatMap Piece.texts).all isLegalText
      = (m.entries.flatMap Entry.texts).all isLegalText := by
    induction m.entries with
    | nil => rfl
    | cons e es ih =>
        simp only [List.flatMap_cons, List.flatMap_append, List.all_append, all_texts_entry, ih]
  simp only [pieces, texts, Piece.texts, List.flatMap_append, List.flatMap_cons, List.flatMap_nil,
    List.all_append, List.all_cons, List.all_nil, hroot, hpackage, hentries, table, List.nil_append,
    List.append_nil, List.cons_append, Bool.true_and, Bool.and_true]

/-! ## Tags -/

/-- Every piece of a manifest names its attributes once (`Piece.Distinct`). -/
theorem distinct_pieces (m : Manifest) : ∀ p ∈ m.pieces, p.Distinct := by
  have tag : ∀ {name : String} {as : Attributes}, Stated as →
      (Piece.start name as).Distinct ∧ (Piece.empty name as).Distinct := by
    intro name as h
    refine ⟨?_, ?_⟩ <;> rintro t ⟨⟩ <;> exact h.nodup
  have stop : ∀ name, (Piece.stop name).Distinct := by
    rintro name t ⟨⟩
  have hentry : ∀ e : Entry, ∀ p ∈ e.pieces, p.Distinct := by
    intro e
    cases he : e.encryption with
    | none =>
        simp only [Entry.pieces, he, List.forall_mem_singleton]
        exact (tag (.entry e)).2
    | some d =>
        simp only [Entry.pieces, he, Descriptor.pieces, List.cons_append, List.nil_append,
          List.forall_mem_cons]
        exact ⟨(tag (.entry e)).1, (tag (.descriptor d)).1, (tag (.cipher d)).2,
          (tag (.startKey d)).2, (tag (.derivation d)).2, stop _, stop _, by simp⟩
  intro p hp
  simp only [pieces, List.mem_append, List.mem_cons, List.mem_flatMap, List.not_mem_nil,
    or_false] at hp
  rcases hp with ((rfl | rfl | rfl) | ⟨e, -, hp⟩) | rfl
  · rintro t ⟨⟩
  · exact (tag (.root m)).1
  · exact (tag (.package m)).2
  · exact hentry e p hp
  · exact stop _

/-- The tags of the package and of the entries. -/
theorem filter_tags (m : Manifest) :
    ((m.pieces.filterMap Piece.tag?).filter fun t => t.1 == "manifest:file-entry")
      = ("manifest:file-entry", m.packageAttributes)
        :: m.entries.map fun e => ("manifest:file-entry", e.attributes) := by
  have hentry : ∀ e : Entry,
      (e.pieces.filterMap Piece.tag?).filter (fun t => t.1 == "manifest:file-entry")
        = [("manifest:file-entry", e.attributes)] := by
    intro e
    cases he : e.encryption with
    | none => simp [Entry.pieces, he, Piece.tag?]
    | some d => simp [Entry.pieces, he, Descriptor.pieces, Piece.tag?]
  have hentries : ((m.entries.flatMap Entry.pieces).filterMap Piece.tag?).filter
      (fun t => t.1 == "manifest:file-entry")
        = m.entries.map fun e => ("manifest:file-entry", e.attributes) := by
    induction m.entries with
    | nil => rfl
    | cons e es ih =>
        rw [List.flatMap_cons, List.filterMap_append, List.filter_append, hentry, ih]
        rfl
  rw [pieces, List.filterMap_append, List.filter_append, List.filterMap_append,
    List.filter_append, hentries]
  have hhead : [Piece.declaration, Piece.start "manifest:manifest" m.rootAttributes,
      Piece.empty "manifest:file-entry" m.packageAttributes].filterMap Piece.tag?
      = [("manifest:manifest", m.rootAttributes),
        ("manifest:file-entry", m.packageAttributes)] := rfl
  have hlast : [Piece.stop "manifest:manifest"].filterMap Piece.tag? = [] := rfl
  rw [hhead, hlast]
  simp

/-! ## Listings -/

theorem listed?_entry (e : Entry) :
    listed? (seenAttributes e.attributes) = some (seen e.path, seen e.mediaType) := by
  have hpath : (seenAttributes e.attributes).lookup "manifest:full-path" = some (seen e.path) := by
    simp [seenAttributes, Entry.attributes]
  have hmedia : (seenAttributes e.attributes).lookup "manifest:media-type"
      = some (seen e.mediaType) := by
    simp [seenAttributes, Entry.attributes, List.lookup_cons]
  rw [listed?, hpath, hmedia]
  rfl

theorem listed?_package (m : Manifest) :
    listed? (seenAttributes m.packageAttributes) = some ("/", seen m.mediaType) := by
  have hpath : (seenAttributes m.packageAttributes).lookup "manifest:full-path" = some "/" := by
    have hroot : seen "/" = "/" := by decide +kernel
    simp [seenAttributes, packageAttributes, hroot]
  have hmedia : (seenAttributes m.packageAttributes).lookup "manifest:media-type"
      = some (seen m.mediaType) := by
    simp [seenAttributes, packageAttributes, List.lookup_cons]
  rw [listed?, hpath, hmedia]
  rfl

/-- The document by `toXml` is as legal as the texts of its manifest. -/
theorem all_isLegal_toXml (m : Manifest) :
    m.toXml.toList.all isLegal = m.texts.all isLegalText := by
  rw [toXml, Markup.toList_render m.declaration_not_mem, m.pieces_calls, Markup.all_isLegal_lines,
    all_texts]

/-- **The document of a manifest lists the package and the entries**, with paths and media types as
they are `seen`, if all texts of the manifest are legal. -/
theorem listing?_toXml (m : Manifest) :
    listing? m.toXml = if m.texts.all isLegalText then
      some (("/", seen m.mediaType) :: m.entries.map fun e => (seen e.path, seen e.mediaType))
      else none := by
  have hfit : Markup.Fit [] m.pieces := m.pieces_calls ▸ Markup.fit_pieces m.isNamed_calls
  rw [listing?, toXml, Markup.toList_render m.declaration_not_mem, m.pieces_calls,
    Markup.tags?_lines hfit m.distinct_pieces, all_texts]
  cases m.texts.all isLegalText with
  | false => rfl
  | true =>
      have hentries : m.entries.mapM (fun e => listed? (seenAttributes e.attributes))
          = some (m.entries.map fun e => (seen e.path, seen e.mediaType)) :=
        Markup.mapM_eq_some_map fun e _ => listed?_entry e
      have hfilter : ((m.pieces.filterMap Piece.tag?).map fun t => (t.1, seenAttributes t.2)).filter
          (fun t => t.1 == "manifest:file-entry")
          = (("manifest:file-entry", m.packageAttributes)
            :: m.entries.map fun e => ("manifest:file-entry", e.attributes)).map
              fun t => (t.1, seenAttributes t.2) := by
        rw [List.filter_map, ← m.filter_tags]
        rfl
      simp only [if_true, Option.bind_eq_bind, Option.bind_some, hfilter, List.mapM_map,
        List.mapM_cons, Function.comp_def, listed?_package, hentries]
      rfl

end Manifest

end OpenDocument
