import OpenDocument.Manifest.Document
import OpenDocument.Manifest.Reading
import OpenDocument.Proofs.Markup.Rendering
import OpenDocument.Proofs.Text

/-!
# OpenDocument.Proofs.Manifest

A manifest is read back from its document: `parse_toXml`.  The document is taken apart into the
pieces that it consists of, and the reading of each entry is followed through its pieces.
-/

namespace OpenDocument

open Markup (Call Outline Piece Event IsName)

/-! ## Attribute values -/

namespace Attributes

/-- `readNumber` reads a number back from an attribute. -/
theorem readNumber_numberText {bound n : Nat} (h : n < bound) :
    readNumber bound (numberText n) = .ok n := by
  rw [readNumber, numberText, String.toList_ofList, Text.readDecimal?_decimal h]

/-- `readBytes` reads a byte string back from an attribute. -/
theorem readBytes_base64Text (bs : Bytes) : readBytes (base64Text bs) = .ok bs := by
  have hblank : ∀ c ∈ (Base64.encode bs).map fun b => Char.ofNat b.toNat,
      Text.isBlank c = false := by
    intro c hc
    obtain ⟨b, hb, rfl⟩ := List.mem_map.mp hc
    obtain ⟨hmin, hmax⟩ := Base64.mem_encode_printable hb
    have hcode : (Char.ofNat b.toNat).toNat = b.toNat := toNat_ofNat (by omega)
    exact Text.isBlank_eq_false (by omega) (by omega)
  have htrim := Text.trim_eq_self (fun c hc => hblank c (List.mem_of_head? hc))
    (fun c hc => hblank c (List.mem_of_getLast? hc))
  have hbytes : (base64Text bs).toUTF8.toList = Base64.encode bs :=
    toList_toUTF8_ofList fun b hb => Nat.lt_succ_of_lt (Base64.mem_encode_printable hb).2
  rw [readBytes, base64Text, String.toList_ofList, htrim, ← base64Text, hbytes,
    Base64.decode_encode]

section

variable {as : Attributes} {name : String}

theorem required_eq {value : String} (h : as.lookup name = some value) :
    as.required name = .ok value := by
  rw [required, h]

theorem bytes_eq {bs : Bytes} (h : as.lookup name = some (base64Text bs)) :
    as.bytes name = .ok bs := by
  rw [bytes, required_eq h]
  exact readBytes_base64Text bs

theorem size_eq {n : UInt64} (h : as.lookup name = some (numberText n.toNat)) :
    as.size name = .ok n := by
  have hn := readNumber_numberText n.toNat_lt_size
  simp only [size, required_eq h, hn, bind, Except.bind, pure, Except.pure, UInt64.ofNat_toNat]

theorem size?_eq {n : Option UInt64}
    (h : as.lookup name = n.map fun n => numberText n.toNat) : as.size? name = .ok n := by
  cases n with
  | none => rw [size?, h]; rfl
  | some n =>
      have hn := readNumber_numberText n.toNat_lt_size
      simp only [size?, h, Option.map_some, hn, bind, Except.bind, pure, Except.pure,
        UInt64.ofNat_toNat]

theorem count_eq {n : UInt32} (h : as.lookup name = some (numberText n.toNat)) :
    as.count name = .ok n := by
  have hn := readNumber_numberText n.toNat_lt_size
  simp only [count, required_eq h, hn, bind, Except.bind, pure, Except.pure, UInt32.ofNat_toNat]

end

end Attributes

/-! ## Pieces of a manifest -/

/-- The attributes of the element of an entry, in the order in which `Entry.calls` states them. -/
def Entry.attributes (e : Entry) : Attributes :=
  [("manifest:full-path", e.path), ("manifest:media-type", e.mediaType)]
    ++ e.size.toList.map fun n => ("manifest:size", numberText n.toNat)

/-- The attributes of the element of a descriptor. -/
def Descriptor.attributes (d : Descriptor) : Attributes :=
  [("manifest:checksum-type", d.checksumType), ("manifest:checksum", base64Text d.checksum)]
    ++ d.compressedSize.toList.map fun n => ("odpack:compressed-size", numberText n.toNat)

/-- The attributes that state the cipher. -/
def Descriptor.cipherAttributes (d : Descriptor) : Attributes :=
  [("manifest:algorithm-name", d.algorithm),
   ("manifest:initialisation-vector", base64Text d.initialisationVector)]

/-- The attributes that state how the password is reduced. -/
def Descriptor.startKeyAttributes (d : Descriptor) : Attributes :=
  [("manifest:start-key-generation-name", d.startKeyGeneration),
   ("manifest:key-size", numberText d.startKeySize.toNat)]

/-- The attributes that state how the key is derived. -/
def Descriptor.derivationAttributes (d : Descriptor) : Attributes :=
  [("manifest:key-derivation-name", d.keyDerivation),
   ("manifest:key-size", numberText d.keySize.toNat),
   ("manifest:iteration-count", numberText d.iterationCount.toNat),
   ("manifest:salt", base64Text d.salt)]

/-- The pieces of a descriptor: a start tag with `Descriptor.attributes`, an empty tag for each of
its three parts, and an end tag. -/
def Descriptor.pieces (d : Descriptor) : List Piece :=
  [.start "manifest:encryption-data" d.attributes,
   .empty "manifest:algorithm" d.cipherAttributes,
   .empty "manifest:start-key-generation" d.startKeyAttributes,
   .empty "manifest:key-derivation" d.derivationAttributes,
   .stop "manifest:encryption-data"]

/-- The pieces of an entry: one tag, or the `Descriptor.pieces` between two. -/
def Entry.pieces (e : Entry) : List Piece :=
  match e.encryption with
  | none => [.empty "manifest:file-entry" e.attributes]
  | some d =>
    .start "manifest:file-entry" e.attributes :: d.pieces ++ [.stop "manifest:file-entry"]

/-- The attributes of the root element. -/
def Manifest.rootAttributes (m : Manifest) : Attributes :=
  ("xmlns:manifest", Vocabulary.manifestNamespace)
    :: (if m.hasExtension then [("xmlns:odpack", Vocabulary.extensionNamespace)] else [])
    ++ [("manifest:version", Vocabulary.officeVersion)]

/-- The attributes of the element of the package. -/
def Manifest.packageAttributes (m : Manifest) : Attributes :=
  [("manifest:full-path", "/"), ("manifest:version", Vocabulary.officeVersion),
   ("manifest:media-type", m.mediaType)]

/-- The pieces of a manifest: the declaration, the root with the element of the package, and
`Entry.pieces` for each entry. -/
def Manifest.pieces (m : Manifest) : List Piece :=
  [.declaration, .start "manifest:manifest" m.rootAttributes,
    .empty "manifest:file-entry" m.packageAttributes]
    ++ m.entries.flatMap Entry.pieces ++ [.stop "manifest:manifest"]

theorem outline_entry (ps : List Piece) (nesting : List String) (e : Entry) :
    Outline.calls ⟨ps, none, nesting⟩ e.calls = ⟨ps ++ e.pieces, none, nesting⟩ := by
  obtain ⟨path, mediaType, size, encryption⟩ := e
  cases encryption with
  | none =>
      cases size <;> simp [Entry.calls, Entry.pieces, Entry.attributes, Outline.calls, Outline.call,
        Outline.settle]
  | some d =>
      obtain ⟨a, b, c, d, e, f, g, h, i, j, compressedSize⟩ := d
      cases size <;> cases compressedSize <;>
        simp [Entry.calls, Entry.pieces, Entry.attributes, Descriptor.calls, Descriptor.pieces,
          Descriptor.attributes, Descriptor.cipherAttributes, Descriptor.startKeyAttributes,
          Descriptor.derivationAttributes, Outline.calls, Outline.call, Outline.settle]

theorem outline_entries (ps : List Piece) (nesting : List String) (es : List Entry) :
    Outline.calls ⟨ps, none, nesting⟩ (es.flatMap Entry.calls)
      = ⟨ps ++ es.flatMap Entry.pieces, none, nesting⟩ := by
  induction es generalizing ps with
  | nil => simp [Outline.calls]
  | cons e es ih =>
      have hentry := outline_entry ps nesting e
      simp only [Outline.calls, List.flatMap_cons, List.foldl_append] at hentry ih ⊢
      rw [hentry, ih, List.append_assoc]

namespace Manifest

/-- The calls of `Manifest.calls` write its `Manifest.pieces`. -/
theorem pieces_calls (m : Manifest) : Markup.pieces m.calls = m.pieces := by
  have hhead : Outline.calls {} ([.declaration, .start "manifest:manifest",
        .attr "xmlns:manifest" Vocabulary.manifestNamespace]
      ++ (if m.hasExtension then [.attr "xmlns:odpack" Vocabulary.extensionNamespace] else [])
      ++ [.attr "manifest:version" Vocabulary.officeVersion,
          .start "manifest:file-entry",
          .attr "manifest:full-path" "/",
          .attr "manifest:version" Vocabulary.officeVersion,
          .attr "manifest:media-type" m.mediaType,
          .stop])
      = ⟨[.declaration, .start "manifest:manifest" m.rootAttributes,
          .empty "manifest:file-entry" m.packageAttributes], none, ["manifest:manifest"]⟩ := by
    rw [rootAttributes]
    cases m.hasExtension <;> simp [Outline.calls, Outline.call, Outline.settle, packageAttributes]
  have hentries := outline_entries [.declaration, .start "manifest:manifest" m.rootAttributes,
    .empty "manifest:file-entry" m.packageAttributes] ["manifest:manifest"] m.entries
  rw [Markup.pieces, calls, pieces]
  simp only [Outline.calls, List.foldl_append] at hhead hentries ⊢
  rw [hhead, hentries]
  simp [Outline.finish]

/-- The names of the elements and attributes of a manifest. -/
def names : List String :=
  ["manifest:manifest", "xmlns:manifest", "xmlns:odpack", "manifest:version",
   "manifest:file-entry", "manifest:full-path", "manifest:media-type", "manifest:size",
   "manifest:encryption-data", "manifest:checksum-type", "manifest:checksum",
   "odpack:compressed-size", "manifest:algorithm", "manifest:algorithm-name",
   "manifest:initialisation-vector", "manifest:start-key-generation",
   "manifest:start-key-generation-name", "manifest:key-size", "manifest:key-derivation",
   "manifest:key-derivation-name", "manifest:iteration-count", "manifest:salt"]

theorem isName_of_mem {name : String} (h : name ∈ names) : IsName name := by
  have table : ∀ name ∈ names, IsName name := by decide +kernel
  exact table name h

theorem isNamed_entry (e : Entry) : ∀ c ∈ e.calls, c.IsNamed := by
  obtain ⟨path, mediaType, size, encryption⟩ := e
  cases encryption with
  | none =>
      cases size <;> simp [Entry.calls, Call.IsNamed] <;> and_intros <;>
        (apply isName_of_mem; simp [names])
  | some d =>
      obtain ⟨a, b, c, d, e, f, g, h, i, j, compressedSize⟩ := d
      cases size <;> cases compressedSize <;>
        simp [Entry.calls, Descriptor.calls, Call.IsNamed] <;> and_intros <;>
        (apply isName_of_mem; simp [names])

/-- All names in `Manifest.calls` can be read. -/
theorem isNamed_calls (m : Manifest) : ∀ c ∈ m.calls, c.IsNamed := by
  have hentries : ∀ c ∈ m.entries.flatMap Entry.calls, c.IsNamed := by
    intro c hc
    obtain ⟨e, -, hc⟩ := List.mem_flatMap.mp hc
    exact isNamed_entry e c hc
  rw [calls, List.forall_mem_append]
  refine ⟨?_, hentries⟩
  cases m.hasExtension <;> simp [Call.IsNamed] <;> and_intros <;>
    (apply isName_of_mem; simp [names])

theorem declaration_not_mem (m : Manifest) : .declaration ∉ m.calls.tail := by
  have hentry : ∀ e : Entry, .declaration ∉ e.calls := by
    intro e
    obtain ⟨path, mediaType, size, encryption⟩ := e
    cases encryption with
    | none => cases size <;> simp [Entry.calls]
    | some d => simp [Entry.calls, Descriptor.calls]
  simp [calls, hentry]

/-! ## Reading the pieces -/

/-- Attributes with `names` of a manifest, each stated once. -/
structure Stated (as : Attributes) : Prop where
  named : ∀ a ∈ as, a.1 ∈ names
  nodup : (as.map Prod.fst).Nodup

namespace Stated

/-- `Stated` attributes are read back from their text by `Tag.attributes?`. -/
theorem attributes?_eq {as : Attributes} (h : Stated as) {name : List Char} :
    (⟨name, Markup.attributesText as⟩ : Markup.Tag).attributes? = some as :=
  Markup.attributes?_of_attributesText rfl (fun a ha => isName_of_mem (h.named a ha)) h.nodup

theorem entry (e : Entry) : Stated e.attributes := by
  constructor <;> cases hs : e.size <;> simp [Entry.attributes, names, hs]

theorem package (m : Manifest) : Stated m.packageAttributes := by
  constructor <;> simp [packageAttributes, names]

theorem root (m : Manifest) : Stated m.rootAttributes := by
  constructor <;> cases hx : m.hasExtension <;> simp [rootAttributes, names, hx]

theorem descriptor (d : Descriptor) : Stated d.attributes := by
  constructor <;> cases hs : d.compressedSize <;> simp [Descriptor.attributes, names, hs]

theorem cipher (d : Descriptor) : Stated d.cipherAttributes := by
  constructor <;> simp [Descriptor.cipherAttributes, names]

theorem startKey (d : Descriptor) : Stated d.startKeyAttributes := by
  constructor <;> simp [Descriptor.startKeyAttributes, names]

theorem derivation (d : Descriptor) : Stated d.derivationAttributes := by
  constructor <;> simp [Descriptor.derivationAttributes, names]

end Stated

namespace Reading

variable (r : Reading)

/-- Text between the tags is passed over: only what `isMarkup` counts for `Reading.event`. -/
theorem foldlM_event_filter (es : List Event) :
    (es.filter Event.isMarkup).foldlM event r = es.foldlM event r :=
  Markup.foldlM_filter_isMarkup (fun _ _ => rfl) r es

/-- `Reading.tag` takes a tag in with the attributes that it was written with. -/
theorem tag_attributesText {as : Attributes} (h : Stated as) (name : String) :
    r.tag ⟨name.toList, Markup.attributesText as⟩ = r.element name as := by
  rw [tag, h.attributes?_eq, String.ofList_toList]

theorem fileEntry_attributes {e : Entry} (h : e.path ≠ "/") :
    r.fileEntry e.attributes
      = .ok { r with entries := { e with encryption := none } :: r.entries } := by
  have hpath : e.attributes.lookup "manifest:full-path" = some e.path := by
    simp [Entry.attributes]
  have hmedia : e.attributes.lookup "manifest:media-type" = some e.mediaType := by
    simp [Entry.attributes, List.lookup_cons]
  have hsize : e.attributes.lookup "manifest:size" = e.size.map fun n => numberText n.toNat := by
    cases hs : e.size <;> simp [Entry.attributes, List.lookup_cons, hs]
  simp [fileEntry, Attributes.required_eq hpath, hmedia, Attributes.size?_eq hsize, h, bind,
    Except.bind, pure, Except.pure]

theorem fileEntry_package (m : Manifest) :
    r.fileEntry m.packageAttributes = .ok { r with mediaType := some m.mediaType } := by
  have hpath : m.packageAttributes.lookup "manifest:full-path" = some "/" := by
    simp [packageAttributes]
  have hmedia : m.packageAttributes.lookup "manifest:media-type" = some m.mediaType := by
    simp [packageAttributes, List.lookup_cons]
  simp [fileEntry, Attributes.required_eq hpath, hmedia, bind, Except.bind, pure, Except.pure]

/-- What a descriptor is before its parts are taken in: what `Descriptor.attributes` state, and
placeholders. -/
def bare (d : Descriptor) : Descriptor :=
  { checksumType := d.checksumType, checksum := d.checksum, algorithm := ""
    initialisationVector := [], startKeyGeneration := "", startKeySize := 0, keyDerivation := ""
    keySize := 0, iterationCount := 0, salt := [], compressedSize := d.compressedSize }

/-- The reading inside of an entry whose descriptor is `d` so far. -/
def within (e : Entry) (d : Descriptor) : Reading :=
  { r with entries := { e with encryption := some d } :: r.entries }

variable (e : Entry) (d : Descriptor)

theorem encryptionData_attributes :
    encryptionData { r with entries := { e with encryption := none } :: r.entries } d.attributes
      = .ok (r.within e (bare d)) := by
  have htype : d.attributes.lookup "manifest:checksum-type" = some d.checksumType := by
    simp [Descriptor.attributes]
  have hsum : d.attributes.lookup "manifest:checksum" = some (base64Text d.checksum) := by
    simp [Descriptor.attributes, List.lookup_cons]
  have hsize : d.attributes.lookup "odpack:compressed-size"
      = d.compressedSize.map fun n => numberText n.toNat := by
    cases hs : d.compressedSize <;> simp [Descriptor.attributes, List.lookup_cons, hs]
  simp [encryptionData, within, bare, Attributes.required_eq htype, Attributes.bytes_eq hsum,
    Attributes.size?_eq hsize, bind, Except.bind, pure, Except.pure]

theorem withDescriptor_within {f : Descriptor → Except Error Descriptor} {d' : Descriptor}
    (h : f d = .ok d') : (r.within e d).withDescriptor f = .ok (r.within e d') := by
  simp only [withDescriptor, within, h, bind, Except.bind, pure, Except.pure]

variable (d' : Descriptor)

theorem algorithm_within : (r.within e d').algorithm d.cipherAttributes
    = .ok (r.within e
        { d' with algorithm := d.algorithm, initialisationVector := d.initialisationVector }) := by
  have hname : d.cipherAttributes.lookup "manifest:algorithm-name" = some d.algorithm := by
    simp [Descriptor.cipherAttributes]
  have hvector : d.cipherAttributes.lookup "manifest:initialisation-vector"
      = some (base64Text d.initialisationVector) := by
    simp [Descriptor.cipherAttributes, List.lookup_cons]
  apply withDescriptor_within
  rw [Attributes.required_eq hname, Attributes.bytes_eq hvector]
  rfl

theorem startKey_within : (r.within e d').startKey d.startKeyAttributes
    = .ok (r.within e
        { d' with startKeyGeneration := d.startKeyGeneration, startKeySize := d.startKeySize }) := by
  have hname : d.startKeyAttributes.lookup "manifest:start-key-generation-name"
      = some d.startKeyGeneration := by
    simp [Descriptor.startKeyAttributes]
  have hsize : d.startKeyAttributes.lookup "manifest:key-size"
      = some (numberText d.startKeySize.toNat) := by
    simp [Descriptor.startKeyAttributes, List.lookup_cons]
  apply withDescriptor_within
  rw [Attributes.required_eq hname, Attributes.size_eq hsize]
  rfl

theorem keyDerivation_within : (r.within e d').keyDerivation d.derivationAttributes
    = .ok (r.within e
        { d' with
          keyDerivation := d.keyDerivation, keySize := d.keySize
          iterationCount := d.iterationCount, salt := d.salt }) := by
  have hname : d.derivationAttributes.lookup "manifest:key-derivation-name"
      = some d.keyDerivation := by
    simp [Descriptor.derivationAttributes]
  have hsize : d.derivationAttributes.lookup "manifest:key-size"
      = some (numberText d.keySize.toNat) := by
    simp [Descriptor.derivationAttributes, List.lookup_cons]
  have hcount : d.derivationAttributes.lookup "manifest:iteration-count"
      = some (numberText d.iterationCount.toNat) := by
    simp [Descriptor.derivationAttributes, List.lookup_cons]
  have hsalt : d.derivationAttributes.lookup "manifest:salt" = some (base64Text d.salt) := by
    simp [Descriptor.derivationAttributes, List.lookup_cons]
  apply withDescriptor_within
  rw [Attributes.required_eq hname, Attributes.size_eq hsize, Attributes.count_eq hcount,
    Attributes.bytes_eq hsalt]
  rfl

theorem tag_entry : r.tag ⟨"manifest:file-entry".toList, Markup.attributesText e.attributes⟩
    = r.fileEntry e.attributes :=
  tag_attributesText r (.entry e) _

theorem tag_package (m : Manifest) :
    r.tag ⟨"manifest:file-entry".toList, Markup.attributesText m.packageAttributes⟩
      = r.fileEntry m.packageAttributes :=
  tag_attributesText r (.package m) _

theorem tag_root (m : Manifest) :
    r.tag ⟨"manifest:manifest".toList, Markup.attributesText m.rootAttributes⟩ = .ok r :=
  tag_attributesText r (.root m) _

theorem tag_descriptor :
    r.tag ⟨"manifest:encryption-data".toList, Markup.attributesText d.attributes⟩
      = r.encryptionData d.attributes :=
  tag_attributesText r (.descriptor d) _

theorem tag_cipher : r.tag ⟨"manifest:algorithm".toList, Markup.attributesText d.cipherAttributes⟩
    = r.algorithm d.cipherAttributes :=
  tag_attributesText r (.cipher d) _

theorem tag_startKey :
    r.tag ⟨"manifest:start-key-generation".toList, Markup.attributesText d.startKeyAttributes⟩
      = r.startKey d.startKeyAttributes :=
  tag_attributesText r (.startKey d) _

theorem tag_derivation :
    r.tag ⟨"manifest:key-derivation".toList, Markup.attributesText d.derivationAttributes⟩
      = r.keyDerivation d.derivationAttributes :=
  tag_attributesText r (.derivation d) _

/-- `Reading.event` takes an entry in from its `Entry.pieces`. -/
theorem foldlM_pieces (h : e.path ≠ "/") :
    (e.pieces.map Piece.event).foldlM event r = .ok { r with entries := e :: r.entries } := by
  have hentry := fileEntry_attributes r h
  rw [← tag_entry] at hentry
  rw [Entry.pieces]
  cases he : e.encryption with
  | none =>
      have hself : e = { e with encryption := none } := by rw [← he]
      simp only [List.map_cons, List.map_nil, List.foldlM_cons, List.foldlM_nil, Piece.event, event,
        hentry, ← hself]
      rfl
  | some d =>
      have hself : r.within e d = { r with entries := e :: r.entries } := by rw [within, ← he]
      simp only [Descriptor.pieces, List.map_cons, List.map_nil, List.foldlM_cons,
        List.cons_append, List.nil_append, List.foldlM_nil, Piece.event, event, hentry,
        tag_descriptor, tag_cipher, tag_startKey, tag_derivation, encryptionData_attributes,
        algorithm_within, startKey_within, keyDerivation_within, bind, Except.bind, pure,
        Except.pure]
      rw [← hself]
      rfl

/-- All entries are taken in, one behind the other. -/
theorem foldlM_entries {es : List Entry} (h : ∀ e ∈ es, e.path ≠ "/") :
    ((es.flatMap Entry.pieces).map Piece.event).foldlM event r
      = .ok { r with entries := es.reverse ++ r.entries } := by
  induction es generalizing r with
  | nil => rfl
  | cons e es ih =>
      obtain ⟨he, hes⟩ := List.forall_mem_cons.mp h
      simp only [List.flatMap_cons, List.map_append, List.foldlM_append, foldlM_pieces r e he,
        bind, Except.bind, ih _ hes, List.reverse_cons, List.append_assoc, List.singleton_append]

end Reading

/-- **A manifest is read back from its document**, if no entry stands for the package: `parse` is a
left inverse of `toXml`. -/
theorem parse_toXml {m : Manifest} (h : ∀ e ∈ m.entries, e.path ≠ "/") :
    parse m.toXml = .ok m := by
  obtain ⟨es, heq, hmarkup, -⟩ := Markup.events_render m.declaration_not_mem m.isNamed_calls
  have hread : es.foldlM Reading.event {}
      = .ok { mediaType := some m.mediaType, entries := m.entries.reverse } := by
    rw [← Reading.foldlM_event_filter, hmarkup, pieces_calls, pieces]
    simp only [List.map_cons, List.map_append, List.map_nil, List.foldlM_cons, List.foldlM_append,
      List.cons_append, List.nil_append, List.foldlM_nil, Piece.event, Reading.event,
      Reading.tag_root, Reading.tag_package, Reading.fileEntry_package, Reading.foldlM_entries _ h,
      bind, Except.bind, pure, Except.pure, List.append_nil]
  rw [parse, toXml]
  simp only [heq, hread, Reading.manifest, List.reverse_reverse]

end Manifest

end OpenDocument
