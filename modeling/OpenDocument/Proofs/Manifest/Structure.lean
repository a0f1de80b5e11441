import OpenDocument.Proofs.Manifest
import OpenDocument.Proofs.Markup.Forest

/-!
# OpenDocument.Proofs.Manifest.Structure

The elements of a written manifest.  A `Shape` is an element without values.  The shape of the root
is a function of what each entry has (`layout`), so no text in a manifest adds, removes or moves
anything; every qualifier in it is declared on the root, and that of the extension only if it is
used (`structured_toXml`).
-/

namespace OpenDocument

namespace Markup

/-! ## Shapes -/

/-- An element without the values of its attributes. -/
inductive Shape where
  | node (name : String) (attributes : List String) (children : List Shape)
  deriving Repr

mutual

/-- The names of an element and of those below it, outer ones first, each with the names of its
attributes. -/
def Shape.tags : Shape → List (String × List String)
  | .node name as children => (name, as) :: Shape.tagsOf children

/-- The names of several elements and of those below them. -/
def Shape.tagsOf : List Shape → List (String × List String)
  | [] => []
  | s :: ss => s.tags ++ Shape.tagsOf ss

end

theorem Shape.tagsOf_eq_flatMap (ss : List Shape) : Shape.tagsOf ss = ss.flatMap Shape.tags := by
  induction ss with
  | nil => rfl
  | cons s ss ih => rw [tagsOf, ih, List.flatMap_cons]

namespace Element

/-- The shape of an element: its names, without the values. -/
def shape : Element → Shape
  | .node name as children => .node name (as.map Prod.fst) (children.map shape)

theorem shape_node (name : String) (as : List (String × String)) (children : List Element) :
    (node name as children).shape = .node name (as.map Prod.fst) (children.map shape) := by
  rw [shape]

/-- Whether an element declares a qualifier, by an `xmlns` attribute for a namespace with a name. -/
def Declares : Element → String → Prop
  | .node _ as _, q => ∃ uri, uri ≠ "" ∧ ("xmlns:" ++ q, uri) ∈ as

end Element

/-- The qualifier of a name: what stands in front of its only colon, if there is something on either
side. -/
def qualifier? (name : String) : Option String :=
  let front := name.toList.takeWhile (· != ':')
  let behind := (name.toList.dropWhile (· != ':')).drop 1
  if front.isEmpty || behind.isEmpty || behind.contains ':' then none
  else some (String.ofList front)

/-- Whether an event is a tag. -/
def Event.isTag : Event → Bool
  | .start _ | .empty _ | .stop _ => true
  | _ => false

theorem Piece.isTag_event {p : Piece} (h : p ≠ .declaration) : p.event.isTag = true := by
  cases p with
  | declaration => exact absurd rfl h
  | start | empty | stop => rfl

end Markup

open Markup (Element Event Grove Piece Shape qualifier?)

/-! ## The elements of a manifest -/

/-- The element of a descriptor, with its three parts below it. -/
def Descriptor.element (d : Descriptor) : Element :=
  .node "manifest:encryption-data" d.attributes
    [.node "manifest:algorithm" d.cipherAttributes [],
     .node "manifest:start-key-generation" d.startKeyAttributes [],
     .node "manifest:key-derivation" d.derivationAttributes []]

/-- The element of an entry, with `Descriptor.element` below it if it has one. -/
def Entry.element (e : Entry) : Element :=
  .node "manifest:file-entry" e.attributes (e.encryption.toList.map Descriptor.element)

/-- The root element, with the package and `Entry.element` of every entry below it. -/
def Manifest.root (m : Manifest) : Element :=
  .node "manifest:manifest" m.rootAttributes
    (.node "manifest:file-entry" m.packageAttributes [] :: m.entries.map Entry.element)

/-- What an entry has: a size, and a descriptor with or without a compressed size. -/
structure Presence where
  size : Bool
  compressed? : Option Bool
  deriving DecidableEq, Repr

/-- What an entry has, which is all that its shape depends on. -/
def Entry.presence (e : Entry) : Presence where
  size := e.size.isSome
  compressed? := e.encryption.map fun d => d.compressedSize.isSome

namespace Presence

/-- The shape of `Descriptor.element`, by whether a compressed size is stated. -/
def descriptorShape (compressed : Bool) : Shape :=
  .node "manifest:encryption-data"
    (["manifest:checksum-type", "manifest:checksum"]
      ++ if compressed then ["odpack:compressed-size"] else [])
    [.node "manifest:algorithm" ["manifest:algorithm-name", "manifest:initialisation-vector"] [],
     .node "manifest:start-key-generation"
      ["manifest:start-key-generation-name", "manifest:key-size"] [],
     .node "manifest:key-derivation"
      ["manifest:key-derivation-name", "manifest:key-size", "manifest:iteration-count",
        "manifest:salt"] []]

/-- The shape of `Entry.element`, by what the entry has. -/
def shape (p : Presence) : Shape :=
  .node "manifest:file-entry"
    (["manifest:full-path", "manifest:media-type"] ++ if p.size then ["manifest:size"] else [])
    (p.compressed?.toList.map descriptorShape)

end Presence

namespace Manifest

/-- The shape of a manifest, by what its entries have. -/
def layout (ps : List Presence) : Shape :=
  .node "manifest:manifest"
    ("xmlns:manifest" :: (if ps.any (·.compressed? == some true) then ["xmlns:odpack"] else [])
      ++ ["manifest:version"])
    (.node "manifest:file-entry"
      ["manifest:full-path", "manifest:version", "manifest:media-type"] []
      :: ps.map Presence.shape)

theorem shape_descriptor (d : Descriptor) :
    d.element.shape = Presence.descriptorShape d.compressedSize.isSome := by
  cases hd : d.compressedSize <;>
    simp [Descriptor.element, Element.shape_node, Descriptor.attributes,
      Descriptor.cipherAttributes, Descriptor.startKeyAttributes, Descriptor.derivationAttributes,
      Presence.descriptorShape, hd]

theorem shape_entry (e : Entry) : e.element.shape = e.presence.shape := by
  cases hs : e.size <;> cases he : e.encryption <;>
    simp [Entry.element, Element.shape_node, Entry.attributes, Presence.shape, Entry.presence, hs,
      he, shape_descriptor]

theorem hasExtension_eq (m : Manifest) :
    m.hasExtension = (m.entries.map Entry.presence).any (·.compressed? == some true) := by
  rw [Manifest.hasExtension, List.any_map]
  refine congrArg m.entries.any (funext fun e => ?_)
  cases he : e.encryption with
  | none => simp [Entry.presence, he]
  | some d => cases hd : d.compressedSize <;> simp [Entry.presence, he, hd]

/-- The shape of `Manifest.root` depends on nothing but what the entries have. -/
theorem shape_root (m : Manifest) : m.root.shape = layout (m.entries.map Entry.presence) := by
  rw [Manifest.root, Element.shape_node, layout, Manifest.rootAttributes, hasExtension_eq]
  congr 1
  · split <;> rfl
  · simp [Element.shape_node, Manifest.packageAttributes, Function.comp_def, shape_entry]

/-! ## Names -/

/-- Every name in the shape of an entry has the qualifier `manifest`, but for that of the compressed
size. -/
theorem qualifier_of_mem_shape (p : Presence) : ∀ t ∈ p.shape.tags, ∀ name ∈ t.1 :: t.2,
    qualifier? name = some "manifest"
      ∨ name = "odpack:compressed-size" ∧ p.compressed? = some true := by
  obtain ⟨size, compressed?⟩ := p
  rcases size with _ | _ <;> rcases compressed? with _ | _ | _ <;> decide +kernel

/-- The shape of an entry states a compressed size exactly if the entry has one. -/
theorem exists_compressedSize_iff (p : Presence) :
    (∃ t ∈ p.shape.tags, "odpack:compressed-size" ∈ t.2) ↔ p.compressed? = some true := by
  obtain ⟨size, compressed?⟩ := p
  rcases size with _ | _ <;> rcases compressed? with _ | _ | _ <;> decide +kernel

/-- The tags in front of the entries, with the declaration of the `extension` if there is one. -/
def headTags (extension : Bool) : List (String × List String) :=
  [("manifest:manifest",
      "xmlns:manifest" :: (if extension then ["xmlns:odpack"] else []) ++ ["manifest:version"]),
    ("manifest:file-entry", ["manifest:full-path", "manifest:version", "manifest:media-type"])]

theorem tags_layout (ps : List Presence) :
    (layout ps).tags
      = headTags (ps.any (·.compressed? == some true)) ++ ps.flatMap fun p => p.shape.tags := by
  simp [layout, headTags, Shape.tags, Shape.tagsOf, Shape.tagsOf_eq_flatMap, List.flatMap_map]

theorem qualifier_of_mem_headTags : ∀ extension, ∀ t ∈ headTags extension, ∀ name ∈ t.1 :: t.2,
    qualifier? name = some "manifest" ∨ qualifier? name = some "xmlns" := by
  decide +kernel

theorem not_mem_headTags : ∀ extension, ∀ t ∈ headTags extension,
    "odpack:compressed-size" ∉ t.2 := by
  decide +kernel

/-- A compressed size is stated in the `layout` if some entry has one. -/
theorem any_compressed_iff {ps : List Presence} :
    ps.any (·.compressed? == some true) = true
      ↔ ∃ t ∈ (layout ps).tags, "odpack:compressed-size" ∈ t.2 := by
  rw [List.any_eq_true, tags_layout]
  constructor
  · rintro ⟨p, hp, hcompressed⟩
    obtain ⟨t, ht, hmem⟩ := (exists_compressedSize_iff p).mpr (by simpa using hcompressed)
    exact ⟨t, List.mem_append_right _ (List.mem_flatMap.mpr ⟨p, hp, ht⟩), hmem⟩
  · rintro ⟨t, ht, hmem⟩
    rcases List.mem_append.mp ht with ht | ht
    · exact absurd hmem (not_mem_headTags _ t ht)
    · obtain ⟨p, hp, ht⟩ := List.mem_flatMap.mp ht
      exact ⟨p, hp, by simpa using (exists_compressedSize_iff p).mp ⟨t, ht, hmem⟩⟩

/-- The qualifiers in a `layout`: that of the extension is among them only if some entry has a
compressed size. -/
theorem qualifier_of_mem_layout {ps : List Presence} {t : String × List String}
    (ht : t ∈ (layout ps).tags) {name : String} (hname : name ∈ t.1 :: t.2) :
    qualifier? name = some "manifest" ∨ qualifier? name = some "xmlns"
      ∨ qualifier? name = some "odpack" ∧ ps.any (·.compressed? == some true) = true := by
  rw [tags_layout] at ht
  rcases List.mem_append.mp ht with ht | ht
  · rcases qualifier_of_mem_headTags _ t ht name hname with h | h
    · exact .inl h
    · exact .inr (.inl h)
  · obtain ⟨p, hp, ht⟩ := List.mem_flatMap.mp ht
    rcases qualifier_of_mem_shape p t ht name hname with h | ⟨rfl, hcompressed⟩
    · exact .inl h
    · exact .inr (.inr ⟨by decide +kernel, List.any_eq_true.mpr ⟨p, hp, by simp [hcompressed]⟩⟩)

/-! ## Declarations -/

theorem declares_manifest (m : Manifest) : m.root.Declares "manifest" :=
  ⟨Vocabulary.manifestNamespace, by decide, List.mem_cons_self ..⟩

theorem declares_odpack_iff (m : Manifest) : m.root.Declares "odpack" ↔ m.hasExtension = true := by
  have hname : "xmlns:" ++ "odpack" = "xmlns:odpack" := by decide
  rw [Manifest.root, Element.Declares, Manifest.rootAttributes, hname]
  cases m.hasExtension with
  | true => exact iff_of_true ⟨Vocabulary.extensionNamespace, by decide, by simp⟩ rfl
  | false => simp

/-- Every name in a manifest has a `qualifier?`, and the root declares it, but for that of
declarations. -/
theorem declares_of_mem_tags {m : Manifest} {t : String × List String}
    (ht : t ∈ m.root.shape.tags) {name : String} (hname : name ∈ t.1 :: t.2) :
    ∃ q, qualifier? name = some q ∧ (q = "xmlns" ∨ m.root.Declares q) := by
  rw [shape_root] at ht
  rcases qualifier_of_mem_layout ht hname with h | h | ⟨h, hany⟩
  · exact ⟨_, h, .inr (declares_manifest m)⟩
  · exact ⟨_, h, .inl rfl⟩
  · exact ⟨_, h, .inr ((declares_odpack_iff m).mpr ((hasExtension_eq m).trans hany))⟩

/-! ## Repetition -/

theorem distinct_leaf {as : Attributes} (h : Stated as) (name : String) :
    (Element.node name as []).Distinct :=
  .node h.nodup (by simp)

theorem distinct_entry (e : Entry) : e.element.Distinct := by
  refine .node (Stated.entry e).nodup fun child hchild => ?_
  obtain ⟨d, -, rfl⟩ := List.mem_map.mp hchild
  refine .node (Stated.descriptor d).nodup ?_
  rw [List.forall_mem_cons, List.forall_mem_cons, List.forall_mem_singleton]
  exact ⟨distinct_leaf (.cipher d) _, distinct_leaf (.startKey d) _,
    distinct_leaf (.derivation d) _⟩

/-- No element of a manifest carries an attribute twice (`Element.Distinct`). -/
theorem distinct_root (m : Manifest) : m.root.Distinct := by
  refine .node (Stated.root m).nodup (List.forall_mem_cons.mpr ⟨distinct_leaf (.package m) _, ?_⟩)
  exact List.forall_mem_map.mpr fun e _ => distinct_entry e

/-! ## Reading the elements -/

section

variable {name : String} {as : Attributes}

theorem read_start (g : Grove) (h : Stated as) :
    g.read (Piece.start name as).event = some (g.start name as) :=
  Grove.read_start (fun a ha => isName_of_mem (h.named a ha)) h.nodup

theorem read_empty (g : Grove) (h : Stated as) :
    g.read (Piece.empty name as).event = some (g.add (.node name as [])) :=
  Grove.read_empty (fun a ha => isName_of_mem (h.named a ha)) h.nodup

theorem foldl_add_start (g : Grove) (children : List Element) :
    children.foldl Grove.add (g.start name as)
      = { g with nesting := ⟨name, as, children⟩ :: g.nesting } := by
  have hfold : ∀ (cs before : List Element),
      cs.foldl Grove.add { g with nesting := ⟨name, as, before⟩ :: g.nesting }
        = { g with nesting := ⟨name, as, before ++ cs⟩ :: g.nesting } := by
    intro cs
    induction cs with
    | nil => simp
    | cons c cs ih =>
        intro before
        rw [List.foldl_cons, List.append_cons]
        exact ih (before ++ [c])
  exact hfold children []

/-- An element is read by `Grove.read` from its start tag, its children and its end tag. -/
theorem foldlM_read_node {ps : List Piece} {children : List Element} (h : Stated as)
    (hps : ∀ g : Grove, (ps.map Piece.event).foldlM Grove.read g
      = some (children.foldl Grove.add g)) (g : Grove) :
    ((Piece.start name as :: ps ++ [Piece.stop name]).map Piece.event).foldlM Grove.read g
      = some (g.add (.node name as children)) := by
  have hstop := Grove.read_stop (g := { g with nesting := ⟨name, as, children⟩ :: g.nesting }) rfl
  rw [List.map_append, List.map_cons, List.foldlM_append, List.foldlM_cons, read_start g h]
  simp only [Option.bind_eq_bind, Option.bind_some, hps, foldl_add_start, List.map_cons,
    List.map_nil, List.foldlM_cons, hstop]
  rfl

/-- `Descriptor.element` is read from `Descriptor.pieces`. -/
theorem foldlM_read_descriptor (d : Descriptor) (g : Grove) :
    (d.pieces.map Piece.event).foldlM Grove.read g = some (g.add d.element) := by
  have hparts : ∀ g : Grove, (([.empty "manifest:algorithm" d.cipherAttributes,
        .empty "manifest:start-key-generation" d.startKeyAttributes,
        .empty "manifest:key-derivation" d.derivationAttributes] : List Piece).map
      Piece.event).foldlM Grove.read g
      = some (([.node "manifest:algorithm" d.cipherAttributes [],
        .node "manifest:start-key-generation" d.startKeyAttributes [],
        .node "manifest:key-derivation" d.derivationAttributes []] : List Element).foldl
          Grove.add g) := by
    intro g
    simp only [List.map_cons, List.map_nil, List.foldlM_cons, read_empty _ (.cipher d),
      read_empty _ (.startKey d), read_empty _ (.derivation d), Option.bind_eq_bind,
      Option.bind_some]
    rfl
  exact foldlM_read_node (.descriptor d) hparts g

/-- `Entry.element` is read from `Entry.pieces`. -/
theorem foldlM_read_entry (e : Entry) (g : Grove) :
    (e.pieces.map Piece.event).foldlM Grove.read g = some (g.add e.element) := by
  rw [Entry.pieces, Entry.element]
  cases e.encryption with
  | none =>
      rw [List.map_singleton, List.foldlM_cons, read_empty g (.entry e)]
      rfl
  | some d =>
      exact foldlM_read_node (.entry e) (fun g => foldlM_read_descriptor d g) g

theorem foldlM_read_entries (es : List Entry) (g : Grove) :
    ((es.flatMap Entry.pieces).map Piece.event).foldlM Grove.read g
      = some ((es.map Entry.element).foldl Grove.add g) := by
  induction es generalizing g with
  | nil => rfl
  | cons e es ih =>
      rw [List.flatMap_cons, List.map_append, List.foldlM_append, foldlM_read_entry e g]
      exact ih (g.add e.element)

/-- A manifest is read from `Manifest.pieces`: a declaration, and `Manifest.root`. -/
theorem foldlM_read_pieces (m : Manifest) :
    (m.pieces.map Piece.event).foldlM Grove.read {} = some { roots := [m.root] } := by
  have hchildren : ∀ g : Grove,
      ((.empty "manifest:file-entry" m.packageAttributes :: m.entries.flatMap Entry.pieces).map
        Piece.event).foldlM Grove.read g
      = some ((.node "manifest:file-entry" m.packageAttributes [] :: m.entries.map
        Entry.element).foldl Grove.add g) := by
    intro g
    rw [List.map_cons, List.foldlM_cons, read_empty g (.package m)]
    exact foldlM_read_entries m.entries _
  exact foldlM_read_node (.root m) hchildren {}

end

/-! ## Written manifests -/

/-- What a reader finds in the document of a manifest: one declaration and the elements below one
root, with every qualifier declared, and nothing but white space around them. -/
structure Structured (m : Manifest) (es : List Event) (root : Element) : Prop where
  read : Markup.events m.toXml.toList = (es, none)
  declared : "<?xml version=\"1.0\" encoding=\"UTF-8\"?>\n".toList <+: m.toXml.toList
  tags : ∃ tags, es.filter Event.isMarkup = .instruction :: tags ∧ tags.all Event.isTag = true
  blank : ∀ t, .text t ∈ es → t.all Markup.isSpace = true
  forest : Markup.forest? es = some [root]
  distinct : root.Distinct
  bound : ∀ t ∈ root.shape.tags, ∀ name ∈ t.1 :: t.2,
    ∃ q, qualifier? name = some q ∧ (q = "xmlns" ∨ root.Declares q)
  extension : root.Declares "odpack"
    ↔ ∃ t ∈ root.shape.tags, "odpack:compressed-size" ∈ t.2
  shape : root.shape = layout (m.entries.map Entry.presence)

theorem declaration_not_mem_pieces (e : Entry) : .declaration ∉ e.pieces := by
  cases he : e.encryption <;> simp [Entry.pieces, Descriptor.pieces, he]

/-- Behind the declaration every piece `isTag`. -/
theorem isTag_of_mem_pieces (m : Manifest) : ∀ p ∈ m.pieces.tail, p.event.isTag = true := by
  intro p hp
  refine Piece.isTag_event fun heq => ?_
  rw [heq] at hp
  simp [Manifest.pieces, declaration_not_mem_pieces] at hp

/-- **The structure of a written manifest is that of its entries.**  The document is a declaration
and one root element; in the root no attribute is repeated and no qualifier undeclared; and its
`Shape` is the `layout`, which depends on nothing but the number of entries and what each of them
has.  The characters of names and values are not looked at, so nothing is said of those that no
document may hold. -/
theorem structured_toXml (m : Manifest) : ∃ es root, m.Structured es root := by
  obtain ⟨es, heq, hfilter, hblank⟩ := Markup.events_render m.declaration_not_mem m.isNamed_calls
  rw [m.pieces_calls] at hfilter
  have hread : es.foldlM Grove.read {} = some { roots := [m.root] } := by
    rw [← Markup.foldlM_filter_isMarkup (fun _ _ => rfl), hfilter]
    exact m.foldlM_read_pieces
  refine ⟨es, m.root, heq, ?_, ⟨_, hfilter, ?_⟩, hblank, ?_, m.distinct_root,
    fun t ht name hname => declares_of_mem_tags ht hname, ?_, shape_root m⟩
  · rw [Manifest.toXml, Markup.toList_render m.declaration_not_mem, m.pieces_calls]
    exact List.prefix_append _ _
  · rw [List.all_map, List.all_eq_true]
    exact isTag_of_mem_pieces m
  · rw [Markup.forest?, hread]
    rfl
  · rw [declares_odpack_iff, hasExtension_eq, shape_root]
    exact any_compressed_iff

end Manifest

end OpenDocument
