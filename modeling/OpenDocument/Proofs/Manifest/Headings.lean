import OpenDocument.Proofs.Manifest.Nesting
import OpenDocument.Proofs.Markup.Conformance

/-!
# OpenDocument.Proofs.Manifest.Headings

What a manifest is read from: the headings of the elements of its document, in document order, each
a name and attributes with unescaped values.  Of a heading nothing counts but the attributes that
its element is read for (`Reading.element_congr`).
-/

namespace OpenDocument

open Markup (Lexeme WrittenTag)

namespace Manifest

/-- The heading of an element: its name, and its attributes with unescaped values. -/
structure Heading where
  name : String
  attributes : Attributes
  deriving DecidableEq, Repr

/-- The heading of a tag, if `attributes?` finds its attributes well-formed. -/
def heading? (t : Markup.Tag) : Option Heading :=
  t.attributes?.map fun as => ⟨String.ofList t.name, as⟩

/-- The headings of a document, if all its attributes are well-formed. -/
def headings? (document : String) : Option (List Heading) :=
  ((Markup.events document.toList).1.filterMap tag?).mapM heading?

/-- Take in the heading of an element, by `Reading.element`. -/
def Reading.heading (r : Reading) (h : Heading) : Except Error Reading :=
  r.element h.name h.attributes

/-! ## Documents and their headings -/

/-- `Reading.tag` takes tags in as `Reading.heading` does their headings. -/
theorem foldlM_tag_eq_heading {ts : List Markup.Tag} {hs : List Heading}
    (h : ts.mapM heading? = some hs) (r : Reading) :
    ts.foldlM Reading.tag r = hs.foldlM Reading.heading r := by
  induction ts generalizing hs r with
  | nil =>
      cases h
      rfl
  | cons t ts ih =>
      rw [List.mapM_cons, Option.bind_eq_bind, Option.bind_eq_some_iff] at h
      obtain ⟨a, ha, h⟩ := h
      rw [Option.bind_eq_bind, Option.bind_eq_some_iff] at h
      obtain ⟨as, has, h⟩ := h
      cases h
      obtain ⟨attributes, hattributes, rfl⟩ := Option.map_eq_some_iff.mp ha
      rw [List.foldlM_cons, List.foldlM_cons, Reading.tag, hattributes]
      exact bind_congr fun r' => ih has r'

/-- Tags that `Reading.tag` takes in have well-formed attributes, and so headings. -/
theorem exists_headings_of_foldlM {ts : List Markup.Tag} {r r' : Reading}
    (h : ts.foldlM Reading.tag r = .ok r') : ∃ hs, ts.mapM heading? = some hs := by
  induction ts generalizing r with
  | nil => exact ⟨[], rfl⟩
  | cons t ts ih =>
      rw [List.foldlM_cons] at h
      obtain ⟨inner, ht, h⟩ := exists_of_bind_eq_ok h
      obtain ⟨hs, hhs⟩ := ih h
      cases hattributes : t.attributes? with
      | none => simp [Reading.tag, hattributes] at ht
      | some as =>
          refine ⟨⟨String.ofList t.name, as⟩ :: hs, ?_⟩
          rw [List.mapM_cons, heading?, hattributes, hhs]
          rfl

/-- What `parse` reads, it reads from `headings?`. -/
theorem exists_headings_of_parse {document : String} {m : Manifest} (h : parse document = .ok m) :
    ∃ hs r, headings? document = some hs ∧ hs.foldlM Reading.heading {} = .ok r
      ∧ r.manifest = .ok m := by
  simp only [parse, foldlM_event_eq_tags] at h
  split at h
  · cases h
  · next r hr =>
      split at h
      · cases h
      · obtain ⟨hs, hhs⟩ := exists_headings_of_foldlM hr
        exact ⟨hs, r, hhs, foldlM_tag_eq_heading hhs {} ▸ hr, h⟩

/-! ## Written documents -/

/-- The heading of a written tag, with the values that its attributes state. -/
def ofTag (t : WrittenTag) : Heading :=
  ⟨t.name, t.stated⟩

/-- The headings of a written document. -/
def headings (d : List Lexeme) : List Heading :=
  (d.filterMap Lexeme.tag?).map ofTag

@[simp] theorem headings_start (t : WrittenTag) (d : List Lexeme) :
    headings (.start t :: d) = ofTag t :: headings d := rfl

@[simp] theorem headings_empty (t : WrittenTag) (d : List Lexeme) :
    headings (.empty t :: d) = ofTag t :: headings d := rfl

theorem headings_append (d d' : List Lexeme) : headings (d ++ d') = headings d ++ headings d' := by
  rw [headings, List.filterMap_append, List.map_append]
  rfl

theorem filterMap_tag?_filter (es : List Markup.Event) :
    (es.filter Markup.Event.isMarkup).filterMap tag? = es.filterMap tag? := by
  rw [List.filterMap_filter]
  refine List.filterMap_congr fun e _ => ?_
  cases e <;> rfl

theorem filterMap_tag?_event? (d : List Lexeme) :
    (d.filterMap Lexeme.event?).filterMap tag? = (d.filterMap Lexeme.tag?).map WrittenTag.tag := by
  rw [List.filterMap_filterMap, List.map_filterMap]
  refine List.filterMap_congr fun l _ => ?_
  cases l <;> rfl

/-- `heading?` reads back the heading of each tag of a `WellFormed` document. -/
theorem heading?_tag {d : List Lexeme} (h : Markup.WellFormed d) {t : WrittenTag}
    (ht : t ∈ d.filterMap Lexeme.tag?) : heading? t.tag = some (ofTag t) := by
  obtain ⟨l, hl, hlt⟩ := List.mem_filterMap.mp ht
  have hwell : t.WellFormed := by
    have hlex := h.lexemes l hl
    cases l <;> cases hlt <;> exact hlex
  rw [heading?, hwell.attributes?_tag (h.distinct l hl t hlt), WrittenTag.tag,
    String.ofList_toList]
  rfl

/-- `headings?` reads back the headings of a written document, and nothing is wrong with its
syntax. -/
theorem headings?_written {d : List Lexeme} (h : Markup.WellFormed d) :
    headings? (.ofList (Markup.written d)) = some (headings d)
      ∧ (Markup.events (Markup.written d)).2 = none := by
  obtain ⟨es, heq, hfilter, -⟩ := Markup.events_written h.lexemes h.nested
  have htags : es.filterMap tag? = (d.filterMap Lexeme.tag?).map WrittenTag.tag := by
    rw [← filterMap_tag?_filter, hfilter, filterMap_tag?_event?]
  rw [headings?, String.toList_ofList, heq]
  refine ⟨?_, rfl⟩
  dsimp only
  rw [htags, List.mapM_map]
  exact Markup.mapM_eq_some_map fun t ht => heading?_tag h ht

/-- **A written document is read from its headings**: `parse` takes in `headings d`, and nothing
else has a part in it. -/
theorem parse_written {d : List Lexeme} (h : Markup.WellFormed d) :
    parse (.ofList (Markup.written d))
      = (headings d).foldlM Reading.heading {} >>= Reading.manifest := by
  obtain ⟨hheadings, hfault⟩ := headings?_written h
  rw [headings?] at hheadings
  simp only [parse, foldlM_event_eq_tags, foldlM_tag_eq_heading hheadings]
  rw [String.toList_ofList, hfault]
  cases (headings d).foldlM Reading.heading {} <;> rfl

/-! ## What is read of a heading -/

/-- The attributes that an element is read for by `Reading.element`. -/
def usedBy : String → List String
  | "manifest:file-entry" => ["manifest:full-path", "manifest:media-type", "manifest:size"]
  | "manifest:encryption-data" =>
    ["manifest:checksum-type", "manifest:checksum", "odpack:compressed-size"]
  | "manifest:algorithm" => ["manifest:algorithm-name", "manifest:initialisation-vector"]
  | "manifest:start-key-generation" => ["manifest:start-key-generation-name", "manifest:key-size"]
  | "manifest:key-derivation" =>
    ["manifest:key-derivation-name", "manifest:key-size", "manifest:iteration-count",
      "manifest:salt"]
  | _ => []

/-- The elements that are read. -/
def elementNames : List String :=
  ["manifest:file-entry", "manifest:encryption-data", "manifest:algorithm",
    "manifest:start-key-generation", "manifest:key-derivation"]

namespace Reading

variable {as bs : Attributes} {name : String}

theorem required_congr (h : as.lookup name = bs.lookup name) :
    as.required name = bs.required name := by
  rw [Attributes.required, h, Attributes.required]

theorem size?_congr (h : as.lookup name = bs.lookup name) : as.size? name = bs.size? name := by
  rw [Attributes.size?, h, Attributes.size?]

/-- Attributes that are not in `usedBy` have no part in `Reading.element`. -/
theorem element_congr (r : Reading) (h : ∀ n ∈ usedBy name, as.lookup n = bs.lookup n) :
    r.element name as = r.element name bs := by
  unfold element
  split <;> simp only [usedBy, List.forall_mem_cons] at h
  · simp only [fileEntry, required_congr h.1, h.2.1, size?_congr h.2.2.1]
  · simp only [encryptionData, Attributes.bytes, required_congr h.1, required_congr h.2.1,
      size?_congr h.2.2.1]
  · simp only [algorithm, Attributes.bytes, required_congr h.1, required_congr h.2.1]
  · simp only [startKey, Attributes.size, required_congr h.1, required_congr h.2.1]
  · simp only [keyDerivation, Attributes.size, Attributes.count, Attributes.bytes,
      required_congr h.1, required_congr h.2.1, required_congr h.2.2.1, required_congr h.2.2.2.1]
  · rfl

/-- Elements whose names are not in `elementNames` say nothing. -/
theorem element_of_not_mem (r : Reading) (h : name ∉ elementNames) (as : Attributes) :
    r.element name as = .ok r := by
  simp only [elementNames, List.mem_cons, not_or] at h
  exact element_of_ne h.1 h.2.1 h.2.2.1 h.2.2.2.1 h.2.2.2.2.1

end Reading

end Manifest

end OpenDocument
