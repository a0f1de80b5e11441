import Mathlib.Data.List.Nodup
import Mathlib.Logic.Relation
import OpenDocument.Proofs.Manifest.Sections

/-!
# OpenDocument.Proofs.Manifest.Variation

Documents that are read alike.  A `Change` of a stretch of a document reorders or adds attributes,
closes an empty element by an end tag, or adds what nothing is read from; an `Edit` is a change
somewhere in a document.  Every edit leaves a document well-formed and its manifest as it is, so
what is read depends on nothing that any number of edits, in either direction, can alter
(`listed_and_unaltered`).
-/

namespace OpenDocument

open Markup (Lexeme WrittenTag WrittenAttribute IsName)

/-! ## Look-ups -/

/-- The order of attributes has no part in `lookup`, if no name occurs twice. -/
theorem lookup_eq_of_perm {as bs : Attributes} (h : as.Perm bs) (hd : (as.map Prod.fst).Nodup)
    (name : String) : as.lookup name = bs.lookup name := by
  induction h with
  | nil => rfl
  | cons a _ ih =>
      rw [List.lookup_cons, List.lookup_cons, ih (List.nodup_cons.mp hd).2]
  | swap a b cs =>
      rw [List.map_cons, List.map_cons, List.nodup_cons] at hd
      have hne : b.1 ≠ a.1 := fun heq => hd.1 (heq ▸ List.mem_cons_self ..)
      rw [List.lookup_cons, List.lookup_cons, List.lookup_cons, List.lookup_cons]
      cases hb : name == b.1 with
      | false => rfl
      | true =>
          rw [eq_of_beq hb, beq_false_of_ne hne]
  | trans h _ ih ih' => exact (ih hd).trans (ih' ((h.map _).nodup_iff.mp hd))

/-- An attribute more has no part in the `lookup` of another one. -/
theorem lookup_append_cons {name : String} (as bs : Attributes) {a : String × String}
    (h : name ≠ a.1) : (as ++ a :: bs).lookup name = (as ++ bs).lookup name := by
  induction as with
  | nil =>
      rw [List.nil_append, List.lookup_cons, beq_false_of_ne h]
      rfl
  | cons b as ih => rw [List.cons_append, List.lookup_cons, ih, List.cons_append, List.lookup_cons]

namespace Manifest

/-! ## Edits -/

/-- A change of a tag that leaves what its element is read for. -/
inductive TagChange : WrittenTag → WrittenTag → Prop
  /-- The attributes in another order. -/
  | permuted {name : String} {as bs : List WrittenAttribute} {gap : List Char} (h : as.Perm bs) :
      TagChange ⟨name, as, gap⟩ ⟨name, bs, gap⟩
  /-- An attribute more that the element is not read for: its name is not in `usedBy`. -/
  | extended {name : String} {as bs : List WrittenAttribute} {a : WrittenAttribute}
      {gap : List Char} (ha : a.WellFormed) (hused : a.name ∉ usedBy name)
      (hnew : a.name ∉ (as ++ bs).map WrittenAttribute.name) :
      TagChange ⟨name, as ++ bs, gap⟩ ⟨name, as ++ a :: bs, gap⟩
  /-- The same attributes, by what `stated` says of them, with other white space, quotation marks
  and references. -/
  | respelled {t t' : WrittenTag} (ht : t.WellFormed) (ht' : t'.WellFormed)
      (hname : t.name = t'.name) (h : t.stated = t'.stated) : TagChange t t'

/-- A lexeme that nothing is read from, and that neither opens nor closes an element; an empty
element is one if its name is not in `elementNames`. -/
inductive Silent : Lexeme → Prop
  | text (content : List Char) : Silent (.text content)
  | comment (content : List Char) : Silent (.comment content)
  | instruction (content : List Char) : Silent (.instruction content)
  | characterData (content : List Char) : Silent (.characterData content)
  | documentType (type : Markup.DocumentType) : Silent (.documentType type)
  | empty {t : WrittenTag} (hname : t.name ∉ elementNames) (hd : t.names.Nodup) : Silent (.empty t)

/-- A change of a stretch of a document: a `TagChange`, an empty element written as two tags, or
something more that is not read. -/
inductive Change : List Lexeme → List Lexeme → Prop
  | start {t t' : WrittenTag} (h : TagChange t t') : Change [.start t] [.start t']
  | empty {t t' : WrittenTag} (h : TagChange t t') : Change [.empty t] [.empty t']
  /-- An empty element as a start tag and an end tag. -/
  | paired {t : WrittenTag} {gap : List Char} (hg : gap.all Markup.isSpace = true) :
      Change [.empty t] [.start t, .stop t.name gap]
  /-- A construct more that is `Silent`. -/
  | inserted {l : Lexeme} (hl : l.WellFormed) (hs : Silent l) : Change [] [l]
  /-- An element more whose name is not in `elementNames`, around whole elements. -/
  | wrapped {t : WrittenTag} {gap : List Char} {content : List Lexeme} (ht : t.WellFormed)
      (hname : t.name ∉ elementNames) (hd : t.names.Nodup) (hg : gap.all Markup.isSpace = true)
      (hcontent : content.foldlM Lexeme.nest [] = some []) :
      Change content (.start t :: (content ++ [.stop t.name gap]))

/-- A `Change` somewhere in a document. -/
inductive Edit : List Lexeme → List Lexeme → Prop
  | within {ls ls' : List Lexeme} (before after : List Lexeme) (h : Change ls ls') :
      Edit (before ++ (ls ++ after)) (before ++ (ls' ++ after))

/-! ## Well-formed documents -/

/-- A lexeme that may stand in a well-formed document. -/
def Proper (l : Lexeme) : Prop :=
  l.WellFormed ∧ ∀ t ∈ l.tag?, t.names.Nodup

theorem proper_start_iff {t : WrittenTag} :
    Proper (.start t) ↔ t.WellFormed ∧ t.names.Nodup := by
  simp [Proper, Lexeme.WellFormed, Lexeme.tag?]

theorem proper_empty_iff {t : WrittenTag} :
    Proper (.empty t) ↔ t.WellFormed ∧ t.names.Nodup := by
  simp [Proper, Lexeme.WellFormed, Lexeme.tag?]

theorem proper_stop_iff {name : String} {gap : List Char} :
    Proper (.stop name gap) ↔ IsName name ∧ gap.all Markup.isSpace = true := by
  simp [Proper, Lexeme.WellFormed, Lexeme.tag?]

theorem Silent.proper {l : Lexeme} (hs : Silent l) (hl : l.WellFormed) : Proper l := by
  refine ⟨hl, ?_⟩
  cases hs with
  | empty hname hd =>
      intro t ht
      cases ht
      exact hd
  | text | comment | instruction | characterData | documentType => exact nofun

theorem wellFormed_iff_proper {d : List Lexeme} :
    Markup.WellFormed d ↔ (∀ l ∈ d, Proper l) ∧ d.foldlM Lexeme.nest [] = some [] :=
  ⟨fun h => ⟨fun l hl => ⟨h.lexemes l hl, h.distinct l hl⟩, h.nested⟩,
    fun h => ⟨fun l hl => (h.1 l hl).1, h.2, fun l hl => (h.1 l hl).2⟩⟩

theorem TagChange.proper_iff {t t' : WrittenTag} (h : TagChange t t') :
    (t.WellFormed ∧ t.names.Nodup) ↔ (t'.WellFormed ∧ t'.names.Nodup) := by
  cases h with
  | permuted h =>
      refine and_congr ⟨fun ht => ⟨ht.name, ?_, ht.gap⟩, fun ht => ⟨ht.name, ?_, ht.gap⟩⟩
        (h.map _).nodup_iff
      · exact fun a ha => ht.attributes a (h.mem_iff.mpr ha)
      · exact fun a ha => ht.attributes a (h.mem_iff.mp ha)
  | @extended name as bs a gap ha hused hnew =>
      refine and_congr ⟨fun ht => ⟨ht.name, ?_, ht.gap⟩, fun ht => ⟨ht.name, ?_, ht.gap⟩⟩ ?_
      · intro b hb
        rcases List.mem_append.mp hb with hb | hb
        · exact ht.attributes b (List.mem_append_left _ hb)
        · rcases List.mem_cons.mp hb with rfl | hb
          · exact ha
          · exact ht.attributes b (List.mem_append_right _ hb)
      · exact fun b hb => ht.attributes b (by simp_all; tauto)
      · rw [List.map_append] at hnew
        simp only [WrittenTag.names, List.map_append, List.map_cons, List.nodup_middle,
          List.nodup_cons, hnew, not_false_eq_true, true_and]
  | respelled ht ht' hname h =>
      have hnames : t.names = t'.names := by
        have hfst := congrArg (List.map Prod.fst) h
        rwa [WrittenTag.stated, WrittenTag.stated, List.map_map, List.map_map] at hfst
      rw [hnames]
      exact and_congr_left' (iff_of_true ht ht')

theorem TagChange.name_eq {t t' : WrittenTag} (h : TagChange t t') : t.name = t'.name := by
  cases h with
  | permuted | extended => rfl
  | respelled _ _ hname => exact hname

namespace Change

variable {ls ls' : List Lexeme}

/-- A `Change` keeps to the grammar: the lexemes of both stretches are `Proper`, or those of
neither. -/
theorem proper_iff (h : Change ls ls') : (∀ l ∈ ls, Proper l) ↔ ∀ l ∈ ls', Proper l := by
  cases h with
  | start h =>
      rw [List.forall_mem_singleton, List.forall_mem_singleton, proper_start_iff, proper_start_iff]
      exact h.proper_iff
  | empty h =>
      rw [List.forall_mem_singleton, List.forall_mem_singleton, proper_empty_iff, proper_empty_iff]
      exact h.proper_iff
  | paired hg =>
      rw [List.forall_mem_singleton, List.forall_mem_cons, List.forall_mem_singleton,
        proper_empty_iff, proper_start_iff, proper_stop_iff]
      exact ⟨fun ht => ⟨ht, ht.1.name, hg⟩, fun h => h.1⟩
  | inserted hl hs =>
      rw [List.forall_mem_singleton]
      exact iff_of_true (by simp) (hs.proper hl)
  | wrapped ht hname hd hg hcontent =>
      rw [List.forall_mem_cons, List.forall_mem_append, List.forall_mem_singleton,
        proper_start_iff, proper_stop_iff]
      exact ⟨fun h => ⟨⟨ht, hd⟩, h, ht.name, hg⟩, fun h => h.2.1⟩

/-- A `Change` leaves open what was open. -/
theorem foldlM_nest_eq (h : Change ls ls') (nesting : List String) :
    ls.foldlM Lexeme.nest nesting = ls'.foldlM Lexeme.nest nesting := by
  cases h with
  | start h => simp [Lexeme.nest, h.name_eq]
  | empty h => rfl
  | paired hg => simp [Lexeme.nest]
  | inserted hl hs => cases hs <;> rfl
  | @wrapped t gap content ht hname hd hg hcontent =>
      have hinner := Lexeme.foldlM_nest_append hcontent (t.name :: nesting)
      have houter := Lexeme.foldlM_nest_append hcontent nesting
      rw [List.nil_append] at hinner houter
      simp [Lexeme.nest, hinner, houter]

end Change

/-! ## Readings -/

/-- A `TagChange` leaves what its element is read for. -/
theorem TagChange.element_eq {t t' : WrittenTag} (h : TagChange t t') (hd : t.names.Nodup)
    (r : Reading) : r.heading (ofTag t) = r.heading (ofTag t') := by
  have hnames : (t.stated.map Prod.fst).Nodup := by
    rw [WrittenTag.stated, List.map_map]
    exact hd
  have hlookup : ∀ n ∈ usedBy t.name, t.stated.lookup n = t'.stated.lookup n := by
    intro n hn
    cases h with
    | permuted h => exact lookup_eq_of_perm (h.map _) hnames n
    | @extended name as bs a gap ha hused hnew =>
        have hne : n ≠ a.stated.1 := by
          rintro rfl
          exact hused hn
        rw [WrittenTag.stated, WrittenTag.stated, List.map_append, List.map_append, List.map_cons,
          lookup_append_cons _ _ hne]
    | respelled _ _ _ h => rw [h]
  rw [Reading.heading, Reading.heading, ofTag, ofTag, ← h.name_eq]
  exact r.element_congr hlookup

/-- The heading of an element that is not in `elementNames` is passed over. -/
theorem heading_of_not_mem {t : WrittenTag} (hname : t.name ∉ elementNames) (r : Reading) :
    r.heading (ofTag t) = .ok r :=
  r.element_of_not_mem hname t.stated

namespace Change

variable {ls ls' : List Lexeme}

/-- A `Change` has no part in a reading. -/
theorem foldlM_heading_eq (h : Change ls ls') (hp : ∀ l ∈ ls, Proper l) (r : Reading) :
    (headings ls).foldlM Reading.heading r = (headings ls').foldlM Reading.heading r := by
  cases h with
  | start h =>
      rw [List.forall_mem_singleton, proper_start_iff] at hp
      rw [headings_start, headings_start, List.foldlM_cons, List.foldlM_cons, h.element_eq hp.2]
  | empty h =>
      rw [List.forall_mem_singleton, proper_empty_iff] at hp
      rw [headings_empty, headings_empty, List.foldlM_cons, List.foldlM_cons, h.element_eq hp.2]
  | paired hg => rfl
  | inserted hl hs =>
      cases hs with
      | empty hname hd =>
          rw [headings_empty, List.foldlM_cons, heading_of_not_mem hname]
          rfl
      | text | comment | instruction | characterData | documentType => rfl
  | @wrapped t gap content ht hname hd hg hcontent =>
      have hstop : headings [.stop t.name gap] = [] := rfl
      rw [headings_start, headings_append, hstop, List.append_nil, List.foldlM_cons,
        heading_of_not_mem hname]
      rfl

end Change

/-- An `Edit` keeps to the grammar. -/
theorem Edit.wellFormed_iff {d d' : List Lexeme} (h : Edit d d') :
    Markup.WellFormed d ↔ Markup.WellFormed d' := by
  cases h with
  | within before after h =>
      rw [wellFormed_iff_proper, wellFormed_iff_proper]
      simp only [List.forall_mem_append, h.proper_iff, List.foldlM_append, h.foldlM_nest_eq]

/-- **An edit has no part in a reading.**  `parse` gives the same for a document behind an `Edit`,
be it a manifest or an error. -/
theorem Edit.parse_eq {d d' : List Lexeme} (h : Edit d d') (hd : Markup.WellFormed d) :
    parse (.ofList (Markup.written d')) = parse (.ofList (Markup.written d)) := by
  rw [parse_written hd, parse_written (h.wellFormed_iff.mp hd)]
  cases h with
  | within before after h =>
      have hproper := (wellFormed_iff_proper.mp hd).1
      simp only [List.forall_mem_append] at hproper
      simp only [headings_append, List.foldlM_append, h.foldlM_heading_eq hproper.2.1]

/-- Any number of edits, in either direction, keep to the grammar and have no part in what `parse`
gives. -/
theorem parse_eq_of_eqvGen {d d' : List Lexeme} (h : Relation.EqvGen Edit d d') :
    (Markup.WellFormed d ↔ Markup.WellFormed d') ∧ (Markup.WellFormed d →
      parse (.ofList (Markup.written d')) = parse (.ofList (Markup.written d))) := by
  induction h with
  | rel d d' h => exact ⟨h.wellFormed_iff, h.parse_eq⟩
  | refl d => exact ⟨.rfl, fun _ => rfl⟩
  | symm d d' _ ih => exact ⟨ih.1.symm, fun hd => (ih.2 (ih.1.mpr hd)).symm⟩
  | trans d d' d'' _ _ ih ih' =>
      exact ⟨ih.1.trans ih'.1, fun hd => (ih'.2 (ih.1.mp hd)).trans (ih.2 hd)⟩

/-- **What a manifest depends on.**  A well-formed document that is read `Lists` its entries, in
their order and each once, and the media type that it states for the package last; and no number of
edits, in either direction, makes it another manifest or a malformed document. -/
theorem listed_and_unaltered {d : List Lexeme} (hd : Markup.WellFormed d) :
    (∀ m, parse (.ofList (Markup.written d)) = .ok m → Lists (headings d) m)
      ∧ ∀ d', Relation.EqvGen Edit d d' → Markup.WellFormed d'
        ∧ parse (.ofList (Markup.written d')) = parse (.ofList (Markup.written d)) := by
  constructor
  · intro m hm
    rw [parse_written hd] at hm
    obtain ⟨r, hfold, hmanifest⟩ := exists_of_bind_eq_ok hm
    exact lists_of_foldlM hfold hmanifest
  · intro d' hedits
    obtain ⟨hiff, hparse⟩ := parse_eq_of_eqvGen hedits
    exact ⟨hiff.mp hd, hparse hd⟩

/-- The tag of an entry with white space in it, either kind of quotation marks and a reference. -/
def spacedTag : WrittenTag where
  name := "manifest:file-entry"
  attributes := [{ name := "manifest:full-path", before := [' '], value := "a&lt;b".toList },
    { gap := ['\n', '\t'], name := "manifest:size", quote := '\'', value := " 7".toList }]
  gap := ['\n']

/-- The tag of the package, with its attributes in either order. -/
def packageTag (flipped : Bool) : WrittenTag where
  name := "manifest:file-entry"
  attributes :=
    if flipped then [.ofPair ("manifest:media-type", "t"), .ofPair ("manifest:full-path", "/")]
    else [.ofPair ("manifest:full-path", "/"), .ofPair ("manifest:media-type", "t")]

/-- The tag of an element that is not read. -/
def foreignTag : WrittenTag where
  name := "x:other"
  attributes := [.ofPair ("manifest:full-path", "/")]

/-- A document with a type and a comment. -/
def plainLexemes : List Lexeme :=
  [.documentType { name := "manifest:manifest" }, .start { name := "manifest:manifest" },
    .empty (packageTag false), .text ['\n'], .start spacedTag, .comment " > ".toList,
    .stop "manifest:file-entry" [' '], .stop "manifest:manifest" []]

/-- `plainLexemes` with the attributes of the package flipped, an end tag for it, and an element
that is not read around the comment. -/
def editedLexemes : List Lexeme :=
  [.documentType { name := "manifest:manifest" }, .start { name := "manifest:manifest" },
    .start (packageTag true), .stop "manifest:file-entry" [], .text ['\n'], .start spacedTag,
    .start foreignTag, .comment " > ".toList, .stop "x:other" [],
    .stop "manifest:file-entry" [' '], .stop "manifest:manifest" []]

theorem wellFormed_plainLexemes : Markup.WellFormed plainLexemes where
  lexemes := by
    have hroot : WrittenTag.WellFormed { name := "manifest:manifest" } := by decide
    have hpackage : (packageTag false).WellFormed := by decide
    have hspaced : spacedTag.WellFormed := by decide
    have hcomment : Markup.EndedBy ['-', '-', '>'] " > ".toList := by decide
    simp only [plainLexemes, List.forall_mem_cons]
    exact ⟨⟨rfl, by decide, by decide, .nil, nofun⟩, hroot, hpackage, ⟨by decide, rfl⟩, hspaced,
      hcomment, ⟨by decide, rfl⟩, ⟨by decide, rfl⟩, nofun⟩
  nested := by decide
  distinct := by decide

theorem edits_plainLexemes : Relation.EqvGen Edit plainLexemes editedLexemes := by
  have hflip : Change [.empty (packageTag false)] [.empty (packageTag true)] :=
    .empty (.permuted (.swap ..))
  have hpair : Change [.empty (packageTag true)]
      [.start (packageTag true), .stop "manifest:file-entry" []] := .paired rfl
  have hwrap : Change [.comment " > ".toList]
      [.start foreignTag, .comment " > ".toList, .stop "x:other" []] :=
    .wrapped (by decide) (by decide) (by decide) rfl rfl
  exact .trans _ _ _
    (.rel _ _ (.within (plainLexemes.take 2) (plainLexemes.drop 3) hflip))
    (.trans _ _ _ (.rel _ _ (.within (plainLexemes.take 2) (plainLexemes.drop 3) hpair))
      (.rel _ _ (.within (editedLexemes.take 6) (editedLexemes.drop 9) hwrap)))

/-- `plainLexemes` are read as their one entry says, and `editedLexemes` in the same way. -/
theorem listed_and_unaltered_plainLexemes :
    Markup.WellFormed plainLexemes ∧ Relation.EqvGen Edit plainLexemes editedLexemes
      ∧ ∃ m, m = { mediaType := "t", entries := [⟨"a<b", "", some 7, none⟩] }
        ∧ Lists (headings plainLexemes) m ∧ Markup.WellFormed editedLexemes
        ∧ parse (.ofList (Markup.written editedLexemes)) = .ok m := by
  have hparse : parse (.ofList (Markup.written plainLexemes))
      = .ok { mediaType := "t", entries := [⟨"a<b", "", some 7, none⟩] } := by
    rw [parse, String.toList_ofList]
    decide +kernel
  obtain ⟨hlists, hedits⟩ := listed_and_unaltered wellFormed_plainLexemes
  obtain ⟨hedited, heq⟩ := hedits _ edits_plainLexemes
  exact ⟨wellFormed_plainLexemes, edits_plainLexemes, _, rfl, hlists _ hparse, hedited,
    heq.trans hparse⟩

end Manifest

end OpenDocument
