import OpenDocument.Proofs.Markup.Rendering

/-!
# OpenDocument.Proofs.Markup.Conformance

What a reader that keeps to XML 1.0 sees of the tags of a written document.  Such a reader takes
nothing but legal characters, reads every end of a line as a line feed, and reads white space in a
value as spaces, unless a reference stands for it.  A writer passes on what it is given and only
replaces the characters that have an entity.  So a value is seen as `seen` says (`tags?_lines`),
which is the value itself exactly if there are no tabs, line feeds and carriage returns in it
(`seen_eq_iff`).
-/

namespace OpenDocument.Markup

/-! ## Legal characters -/

/-- A character that an XML 1.0 document may have. -/
def isLegal (c : Char) : Bool :=
  ['\t', '\n', '\r'].contains c || (0x20 ≤ c.toNat && c.toNat ≤ 0xD7FF)
    || (0xE000 ≤ c.toNat && c.toNat ≤ 0xFFFD) || (0x10000 ≤ c.toNat && c.toNat ≤ 0x10FFFF)

/-- A text of characters that are `isLegal`. -/
def isLegalText (s : String) : Bool :=
  s.toList.all isLegal

/-- A text is as legal as its escaped form, by `isLegal`. -/
theorem all_isLegal_escape (cs : List Char) : (escape cs).all isLegal = cs.all isLegal := by
  induction cs with
  | nil => rfl
  | cons c cs ih =>
      rw [escape_cons, List.all_append, ih, List.all_cons]
      rcases escapeChar_cases c with ⟨entity, hmem, heq⟩ | ⟨-, heq⟩
      · have table : ∀ e ∈ entities, e.2.all isLegal = true ∧ isLegal e.1 = true := by decide
        rw [heq, (table _ hmem).1, (table _ hmem).2]
      · rw [heq, List.all_cons, List.all_nil, Bool.and_true]

/-! ## Ends of lines -/

/-- A text with every end of a line as a line feed: a carriage return, a line feed, or a line feed
behind a carriage return.  `cr` says that a carriage return stands in front of the text. -/
def lineEnds (cr : Bool) : List Char → List Char
  | [] => []
  | c :: cs =>
    if c = '\r' then '\n' :: lineEnds true cs
    else if c = '\n' ∧ cr then lineEnds false cs
    else c :: lineEnds false cs

/-- A character that ends no line, so that `lineEnds` has no part in it. -/
def isInline (c : Char) : Bool :=
  c != '\r' && c != '\n'

theorem isInline_iff {c : Char} : isInline c = true ↔ c ≠ '\r' ∧ c ≠ '\n' := by
  simp [isInline]

theorem lineEnds_cons {c : Char} (h : isInline c = true) (cr : Bool) (cs : List Char) :
    lineEnds cr (c :: cs) = c :: lineEnds false cs := by
  obtain ⟨hr, hn⟩ := isInline_iff.mp h
  rw [lineEnds, if_neg hr, if_neg (fun h => hn h.1)]

/-- What has no end of a line stays as it is by `lineEnds`. -/
theorem lineEnds_append {piece : List Char} (h : piece.all isInline = true) (hne : piece ≠ [])
    (cr : Bool) (rest : List Char) :
    lineEnds cr (piece ++ rest) = piece ++ lineEnds false rest := by
  induction piece generalizing cr with
  | nil => exact absurd rfl hne
  | cons c piece ih =>
      rw [List.all_cons, Bool.and_eq_true] at h
      rw [List.cons_append, lineEnds_cons h.1]
      cases piece with
      | nil => rfl
      | cons d piece => rw [ih h.2 (List.cons_ne_nil d piece)]; rfl

/-- No end of a line reaches over a character that `isInline`. -/
theorem lineEnds_append_cons {c : Char} (h : isInline c = true) (cr : Bool)
    (cs rest : List Char) :
    lineEnds cr (cs ++ c :: rest) = lineEnds cr cs ++ c :: lineEnds false rest := by
  induction cs generalizing cr with
  | nil => exact lineEnds_cons h cr rest
  | cons d cs ih =>
      rw [List.cons_append, lineEnds, lineEnds, ih, ih]
      split
      · rfl
      · split <;> rfl

/-- The escaped form of a character that `isInline` has only such characters. -/
theorem all_isInline_escapeChar {c : Char} (h : isInline c = true) :
    (escapeChar c).all isInline = true ∧ escapeChar c ≠ [] := by
  rcases escapeChar_cases c with ⟨entity, hmem, heq⟩ | ⟨-, heq⟩
  · have table : ∀ e ∈ entities, e.2.all isInline = true ∧ e.2 ≠ [] := by decide
    rw [heq]
    exact table _ hmem
  · rw [heq]
    simp [h]

/-- Ends of lines are not escaped, so `lineEnds` and `escape` may change places. -/
theorem lineEnds_escape (cr : Bool) (cs : List Char) :
    lineEnds cr (escape cs) = escape (lineEnds cr cs) := by
  induction cs generalizing cr with
  | nil => rfl
  | cons c cs ih =>
      rw [escape_cons]
      by_cases hr : c = '\r'
      · subst hr
        rw [lineEnds, if_pos rfl, escape_cons, ← ih]
        rfl
      · by_cases hn : c = '\n'
        · subst hn
          rw [lineEnds, if_neg hr]
          cases cr with
          | true => rw [if_pos ⟨rfl, rfl⟩, ← ih]; rfl
          | false => rw [if_neg (fun h => Bool.false_ne_true h.2), escape_cons, ← ih]; rfl
        · have hc : isInline c = true := isInline_iff.mpr ⟨hr, hn⟩
          obtain ⟨hinline, hne⟩ := all_isInline_escapeChar hc
          rw [lineEnds_append hinline hne, lineEnds_cons hc, ih, escape_cons]

/-- Without a carriage return, `lineEnds` changes nothing. -/
theorem lineEnds_eq_self {cs : List Char} (h : '\r' ∉ cs) : lineEnds false cs = cs := by
  induction cs with
  | nil => rfl
  | cons c cs ih =>
      simp only [List.mem_cons, not_or] at h
      rw [lineEnds, if_neg (Ne.symm h.1), if_neg (fun h => Bool.false_ne_true h.2), ih h.2]

/-! ## Attribute values -/

/-- What a character of a value is read as: white space as a space, any other as itself. -/
def blank (c : Char) : Char :=
  if isSpace c then ' ' else c

/-- What a value is seen as, with its ends of lines unified by `lineEnds` and its white space read
as spaces by `blank`. -/
def seen (s : String) : String :=
  String.ofList ((lineEnds false s.toList).map blank)

/-- **A value is seen as it is exactly if all white space in it is spaces.** -/
theorem seen_eq_iff (s : String) :
    seen s = s ↔ '\t' ∉ s.toList ∧ '\n' ∉ s.toList ∧ '\r' ∉ s.toList := by
  have hblank : ∀ c, blank c ≠ '\t' ∧ blank c ≠ '\n' ∧ blank c ≠ '\r' := by
    intro c
    rw [blank]
    split
    · decide
    · next h => simp_all [isSpace]
  constructor
  · intro h
    rw [← h, seen, String.toList_ofList]
    simp only [List.mem_map, not_exists, not_and]
    exact ⟨fun c _ => (hblank c).1, fun c _ => (hblank c).2.1, fun c _ => (hblank c).2.2⟩
  · rintro ⟨ht, hn, hr⟩
    have hself : ∀ c ∈ s.toList, blank c = c := by
      intro c hc
      rw [blank]
      split
      · next h =>
          simp only [isSpace, Bool.or_eq_true, beq_iff_eq] at h
          rcases h with ((rfl | rfl) | rfl) | rfl
          · rfl
          · exact absurd hc ht
          · exact absurd hc hr
          · exact absurd hc hn
      · rfl
    rw [seen, lineEnds_eq_self hr, List.map_congr_left hself, List.map_id', String.ofList_toList]

/-- A text that every reader sees as it was written: it is legal, and `seen` does not change it. -/
def isPlainText (s : String) : Bool :=
  s.toList.all fun c => isLegal c && c != '\t' && c != '\n' && c != '\r'

theorem isPlainText_iff (s : String) :
    isPlainText s = true ↔ isLegalText s = true ∧ seen s = s := by
  rw [seen_eq_iff, isPlainText, isLegalText, List.all_eq_true, List.all_eq_true]
  constructor
  · intro h
    have hplain : ∀ c ∈ s.toList, isLegal c = true ∧ c ≠ '\t' ∧ c ≠ '\n' ∧ c ≠ '\r' := by
      simpa [and_assoc] using h
    exact ⟨fun c hc => (hplain c hc).1, fun hc => (hplain _ hc).2.1 rfl,
      fun hc => (hplain _ hc).2.2.1 rfl, fun hc => (hplain _ hc).2.2.2 rfl⟩
  · rintro ⟨hlegal, ht, hn, hr⟩ c hc
    have hne : c ≠ '\t' ∧ c ≠ '\n' ∧ c ≠ '\r' :=
      ⟨fun h => ht (h ▸ hc), fun h => hn (h ▸ hc), fun h => hr (h ▸ hc)⟩
    simp [hlegal c hc, hne]

/-- The character with a code point that is written in digits of the base, if the code point
`isLegal`. -/
def codePoint? (base : Nat) (digits : List Char) : Option Char := do
  let value? (d : Char) := ("0123456789abcdef".toList.idxOf? d.toLower).filter (· < base)
  let n ← digits.foldlM (fun n d => (value? d).map (base * n + ·)) 0
  guard (digits ≠ [] ∧ n.isValidChar ∧ isLegal (Char.ofNat n))
  return Char.ofNat n

/-- The character that a reference stands for, by its code point or as one of the predefined
entities. -/
def referent? : List Char → Option Char
  | '#' :: 'x' :: digits => codePoint? 16 digits
  | '#' :: digits => codePoint? 10 digits
  | name => (entities.find? fun e => e.2 == '&' :: (name ++ [';'])).map (·.1)

/-- What a value is read as: white space as spaces, and references as what they stand for; `none` if
there is no such value.  `reference?` is what stands behind an ampersand so far, last character
first. -/
def value? (reference? : Option (List Char)) : List Char → Option (List Char)
  | [] => if reference?.isNone then some [] else none
  | c :: cs =>
    match reference? with
    | some name =>
      if c = ';' then (referent? name.reverse).bind fun d => (value? none cs).map (d :: ·)
      else value? (some (c :: name)) cs
    | none =>
      if c = '&' then value? (some []) cs
      else if c = '<' then none
      else (value? none cs).map (blank c :: ·)

/-- An entity is read by `value?` as its character. -/
theorem value?_entity {c : Char} {entity : List Char} (h : (c, entity) ∈ entities)
    (rest : List Char) : value? none (entity ++ rest) = (value? none rest).map (c :: ·) := by
  simp only [entities, List.mem_cons, Prod.mk.injEq, List.not_mem_nil, or_false] at h
  rcases h with ⟨rfl, rfl⟩ | ⟨rfl, rfl⟩ | ⟨rfl, rfl⟩ | ⟨rfl, rfl⟩ | ⟨rfl, rfl⟩ <;> rfl

/-- **An escaped value is read with its white space as spaces**, as `blank` makes them. -/
theorem value?_escape (cs : List Char) : value? none (escape cs) = some (cs.map blank) := by
  induction cs with
  | nil => rfl
  | cons c cs ih =>
      rw [escape_cons, List.map_cons]
      rcases escapeChar_cases c with ⟨entity, hmem, heq⟩ | ⟨hne, heq⟩
      · have table : ∀ e ∈ entities, blank e.1 = e.1 := by decide
        rw [heq, value?_entity hmem, ih, table _ hmem]
        rfl
      · have hamp : c ≠ '&' := (hne ('&', _) (List.mem_cons_self ..)).symm
        have hlt : c ≠ '<' :=
          (hne ('<', _) (List.mem_cons_of_mem _ (List.mem_cons_self ..))).symm
        rw [heq, List.singleton_append, value?]
        simp only [if_neg hamp, if_neg hlt, ih, Option.map_some]

/-- A reference stands for white space, but white space itself is read as spaces. -/
example : (value? none "a&#9;b\tc&#x41;".toList).map String.ofList = some "a\tb cA" := by
  decide +kernel

/-! ## Tags -/

/-- The tag of an event that opens an element. -/
def Event.tag? : Event → Option Tag
  | .start tag | .empty tag => some tag
  | _ => none

/-- The name of a tag with the attributes, as they are seen; `none` if one of them is malformed or a
name occurs twice. -/
def Tag.seen? (t : Tag) : Option (String × List (String × String)) := do
  let raw ← rawAttributes? t.inside
  guard (raw.map (·.1)).Nodup
  let as ← raw.mapM fun a => (value? none a.2).map fun v => (String.ofList a.1, String.ofList v)
  return (String.ofList t.name, as)

/-- The tags of a document that open elements, each as it is seen by `Tag.seen?`; `none` for a text
that is no document. -/
def tags? (text : List Char) : Option (List (String × List (String × String))) := do
  guard (text.all isLegal)
  let (es, fault?) := events (lineEnds false text)
  guard fault?.isNone
  (es.filterMap Event.tag?).mapM Tag.seen?

/-- What attributes are seen as: their values are `seen`. -/
def seenAttributes (as : List (String × String)) : List (String × String) :=
  as.map fun a => (a.1, seen a.2)

theorem mapM_eq_some_map {β γ : Type} {f : β → Option γ} {g : β → γ} {l : List β}
    (h : ∀ b ∈ l, f b = some (g b)) : l.mapM f = some (l.map g) := by
  induction l with
  | nil => rfl
  | cons b l ih =>
      obtain ⟨hb, hl⟩ := List.forall_mem_cons.mp h
      rw [List.mapM_cons, hb, ih hl]
      rfl

/-- Attributes with every end of a line in their values as a line feed, by `lineEnds`. -/
def unified (as : List (String × String)) : List (String × String) :=
  as.map fun a => (a.1, String.ofList (lineEnds false a.2.toList))

/-- The attributes that a tag was written with are seen by `Tag.seen?`. -/
theorem seen?_attributesText {name : String} {as : List (String × String)}
    (hn : ∀ a ∈ as, IsName a.1) (hd : (as.map Prod.fst).Nodup) :
    (⟨name.toList, attributesText (unified as)⟩ : Tag).seen? = some (name, seenAttributes as) := by
  have hraw : rawAttributes? (attributesText (unified as))
      = some (as.map fun a => (a.1.toList, escape (lineEnds false a.2.toList))) := by
    have hnamed : ∀ a ∈ unified as, IsName a.1 := List.forall_mem_map.mpr hn
    rw [rawAttributes?_attributesText hnamed]
    simp [unified]
  have hnames : ((as.map fun a => (a.1.toList, escape (lineEnds false a.2.toList))).map
      Prod.fst).Nodup := by
    have hinj : Function.Injective String.toList := fun _ _ => String.toList_inj.mp
    have hmap := hd.map hinj
    rwa [List.map_map] at hmap ⊢
  have hvalues : (as.map fun a => (a.1.toList, escape (lineEnds false a.2.toList))).mapM
      (fun a => (value? none a.2).map fun v => (String.ofList a.1, String.ofList v))
      = some (seenAttributes as) := by
    rw [List.mapM_map]
    refine mapM_eq_some_map fun a _ => ?_
    simp only [Function.comp_apply, value?_escape, Option.map_some, String.ofList_toList, seen]
  simp only [Tag.seen?, hraw, Option.bind_eq_bind, Option.bind_some, guard, if_pos hnames,
    Option.pure_def, hvalues, String.ofList_toList]

/-! ## Pieces -/

namespace Piece

/-- The name and the attributes of a piece that opens an element. -/
def tag? : Piece → Option (String × List (String × String))
  | start name as | empty name as => some (name, as)
  | _ => none

/-- The texts that a piece was given. -/
def texts : Piece → List String
  | declaration => []
  | start name as | empty name as => name :: as.flatMap fun a => [a.1, a.2]
  | stop name => [name]

/-- The piece with every end of a line in its values as a line feed, by `unified`. -/
def unify : Piece → Piece
  | start name as => start name (unified as)
  | empty name as => empty name (unified as)
  | p => p

/-- A piece that names each attribute once. -/
def Distinct (p : Piece) : Prop :=
  ∀ t ∈ p.tag?, (t.2.map Prod.fst).Nodup

theorem after_unify (nesting : List String) (p : Piece) :
    p.unify.after nesting = p.after nesting := by
  cases p <;> rfl

theorem depth_unify (nesting : List String) (p : Piece) :
    p.unify.depth nesting = p.depth nesting := by
  cases p <;> rfl

theorem Fits.unify {nesting : List String} {p : Piece} (h : p.Fits nesting) :
    p.unify.Fits nesting := by
  cases p with
  | declaration | stop name => exact h
  | start name as | empty name as => exact ⟨h.1, List.forall_mem_map.mpr h.2⟩

end Piece

/-- Names do not go over lines. -/
theorem all_isInline_of_isName {name : String} (h : IsName name) :
    name.toList.all isInline = true := by
  rw [List.all_eq_true]
  intro c hc
  obtain ⟨hspace, -⟩ := isNameChar_iff.mp (List.all_eq_true.mp h.2 c hc)
  refine isInline_iff.mpr ⟨?_, ?_⟩ <;> rintro rfl <;> cases hspace

theorem all_isLegal_attributesText (as : List (String × String)) :
    (attributesText as).all isLegal = (as.flatMap fun a => [a.1, a.2]).all isLegalText := by
  have hblank : isLegal ' ' = true ∧ isLegal '=' = true ∧ isLegal '"' = true := by decide
  induction as with
  | nil => rfl
  | cons a as ih =>
      simp only [attributesText_cons, List.all_cons, List.all_append, hblank, all_isLegal_escape,
        ih, Bool.true_and, List.flatMap_cons, List.cons_append, List.nil_append, isLegalText]

/-- The `body` of a piece is as legal as its texts. -/
theorem all_isLegal_body (p : Piece) : p.body.all isLegal = p.texts.all isLegalText := by
  have hbracket : isLegal '<' = true ∧ isLegal '/' = true ∧ isLegal '>' = true := by decide
  cases p with
  | declaration =>
      have hbody : Piece.declaration.body.all isLegal = true := by decide +kernel
      rw [hbody]
      rfl
  | start name as | empty name as =>
      simp only [Piece.body_start, Piece.body_empty, Piece.texts, List.all_cons, List.all_append,
        List.all_nil, hbracket, all_isLegal_attributesText, Bool.true_and, Bool.and_true]
      rfl
  | stop name =>
      simp only [Piece.body_stop, Piece.texts, List.all_cons, List.all_append, List.all_nil,
        hbracket, Bool.true_and, Bool.and_true]
      rfl

/-- A document by `lines` is as legal as the texts of its pieces. -/
theorem all_isLegal_lines (nesting : List String) (ps : List Piece) :
    (lines nesting ps).all isLegal = (ps.flatMap Piece.texts).all isLegalText := by
  have hspace : isLegal ' ' = true ∧ isLegal '\n' = true := by decide
  induction ps generalizing nesting with
  | nil => rfl
  | cons p ps ih =>
      simp only [lines, List.all_append, List.all_cons, List.all_replicate, hspace,
        all_isLegal_body, ih, Bool.true_and, List.flatMap_cons]
      simp

/-- Every end of a line in `attributesText` is in a value. -/
theorem lineEnds_attributesText {as : List (String × String)} (h : ∀ a ∈ as, IsName a.1)
    (rest : List Char) :
    lineEnds false (attributesText as ++ rest)
      = attributesText (unified as) ++ lineEnds false rest := by
  induction as with
  | nil => rfl
  | cons a as ih =>
      obtain ⟨hn, has⟩ := List.forall_mem_cons.mp h
      have hname : (' ' :: (a.1.toList ++ ['=', '"'])).all isInline = true := by
        rw [List.all_cons, List.all_append, all_isInline_of_isName hn]
        decide
      have htext : attributesText (a :: as) ++ rest = (' ' :: (a.1.toList ++ ['=', '"']))
          ++ (escape a.2.toList ++ '"' :: (attributesText as ++ rest)) := by
        simp [attributesText_cons]
      rw [htext, lineEnds_append hname (List.cons_ne_nil _ _),
        lineEnds_append_cons (by decide), lineEnds_escape, ih has]
      simp [unified, attributesText_cons]

/-- Every end of a line in a tag is in a value. -/
theorem lineEnds_tag {name : String} {as : List (String × String)} (hn : IsName name)
    (ha : ∀ a ∈ as, IsName a.1) {close : List Char} (hc : close.all isInline = true)
    (hne : close ≠ []) (rest : List Char) :
    lineEnds false ('<' :: (name.toList ++ attributesText as ++ close) ++ '\n' :: rest)
      = '<' :: (name.toList ++ attributesText (unified as) ++ close)
        ++ '\n' :: lineEnds false rest := by
  have hname : ('<' :: name.toList).all isInline = true := by
    rw [List.all_cons, all_isInline_of_isName hn]
    decide
  have htext : ∀ (text : List Char) (last : List Char),
      '<' :: (name.toList ++ text ++ close) ++ '\n' :: last
        = '<' :: name.toList ++ (text ++ (close ++ '\n' :: last)) := by simp
  rw [htext, lineEnds_append hname (List.cons_ne_nil _ _), lineEnds_attributesText ha,
    lineEnds_append hc hne, htext]
  rfl

/-- Every end of a line in the `body` of a piece is in a value. -/
theorem lineEnds_body {nesting : List String} {p : Piece} (h : p.Fits nesting) (rest : List Char) :
    lineEnds false (p.body ++ '\n' :: rest) = p.unify.body ++ '\n' :: lineEnds false rest := by
  cases p with
  | declaration =>
      have hbody : Piece.declaration.body.all isInline = true := by decide +kernel
      exact lineEnds_append hbody (List.cons_ne_nil _ _) false ('\n' :: rest)
  | start name as => exact lineEnds_tag h.1 h.2 (by decide) (List.cons_ne_nil _ _) rest
  | empty name as => exact lineEnds_tag h.1 h.2 (by decide) (List.cons_ne_nil _ _) rest
  | stop name =>
      have hbody : (Piece.stop name).body.all isInline = true := by
        simp only [Piece.body_stop, List.all_cons, List.all_append, all_isInline_of_isName h.1]
        decide
      exact lineEnds_append hbody (List.cons_ne_nil _ _) false ('\n' :: rest)

/-- **Every end of a line in a document is in a value, or ends the line of a piece**, so `lineEnds`
makes of the pieces what `unify` does. -/
theorem lineEnds_lines {nesting : List String} {ps : List Piece} (h : Fit nesting ps) :
    lineEnds false (lines nesting ps) = lines nesting (ps.map Piece.unify) := by
  induction ps generalizing nesting with
  | nil => rfl
  | cons p ps ih =>
      obtain ⟨hp, hps⟩ := h
      have hindent : ∀ text, lineEnds false (List.replicate (p.depth nesting) ' ' ++ text)
          = List.replicate (p.depth nesting) ' ' ++ lineEnds false text := by
        intro text
        cases hd : p.depth nesting with
        | zero => rfl
        | succ n =>
            have hspaces : (List.replicate (n + 1) ' ').all isInline = true := by
              simp [isInline]
            exact lineEnds_append hspaces (List.cons_ne_nil _ _) false text
      rw [lines, List.append_assoc, hindent, lineEnds_body hp, ih hps, List.map_cons, lines,
        Piece.depth_unify, Piece.after_unify, List.append_assoc]

theorem fit_unify {nesting : List String} {ps : List Piece} (h : Fit nesting ps) :
    Fit nesting (ps.map Piece.unify) := by
  induction ps generalizing nesting with
  | nil => trivial
  | cons p ps ih =>
      refine ⟨h.1.unify, ?_⟩
      rw [Piece.after_unify]
      exact ih h.2

/-- The attributes of pieces that `Fit` have names that can be read. -/
theorem isName_of_fit {nesting : List String} {ps : List Piece} (h : Fit nesting ps) {p : Piece}
    (hp : p ∈ ps) {t : String × List (String × String)} (ht : t ∈ p.tag?) :
    ∀ a ∈ t.2, IsName a.1 := by
  induction ps generalizing nesting with
  | nil => cases hp
  | cons q ps ih =>
      rcases List.mem_cons.mp hp with rfl | hp
      · cases p with
        | declaration | stop name => cases ht
        | start name as | empty name as =>
            cases ht
            exact h.1.2
      · exact ih h.2 hp

/-! ## Documents -/

/-- The tags of a document are those of its pieces. -/
theorem filterMap_tag? {es : List Event} {ps : List Piece}
    (h : es.filter Event.isMarkup = (ps.map Piece.unify).map Piece.event) :
    es.filterMap Event.tag? = (ps.filterMap Piece.tag?).map fun t =>
      ⟨t.1.toList, attributesText (unified t.2)⟩ := by
  have hmarkup : es.filterMap Event.tag? = (es.filter Event.isMarkup).filterMap Event.tag? := by
    rw [List.filterMap_filter]
    refine List.filterMap_congr fun e _ => ?_
    cases e <;> rfl
  rw [hmarkup, h, List.map_map, List.filterMap_map, List.map_filterMap]
  refine List.filterMap_congr fun p _ => ?_
  cases p <;> rfl

/-- **What is seen of a document** by `tags?`: if there is nothing but legal characters in its
texts, its tags with the attributes as they are seen, and otherwise nothing. -/
theorem tags?_lines {ps : List Piece} (h : Fit [] ps) (hd : ∀ p ∈ ps, p.Distinct) :
    tags? (lines [] ps) = if (ps.flatMap Piece.texts).all isLegalText then
      some ((ps.filterMap Piece.tag?).map fun t => (t.1, seenAttributes t.2)) else none := by
  obtain ⟨es, heq, hfilter, -⟩ := events_lines (fit_unify h)
  rw [tags?, all_isLegal_lines, lineEnds_lines h, heq]
  cases (ps.flatMap Piece.texts).all isLegalText with
  | false => rfl
  | true =>
      have hseen : ∀ t ∈ ps.filterMap Piece.tag?,
          Tag.seen? ⟨t.1.toList, attributesText (unified t.2)⟩
            = some (t.1, seenAttributes t.2) := by
        intro t ht
        obtain ⟨p, hp, htag⟩ := List.mem_filterMap.mp ht
        exact seen?_attributesText (isName_of_fit h hp htag) (hd p hp t htag)
      have hmap := mapM_eq_some_map hseen
      simp only [guard, filterMap_tag? hfilter, List.mapM_map]
      exact hmap

end OpenDocument.Markup
