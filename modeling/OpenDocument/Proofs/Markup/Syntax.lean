import OpenDocument.Proofs.Markup.Tags

/-!
# OpenDocument.Proofs.Markup.Syntax

Documents as they may be written, and what a reader finds in them.  A document is a list of lexemes:
tags with any white space and with quotation marks of either kind, text, comments, instructions,
character data and document types.  Every well-formed XML document is the text of a `WellFormed`
list.  Less is asked here: there may be several elements at the top level, names and texts may have
more characters, and references only have to be closed.

The main result is `events_written`: a document is read as its lexemes, with text in between.
-/

namespace OpenDocument.Markup

/-! ## Contents with an end -/

/-- A content that ends at the first occurrence of a pattern behind it: the pattern is not in it,
and does not begin in it. -/
def EndedBy (pattern content : List Char) : Prop :=
  ¬ pattern <:+: content ++ pattern.dropLast

instance (pattern content : List Char) : Decidable (EndedBy pattern content) :=
  inferInstanceAs (Decidable (¬ _))

/-- `after?` finds the text behind the pattern, whatever it is. -/
theorem after?_endedBy {pattern content : List Char} (h : EndedBy pattern content)
    (hne : pattern ≠ []) (rest : List Char) :
    after? pattern (content ++ (pattern ++ rest)) = some rest := by
  induction content with
  | nil =>
      obtain ⟨p, ps, rfl⟩ := List.exists_cons_of_ne_nil hne
      have hprefix : (p :: ps).isPrefixOf (p :: (ps ++ rest)) = true :=
        List.isPrefixOf_iff_prefix.mpr (List.prefix_append (p :: ps) rest)
      rw [List.nil_append, List.cons_append, after?, if_pos hprefix]
      simp
  | cons c content ih =>
      have htail : EndedBy pattern content := fun hin =>
        h (hin.trans (List.infix_cons (List.infix_refl _)))
      have hprefix : ¬ pattern.isPrefixOf (c :: (content ++ (pattern ++ rest))) = true := by
        rw [List.isPrefixOf_iff_prefix]
        intro hpre
        -- all of the pattern would stand in front of the last character of its occurrence
        have hfront : c :: content ++ pattern.dropLast <+: c :: (content ++ (pattern ++ rest)) := by
          rw [← List.cons_append, List.prefix_append_right_inj]
          exact pattern.dropLast_prefix.trans (List.prefix_append _ _)
        refine h (List.prefix_of_prefix_length_le hpre hfront ?_).isInfix
        have := List.length_pos_iff.mpr hne
        simp only [List.cons_append, List.length_cons, List.length_append, List.length_dropLast]
        omega
      rw [List.cons_append, after?, if_neg hprefix, ih htail]

/-! ## Tags -/

/-- A start tag or empty tag as it may be written. -/
structure WrittenTag where
  name : String
  attributes : List WrittenAttribute := []
  /-- The white space in front of the end of the tag. -/
  gap : List Char := []
  deriving DecidableEq, Repr

namespace WrittenTag

/-- The inside of a tag behind its name. -/
def inside (t : WrittenTag) : List Char :=
  t.attributes.flatMap WrittenAttribute.text ++ t.gap

/-- The `Tag` that is read: its name, and its inside as it was written. -/
def tag (t : WrittenTag) : Tag :=
  ⟨t.name.toList, t.inside⟩

/-- What the attributes of a tag state; compare `WrittenAttribute.stated`. -/
def stated (t : WrittenTag) : List (String × String) :=
  t.attributes.map WrittenAttribute.stated

/-- The names of the attributes of a tag. -/
def names (t : WrittenTag) : List String :=
  t.attributes.map WrittenAttribute.name

/-- A tag that keeps to the grammar. -/
structure WellFormed (t : WrittenTag) : Prop where
  name : IsName t.name
  attributes : ∀ a ∈ t.attributes, a.WellFormed
  gap : t.gap.all isSpace = true

theorem wellFormed_iff (t : WrittenTag) :
    (IsName t.name ∧ (∀ a ∈ t.attributes, a.WellFormed) ∧ t.gap.all isSpace = true)
      ↔ t.WellFormed :=
  ⟨fun ⟨h₁, h₂, h₃⟩ => ⟨h₁, h₂, h₃⟩, fun h => ⟨h.name, h.attributes, h.gap⟩⟩

instance (t : WrittenTag) : Decidable t.WellFormed :=
  decidable_of_iff _ (wellFormed_iff t)

namespace WellFormed

variable {t : WrittenTag}

/-- The attributes that `attributes?` reads are what the written ones state, if no name occurs
twice. -/
theorem attributes?_tag (h : t.WellFormed) (hd : t.names.Nodup) :
    t.tag.attributes? = some t.stated :=
  attributes?_written rfl h.attributes h.gap hd

theorem guarded (h : t.WellFormed) : Guarded (· != '>') (t.name.toList ++ t.inside) :=
  (Guarded.of_isName h.name).append
    ((Guarded.flatMap fun a ha => (h.attributes a ha).guarded).append
      (.of_isSpace h.gap (by decide)))

/-- Behind the name there is white space, or nothing. -/
theorem inside_eq (h : t.WellFormed) :
    t.inside = [] ∨ ∃ c cs, t.inside = c :: cs ∧ isSpace c = true := by
  obtain ⟨name, as, gap⟩ := t
  cases as with
  | nil =>
      cases gap with
      | nil => exact .inl rfl
      | cons c cs => exact .inr ⟨c, cs, rfl, List.all_eq_true.mp h.gap c (List.mem_cons_self ..)⟩
  | cons a as =>
      have ha := h.attributes a (List.mem_cons_self ..)
      obtain ⟨c, cs, hcons⟩ := List.exists_cons_of_ne_nil ha.gap_ne
      have hspace := List.all_eq_true.mp ha.gap c (hcons ▸ List.mem_cons_self ..)
      exact .inr ⟨c, _, by simp only [inside, List.flatMap_cons, WrittenAttribute.text, hcons,
        List.cons_append]; rfl, hspace⟩

/-- `Tag.ofInside` splits a tag behind its name. -/
theorem ofInside_eq (h : t.WellFormed) : Tag.ofInside (t.name.toList ++ t.inside) = t.tag := by
  have hname : ∀ c ∈ t.name.toList, (!isSpace c) = true := by
    intro c hc
    rw [(isNameChar_iff.mp (List.all_eq_true.mp h.name.chars c hc)).1]
    rfl
  rw [Tag.ofInside, tag]
  rcases h.inside_eq with hnil | ⟨c, cs, hcons, hspace⟩
  · rw [hnil, List.takeWhile_append_of_pos hname, List.dropWhile_append_of_pos hname]
    simp
  · have hstop : (!isSpace c) = false := by rw [hspace]; rfl
    have hspan := span_append (p := fun c => !isSpace c) hname hstop cs
    rw [hcons, hspan.1, hspan.2]

/-- No start tag looks like an empty one: its last character is not `'/'`. -/
theorem getLast?_ne (h : t.WellFormed) : (t.name.toList ++ t.inside).getLast? ≠ some '/' := by
  intro hlast
  rw [inside, List.getLast?_append, List.getLast?_append] at hlast
  cases hgap : t.gap.getLast? with
  | some c =>
      rw [hgap, Option.some_or, Option.some_or] at hlast
      cases hlast
      exact absurd (List.all_eq_true.mp h.gap _ (List.mem_of_getLast? hgap)) (by decide)
  | none =>
      rw [hgap, Option.none_or] at hlast
      rcases List.eq_nil_or_concat t.attributes with hnil | ⟨init, a, hconcat⟩
      · rw [hnil, List.flatMap_nil, List.getLast?_nil, Option.none_or] at hlast
        have hname := List.all_eq_true.mp h.name.chars _ (List.mem_of_getLast? hlast)
        exact absurd hname (by decide)
      · have hquote : (t.attributes.flatMap WrittenAttribute.text).getLast? = some a.quote := by
          have htext : t.attributes.flatMap WrittenAttribute.text
              = init.flatMap WrittenAttribute.text ++ (a.gap ++ (a.name.toList ++ (a.before
                ++ '=' :: (a.behind ++ a.quote :: a.value)))) ++ [a.quote] := by
            simp [hconcat, WrittenAttribute.text]
          rw [htext, List.getLast?_concat]
        rw [hquote, Option.some_or] at hlast
        have ha : a ∈ t.attributes := by simp [hconcat]
        have := (h.attributes a ha).quote
        rw [Option.some.inj hlast] at this
        exact absurd this (by decide)

end WellFormed

end WrittenTag

/-! ## Document types -/

/-- A piece of the internal subset of a `DocumentType`. -/
inductive Declaration where
  /-- White space, and references to entities of parameters. -/
  | gap (content : List Char)
  | comment (content : List Char)
  | instruction (content : List Char)
  /-- A declaration whose values are in quotation marks. -/
  | quoted (word content : List Char)
  | element (content : List Char)
  deriving DecidableEq, Repr

namespace Declaration

/-- The text of a piece. -/
def written : Declaration → List Char
  | gap content => content
  | comment content => '<' :: '!' :: '-' :: '-' :: (content ++ ['-', '-', '>'])
  | instruction content => '<' :: '?' :: (content ++ ['?', '>'])
  | quoted word content => '<' :: (word ++ content ++ ['>'])
  | element content => '<' :: ("!ELEMENT".toList ++ content ++ ['>'])

/-- A piece that keeps to the grammar. -/
def WellFormed : Declaration → Prop
  | gap content => ']' ∉ content ∧ '<' ∉ content
  | comment content => EndedBy ['-', '-', '>'] content
  | instruction content => EndedBy ['?', '>'] content
  | quoted word content => word ∈ quotedDeclarations ∧ Guarded (· != '>') content
  | element content => '>' ∉ content

end Declaration

/-- A document type: its name, what is said of an external subset, and the internal subset with the
white space behind it. -/
structure DocumentType where
  gap : List Char := [' ']
  name : String
  external : List Char := []
  subset? : Option (List Declaration × List Char) := none
  deriving DecidableEq, Repr

namespace DocumentType

/-- The text behind the keyword. -/
def written (t : DocumentType) : List Char :=
  t.gap ++ (t.name.toList ++ t.external) ++ (match t.subset? with
    | none => []
    | some (ds, gap) => '[' :: (ds.flatMap Declaration.written ++ ']' :: gap))

/-- A document type that keeps to the grammar. -/
structure WellFormed (t : DocumentType) : Prop where
  gap : t.gap.all isSpace = true
  name : IsName t.name
  bracket : '[' ∉ t.name.toList
  external : Guarded (fun c => c != '>' && c != '[') t.external
  subset : ∀ s ∈ t.subset?, (∀ d ∈ s.1, d.WellFormed) ∧ s.2.all isSpace = true

end DocumentType

/-- `afterDeclaration?` passes over a piece of an internal subset that is more than a gap. -/
theorem afterDeclaration?_written {d : Declaration} (h : d.WellFormed) {cs : List Char}
    (hd : d.written = '<' :: cs) (rest : List Char) :
    afterDeclaration? (cs ++ rest) = some rest := by
  cases d with
  | gap content =>
      cases hd
      exact absurd (List.mem_cons_self ..) h.2
  | comment content =>
      cases hd
      have hafter := after?_endedBy h (by decide) rest
      simpa [afterDeclaration?] using hafter
  | instruction content =>
      cases hd
      have hafter := after?_endedBy h (by decide) rest
      simpa [afterDeclaration?] using hafter
  | quoted word content =>
      cases hd
      obtain ⟨hword, hcontent⟩ := h
      have hguarded : ∀ word ∈ quotedDeclarations, Guarded (· != '>') word := by
        have table : ∀ word ∈ quotedDeclarations, ∀ c ∈ word,
            (c != '>') = true ∧ isQuote c = false := by simp [quotedDeclarations, isQuote]
        exact fun word hword => .of_forall (table word hword)
      have hsplit := splitTag_inside ((hguarded word hword).append hcontent) rest
      simp only [quotedDeclarations, List.mem_cons, List.not_mem_nil, or_false] at hword
      rcases hword with rfl | rfl | rfl <;> simp at hsplit <;>
        simp [afterDeclaration?, quotedDeclarations, hsplit]
  | element content =>
      cases hd
      have hcontent : '>' ∉ content := h
      have hended : EndedBy ['>'] ("!ELEMENT".toList ++ content) := by
        intro hin
        have hmem := hin.subset (List.mem_singleton_self '>')
        simp [hcontent] at hmem
      have hafter := after?_endedBy hended (by decide) rest
      simp at hafter
      simp [afterDeclaration?, quotedDeclarations, hafter]

/-- `afterSubset?` passes over what stands between the pieces of an internal subset. -/
theorem afterSubset?_append {content : List Char} (h : ']' ∉ content ∧ '<' ∉ content)
    (rest : List Char) : afterSubset? (content ++ rest) = afterSubset? rest := by
  induction content with
  | nil => rfl
  | cons c content ih =>
      simp only [List.mem_cons, not_or] at h
      rw [List.cons_append, afterSubset?, if_neg (Ne.symm h.1.1), if_neg (Ne.symm h.2.1),
        ih ⟨h.1.2, h.2.2⟩]

/-- An internal subset ends at the bracket behind its pieces, where `afterSubset?` goes on. -/
theorem afterSubset?_written {ds : List Declaration} (h : ∀ d ∈ ds, d.WellFormed)
    {gap : List Char} (hg : gap.all isSpace = true) (rest : List Char) :
    afterSubset? (ds.flatMap Declaration.written ++ ']' :: (gap ++ '>' :: rest)) = some rest := by
  induction ds with
  | nil =>
      have hended : EndedBy ['>'] gap := by
        intro hin
        have hmem := hin.subset (List.mem_singleton_self '>')
        simp only [List.dropLast_singleton, List.append_nil] at hmem
        exact absurd (List.all_eq_true.mp hg _ hmem) (by decide)
      rw [List.flatMap_nil, List.nil_append, afterSubset?, if_pos rfl]
      exact after?_endedBy hended (by decide) rest
  | cons d ds ih =>
      obtain ⟨hd, hds⟩ := List.forall_mem_cons.mp h
      have hrest := ih hds
      rw [List.flatMap_cons, List.append_assoc]
      generalize ds.flatMap Declaration.written ++ ']' :: (gap ++ '>' :: rest) = tail at hrest ⊢
      have hread : ∀ {cs}, d.written = '<' :: cs →
          afterSubset? (d.written ++ tail) = some rest := by
        intro cs hcs
        have hafter := afterDeclaration?_written hd hcs tail
        rw [hcs, List.cons_append, afterSubset?, if_neg (by decide), if_pos rfl]
        split
        · next hsome =>
            rw [hafter] at hsome
            cases hsome
            exact hrest
        · next hnone =>
            rw [hafter] at hnone
            cases hnone
      cases d with
      | gap content => exact (afterSubset?_append hd tail).trans hrest
      | comment | instruction | quoted | element => exact hread rfl

theorem afterDocumentType?_quoted {q : Char} {value : List Char} (h : q ∉ value)
    (rest : List Char) :
    afterDocumentType? (some q) (value ++ q :: rest) = afterDocumentType? none rest := by
  induction value with
  | nil => simp [afterDocumentType?]
  | cons c value ih =>
      simp only [List.mem_cons, not_or] at h
      rw [List.cons_append, afterDocumentType?, if_neg (Ne.symm h.1), ih h.2]

/-- No document type ends inside of a `Guarded` text. -/
theorem afterDocumentType?_guarded {cs : List Char}
    (h : Guarded (fun c => c != '>' && c != '[') cs) (rest : List Char) :
    afterDocumentType? none (cs ++ rest) = afterDocumentType? none rest := by
  induction h with
  | nil => rfl
  | plain hc hq _ ih =>
      simp only [Bool.and_eq_true, bne_iff_ne] at hc
      rw [List.cons_append, afterDocumentType?, if_neg hc.1, if_neg hc.2, hq]
      exact ih
  | @quoted q value cs hq hv _ ih =>
      have hne : q ≠ '>' ∧ q ≠ '[' := by
        constructor <;> (rintro rfl; cases hq)
      rw [List.cons_append, List.append_assoc, List.cons_append, afterDocumentType?, if_neg hne.1,
        if_neg hne.2, if_pos hq, afterDocumentType?_quoted hv, ih]

/-- A document type ends at the `>` behind it, where `afterDocumentType?` goes on. -/
theorem afterDocumentType?_written {t : DocumentType} (h : t.WellFormed) (rest : List Char) :
    afterDocumentType? none (t.written ++ '>' :: rest) = some rest := by
  have hname : Guarded (fun c => c != '>' && c != '[') t.name.toList := by
    refine .of_forall fun c hc => ?_
    obtain ⟨-, hq, -, -, hgt, -⟩ := isNameChar_iff.mp (List.all_eq_true.mp h.name.chars c hc)
    have hbracket : c ≠ '[' := fun heq => h.bracket (heq ▸ hc)
    simp [hq, hgt, hbracket]
  have hguarded := (Guarded.of_isSpace h.gap (by decide)).append (hname.append h.external)
  rw [DocumentType.written, List.append_assoc, afterDocumentType?_guarded hguarded]
  cases hs : t.subset? with
  | none => rfl
  | some s =>
      obtain ⟨ds, gap⟩ := s
      obtain ⟨hds, hgap⟩ := h.subset _ hs
      rw [List.cons_append, List.append_assoc, List.cons_append, afterDocumentType?,
        if_neg (by decide), if_pos rfl]
      exact afterSubset?_written hds hgap rest

/-! ## Lexemes -/

/-- One construct of a document as it may be written; what is read of it is `event?`. -/
inductive Lexeme where
  /-- Characters outside of all others. -/
  | text (content : List Char)
  | start (tag : WrittenTag)
  | empty (tag : WrittenTag)
  /-- An end tag, with white space behind the name. -/
  | stop (name : String) (gap : List Char)
  | comment (content : List Char)
  /-- A processing instruction, or the declaration of the document. -/
  | instruction (content : List Char)
  | characterData (content : List Char)
  | documentType (type : DocumentType)
  deriving DecidableEq, Repr

namespace Lexeme

/-- The text of a lexeme. -/
def written : Lexeme → List Char
  | text content => content
  | start t => '<' :: (t.name.toList ++ t.inside ++ ['>'])
  | empty t => '<' :: (t.name.toList ++ t.inside ++ ['/', '>'])
  | stop name gap => '<' :: '/' :: (name.toList ++ gap ++ ['>'])
  | comment content => '<' :: '!' :: '-' :: '-' :: (content ++ ['-', '-', '>'])
  | instruction content => '<' :: '?' :: (content ++ ['?', '>'])
  | characterData content => '<' :: '!' :: ("[CDATA[".toList ++ (content ++ [']', ']', '>']))
  | documentType t => '<' :: '!' :: ("DOCTYPE".toList ++ (t.written ++ ['>']))

/-- A lexeme that keeps to the grammar. -/
def WellFormed : Lexeme → Prop
  | text content => '<' ∉ content ∧ referencesClosed false content = true
  | start t | empty t => t.WellFormed
  | stop name gap => IsName name ∧ gap.all isSpace = true
  | comment content => EndedBy ['-', '-', '>'] content
  | instruction content => content.head? ≠ some '>' ∧ EndedBy ['?', '>'] content
  | characterData content => EndedBy [']', ']', '>'] content
  | documentType t => t.WellFormed

/-- The tag of a lexeme that begins an element: `start` or `empty`. -/
def tag? : Lexeme → Option WrittenTag
  | start t | empty t => some t
  | _ => none

/-- What is read of a lexeme, but for `text`. -/
def event? : Lexeme → Option Event
  | text _ => none
  | start t => some (.start t.tag)
  | empty t => some (.empty t.tag)
  | stop name _ => some (.stop name.toList)
  | comment _ => some .comment
  | instruction _ => some .instruction
  | characterData _ => some .characterData
  | documentType _ => some .documentType

/-- The elements that are open behind a lexeme, innermost first; an end tag must name the innermost
one, or there is no such list. -/
def nest (nesting : List String) : Lexeme → Option (List String)
  | start t => some (t.name :: nesting)
  | stop name _ => if nesting.head? = some name then some nesting.tail else none
  | _ => some nesting

section

variable (content : List Char) (nesting : List String)

@[simp] theorem written_text : (text content).written = content := rfl

@[simp] theorem event?_text : (text content).event? = none := rfl

@[simp] theorem nest_text : (text content).nest nesting = some nesting := rfl

end

/-- What is open around has no part in `nest`. -/
theorem nest_append {nesting inner : List String} {l : Lexeme} (h : l.nest nesting = some inner)
    (outer : List String) : l.nest (nesting ++ outer) = some (inner ++ outer) := by
  cases l with
  | stop name gap =>
      rw [nest] at h
      split at h
      · next hhead =>
          cases h
          cases nesting with
          | nil => cases hhead
          | cons n nesting => exact if_pos hhead
      · cases h
  | text | start | empty | comment | instruction | characterData | documentType =>
      cases h
      rfl

theorem foldlM_nest_append {nesting inner : List String} {ls : List Lexeme}
    (h : ls.foldlM nest nesting = some inner) (outer : List String) :
    ls.foldlM nest (nesting ++ outer) = some (inner ++ outer) := by
  induction ls generalizing nesting with
  | nil =>
      cases h
      rfl
  | cons l ls ih =>
      rw [List.foldlM_cons, Option.bind_eq_bind, Option.bind_eq_some_iff] at h
      obtain ⟨between, hl, h⟩ := h
      rw [List.foldlM_cons, nest_append hl]
      exact ih h

end Lexeme

/-! ## One lexeme -/

/-- `readMarkup` reads as a tag what begins like a name. -/
theorem readMarkup_of_isNameChar {c : Char} (h : isNameChar c = true) (nesting : List (List Char))
    (cs : List Char) : readMarkup nesting (c :: cs) =
      match splitTag none [] (c :: cs) with
      | .error q => .error (unclosedTag q)
      | .ok (inside, r) =>
        if inside.getLast? = some '/' then .ok (.empty (Tag.ofInside inside.dropLast), nesting, r)
        else .ok (.start (Tag.ofInside inside), (Tag.ofInside inside).name :: nesting, r) := by
  obtain ⟨-, -, -, -, -, hslash, hquestion, hbang, -⟩ := isNameChar_iff.mp h
  unfold readMarkup
  split
  · next heq => cases heq
  · next heq => cases heq; exact absurd rfl hquestion
  · next heq => cases heq; exact absurd rfl hquestion
  · next heq => cases heq; exact absurd rfl hbang
  · next heq => cases heq; exact absurd rfl hslash
  · rfl

/-- `readMarkup` reads a tag up to its end. -/
theorem readMarkup_tag {t : WrittenTag} (h : t.WellFormed) {slash : List Char}
    (hs : Guarded (· != '>') slash) (nesting : List (List Char)) (rest : List Char) :
    readMarkup nesting (t.name.toList ++ t.inside ++ slash ++ '>' :: rest) =
      let inside := t.name.toList ++ t.inside ++ slash
      if inside.getLast? = some '/' then .ok (.empty (Tag.ofInside inside.dropLast), nesting, rest)
      else .ok (.start (Tag.ofInside inside), (Tag.ofInside inside).name :: nesting, rest) := by
  have hsplit := splitTag_inside (h.guarded.append hs) rest
  obtain ⟨c, cs, hcons⟩ :=
    List.exists_cons_of_ne_nil (show t.name.toList ≠ [] by simpa using h.name.nonempty)
  have hc := List.all_eq_true.mp h.name.chars c (hcons ▸ List.mem_cons_self ..)
  simp only [hcons, List.cons_append] at hsplit ⊢
  rw [readMarkup_of_isNameChar hc, hsplit]

section

variable (nesting : List (List Char)) (rest : List Char)

theorem readMarkup_start {t : WrittenTag} (h : t.WellFormed) :
    readMarkup nesting (t.name.toList ++ t.inside ++ ['>'] ++ rest)
      = .ok (.start t.tag, t.name.toList :: nesting, rest) := by
  have hread := readMarkup_tag h .nil nesting rest
  simp only [List.append_nil, if_neg h.getLast?_ne, h.ofInside_eq] at hread
  rw [List.append_assoc _ ['>']]
  exact hread

theorem readMarkup_empty {t : WrittenTag} (h : t.WellFormed) :
    readMarkup nesting (t.name.toList ++ t.inside ++ ['/', '>'] ++ rest)
      = .ok (.empty t.tag, nesting, rest) := by
  have hslash : Guarded (· != '>') ['/'] := .plain (by decide) (by decide) .nil
  have hread := readMarkup_tag h hslash nesting rest
  simp only [List.getLast?_concat, if_true, List.dropLast_concat, h.ofInside_eq] at hread
  rw [← hread]
  simp

/-- By `endName`, an end tag names what stands in front of the white space in it. -/
theorem endName_append {name : String} (hn : IsName name) {gap : List Char}
    (hg : gap.all isSpace = true) : endName (name.toList ++ gap) = name.toList := by
  have hspace : ∀ c ∈ name.toList, isSpace c = false := fun c hc =>
    (isNameChar_iff.mp (List.all_eq_true.mp hn.chars c hc)).1
  obtain ⟨init, c, hconcat⟩ : ∃ init c, name.toList = init ++ [c] := by
    rcases List.eq_nil_or_concat name.toList with hnil | ⟨init, c, hconcat⟩
    · exact absurd hnil (by simpa using hn.nonempty)
    · exact ⟨init, c, by simpa using hconcat⟩
  have hc := hspace c (by simp [hconcat])
  have hall : (name.toList ++ gap).all isSpace = false := by
    rw [List.all_eq_false]
    exact ⟨c, by simp [hconcat], by simp [hc]⟩
  have hdrop : (name.toList ++ gap).reverse.dropWhile isSpace = c :: init.reverse := by
    rw [List.reverse_append, hconcat, List.reverse_append]
    exact dropWhile_isSpace_append (by simpa using hg) hc _
  rw [endName, hall, if_neg Bool.false_ne_true, hdrop, hconcat]
  simp

theorem readMarkup_stop {name : String} (hn : IsName name) {gap : List Char}
    (hg : gap.all isSpace = true) :
    readMarkup (name.toList :: nesting) ('/' :: (name.toList ++ gap ++ ['>']) ++ rest)
      = .ok (.stop name.toList, nesting, rest) := by
  have hsplit := splitTag_inside
    ((Guarded.of_isName hn).append (Guarded.of_isSpace hg (by decide))) rest
  rw [List.cons_append, List.append_assoc _ ['>'], List.singleton_append, readMarkup, hsplit]
  simp only [endName_append hn hg, if_true]

theorem readMarkup_comment {content : List Char} (h : EndedBy ['-', '-', '>'] content) :
    readMarkup nesting ('!' :: '-' :: '-' :: (content ++ ['-', '-', '>']) ++ rest)
      = .ok (.comment, nesting, rest) := by
  have hafter := after?_endedBy h (by decide) rest
  simp at hafter
  simp [readMarkup, readDeclaration, hafter, bind, Except.bind, pure, Except.pure]

theorem readMarkup_characterData {content : List Char} (h : EndedBy [']', ']', '>'] content) :
    readMarkup nesting ('!' :: ("[CDATA[".toList ++ (content ++ [']', ']', '>'])) ++ rest)
      = .ok (.characterData, nesting, rest) := by
  have hafter := after?_endedBy h (by decide) rest
  simp at hafter
  simp [readMarkup, readDeclaration, hafter, bind, Except.bind, pure, Except.pure]

theorem readMarkup_instruction {content : List Char} (hhead : content.head? ≠ some '>')
    (h : EndedBy ['?', '>'] content) :
    readMarkup nesting ('?' :: (content ++ ['?', '>']) ++ rest)
      = .ok (.instruction, nesting, rest) := by
  have hafter := after?_endedBy h (by decide) rest
  cases content with
  | nil => rfl
  | cons c content =>
      have hc : c ≠ '>' := by simpa using hhead
      rw [List.cons_append] at hafter
      rw [List.cons_append, List.append_assoc, List.cons_append]
      unfold readMarkup
      split
      · next heq => cases heq
      · next heq => cases heq; exact absurd rfl hc
      · next heq =>
          cases heq
          rw [hafter]
      · next heq => cases heq
      · next heq => cases heq
      · next hquestion _ _ => exact absurd rfl (hquestion _)

theorem readMarkup_documentType {t : DocumentType} (h : t.WellFormed) :
    readMarkup nesting ('!' :: ("DOCTYPE".toList ++ (t.written ++ ['>'])) ++ rest)
      = .ok (.documentType, nesting, rest) := by
  have hafter := afterDocumentType?_written h rest
  -- the name stands in front of the end
  have hhead : ((t.written ++ '>' :: rest).dropWhile isSpace).head? ≠ some '>' := by
    obtain ⟨c, cs, hcons⟩ :=
      List.exists_cons_of_ne_nil (show t.name.toList ≠ [] by simpa using h.name.nonempty)
    obtain ⟨hspace, -, -, -, hgt, -⟩ :=
      isNameChar_iff.mp (List.all_eq_true.mp h.name.chars c (hcons ▸ List.mem_cons_self ..))
    rw [DocumentType.written, hcons, List.append_assoc, List.append_assoc, List.cons_append,
      List.cons_append, dropWhile_isSpace_append h.gap hspace]
    simpa using hgt
  simp [readMarkup, readDeclaration, hafter, hhead, bind, Except.bind, pure, Except.pure]

end

/-- **A lexeme that is more than text is read back** by `readEvent`, whatever follows it. -/
theorem readEvent_written {nesting outer : List String} {l : Lexeme} (h : l.WellFormed)
    (hn : l.nest nesting = some outer) {e : Event} (he : l.event? = some e) (rest : List Char) :
    ∃ cs, l.written = '<' :: cs ∧ readEvent (nesting.map String.toList) '<' (cs ++ rest)
      = .ok (e, outer.map String.toList, rest) := by
  cases l with
  | text content => cases he
  | start t =>
      cases hn; cases he
      exact ⟨_, rfl, readMarkup_start _ rest h⟩
  | empty t =>
      cases hn; cases he
      exact ⟨_, rfl, readMarkup_empty _ rest h⟩
  | stop name gap =>
      cases he
      rw [Lexeme.nest] at hn
      split at hn
      · next hhead =>
          obtain ⟨inner, rfl⟩ : ∃ inner, nesting = name :: inner := by
            cases nesting with
            | nil => cases hhead
            | cons n inner => cases hhead; exact ⟨inner, rfl⟩
          cases hn
          exact ⟨_, rfl, readMarkup_stop _ rest h.1 h.2⟩
      · cases hn
  | comment content =>
      cases hn; cases he
      exact ⟨_, rfl, readMarkup_comment _ rest h⟩
  | instruction content =>
      cases hn; cases he
      exact ⟨_, rfl, readMarkup_instruction _ rest h.1 h.2⟩
  | characterData content =>
      cases hn; cases he
      exact ⟨_, rfl, readMarkup_characterData _ rest h⟩
  | documentType t =>
      cases hn; cases he
      exact ⟨_, rfl, readMarkup_documentType _ rest h⟩

/-! ## Text -/

/-- Whether an event is more than characters outside of markup. -/
def Event.isMarkup : Event → Bool
  | .text _ => false
  | _ => true

theorem Lexeme.isMarkup_of_event? {l : Lexeme} {e : Event} (h : l.event? = some e) :
    e.isMarkup = true := by
  cases l <;> cases h <;> rfl

theorem eventsWithin_cons {nesting outer : List (List Char)} {c : Char} {cs rest : List Char}
    {e : Event} (h : readEvent nesting c cs = .ok (e, outer, rest)) :
    eventsWithin nesting (c :: cs)
      = (e :: (eventsWithin outer rest).1, (eventsWithin outer rest).2) := by
  rw [eventsWithin]
  split
  · next h' => rw [h] at h'; cases h'
  · next h' => rw [h] at h'; cases h'; rfl

/-- For `splitText`, a text ends in front of the next tag, or at the end of the document. -/
theorem splitText_append_of_not_mem {cs rest : List Char} (h : '<' ∉ cs)
    (hr : ∀ c ∈ rest.head?, c = '<') (seen : List Char) :
    splitText seen (cs ++ rest) = (seen.reverse ++ cs, rest) := by
  induction cs generalizing seen with
  | nil =>
      cases rest with
      | nil => simp [splitText]
      | cons c rest =>
          rw [List.nil_append, splitText, if_pos (hr c rfl), List.append_nil]
  | cons c cs ih =>
      simp only [List.mem_cons, not_or] at h
      rw [List.cons_append, splitText, if_neg (Ne.symm h.1), ih h.2]
      simp

/-- References are closed one by one, so `referencesClosed` goes on behind a text in which they
are. -/
theorem referencesClosed_append {pending : Bool} {cs : List Char}
    (h : referencesClosed pending cs = true) (ds : List Char) :
    referencesClosed pending (cs ++ ds) = referencesClosed false ds := by
  induction cs generalizing pending with
  | nil =>
      cases pending with
      | false => rfl
      | true => cases h
  | cons c cs ih =>
      rw [referencesClosed] at h
      rw [List.cons_append, referencesClosed]
      split
      · next hc =>
          rw [if_pos hc, Bool.and_eq_true] at h
          rw [h.1, ih h.2, Bool.true_and]
      · next hc =>
          rw [if_neg hc] at h
          exact ih h

/-- The events of a text: one, or none if it is empty. -/
def textEvents (content : List Char) : List Event :=
  if content = [] then [] else [.text content]

theorem filter_isMarkup_textEvents (content : List Char) :
    (textEvents content).filter Event.isMarkup = [] := by
  rw [textEvents]
  split <;> rfl

theorem text_mem_textEvents {t content : List Char} (h : .text t ∈ textEvents content) :
    t = content := by
  rw [textEvents] at h
  split at h
  · cases h
  · exact Event.text.inj (List.mem_singleton.mp h)

/-- `eventsWithin` reads a text up to the next tag, or to the end of the document. -/
theorem eventsWithin_text {content rest : List Char} (hlt : '<' ∉ content)
    (href : referencesClosed false content = true) (hr : ∀ c ∈ rest.head?, c = '<')
    (nesting : List (List Char)) :
    eventsWithin nesting (content ++ rest)
      = (textEvents content ++ (eventsWithin nesting rest).1, (eventsWithin nesting rest).2) := by
  cases content with
  | nil => rfl
  | cons c cs =>
      simp only [List.mem_cons, not_or] at hlt
      have hread : readEvent nesting c (cs ++ rest) = .ok (.text (c :: cs), nesting, rest) := by
        rw [readEvent, if_neg (Ne.symm hlt.1), splitText_append_of_not_mem hlt.2 hr]
        simp [href]
      rw [List.cons_append, eventsWithin_cons hread]
      rfl

/-! ## Documents -/

/-- The text of lexemes, one behind the other; compare `Lexeme.written`. -/
def written (ls : List Lexeme) : List Char :=
  ls.flatMap Lexeme.written

/-- A document that keeps to the grammar: every element is closed (`nest`), and no tag names an
attribute twice. -/
structure WellFormed (ls : List Lexeme) : Prop where
  lexemes : ∀ l ∈ ls, l.WellFormed
  nested : ls.foldlM Lexeme.nest [] = some []
  distinct : ∀ l ∈ ls, ∀ t ∈ l.tag?, t.names.Nodup

/-- **Lexemes are read back** by `eventsWithin`, one by one, with the text between them. -/
theorem eventsWithin_written {nesting outer : List String} {ls : List Lexeme}
    (hl : ∀ l ∈ ls, l.WellFormed) (hn : ls.foldlM Lexeme.nest nesting = some outer)
    (front : List Char) (hlt : '<' ∉ front) (href : referencesClosed false front = true) :
    ∃ es, eventsWithin (nesting.map String.toList) (front ++ written ls) = (es, none)
      ∧ es.filter Event.isMarkup = ls.filterMap Lexeme.event?
      ∧ ∀ t, .text t ∈ es → ∀ c ∈ t, c ∈ front ∨ ∃ content, .text content ∈ ls ∧ c ∈ content := by
  induction ls generalizing nesting front with
  | nil =>
      rw [written, List.flatMap_nil, eventsWithin_text hlt href (by simp), eventsWithin]
      refine ⟨_, rfl, ?_, ?_⟩
      · rw [List.append_nil, filter_isMarkup_textEvents]
        rfl
      · intro t ht c hc
        rw [List.append_nil] at ht
        exact .inl (text_mem_textEvents ht ▸ hc)
  | cons l ls ih =>
      obtain ⟨hlex, hls⟩ := List.forall_mem_cons.mp hl
      rw [List.foldlM_cons, Option.bind_eq_bind, Option.bind_eq_some_iff] at hn
      obtain ⟨inner, hinner, hn⟩ := hn
      cases he : l.event? with
      | none =>
          -- text goes to the text in front of it
          obtain ⟨content, rfl⟩ : ∃ content, l = .text content := by
            cases l <;> first | exact ⟨_, rfl⟩ | cases he
          cases hinner
          have hlt' : '<' ∉ front ++ content := by
            simp [hlt, hlex.1]
          have href' : referencesClosed false (front ++ content) = true :=
            (referencesClosed_append href content).trans hlex.2
          obtain ⟨es, heq, hfilter, htext⟩ := ih hls hn _ hlt' href'
          refine ⟨es, ?_, ?_, ?_⟩
          · rw [← heq, List.append_assoc]
            rfl
          · rw [hfilter, List.filterMap_cons, he]
          · intro t ht c hc
            rcases htext t ht c hc with hmem | ⟨s, hs, hmem⟩
            · rcases List.mem_append.mp hmem with hmem | hmem
              · exact .inl hmem
              · exact .inr ⟨content, List.mem_cons_self .., hmem⟩
            · exact .inr ⟨s, List.mem_cons_of_mem _ hs, hmem⟩
      | some e =>
          obtain ⟨cs, hcs, hread⟩ := readEvent_written hlex hinner he (written ls)
          obtain ⟨es, heq, hfilter, htext⟩ := ih hls hn [] (by simp) rfl
          rw [List.nil_append] at heq
          have hwritten : written (l :: ls) = '<' :: (cs ++ written ls) := by
            rw [written, List.flatMap_cons, hcs]
            rfl
          rw [hwritten, eventsWithin_text hlt href (by simp), eventsWithin_cons hread, heq]
          refine ⟨_, rfl, ?_, ?_⟩
          · rw [List.filter_append, filter_isMarkup_textEvents, List.nil_append,
              List.filter_cons_of_pos (Lexeme.isMarkup_of_event? he), hfilter,
              List.filterMap_cons, he]
          · intro t ht c hc
            rcases List.mem_append.mp ht with ht | ht
            · exact .inl (text_mem_textEvents ht ▸ hc)
            · rcases List.mem_cons.mp ht with rfl | ht
              · cases Lexeme.isMarkup_of_event? he
              · rcases htext t ht c hc with hmem | ⟨s, hs, hmem⟩
                · cases hmem
                · exact .inr ⟨s, List.mem_cons_of_mem _ hs, hmem⟩

/-- A mark `'\uFEFF'` in front of lexemes is a character of the first text. -/
theorem exists_written_tail {ls : List Lexeme} (hl : ∀ l ∈ ls, l.WellFormed) {r : List Char}
    (h : written ls = '\uFEFF' :: r) :
    ∃ ls', r = written ls' ∧ (∀ l ∈ ls', l.WellFormed)
      ∧ (∀ nesting, ls'.foldlM Lexeme.nest nesting = ls.foldlM Lexeme.nest nesting)
      ∧ ls'.filterMap Lexeme.event? = ls.filterMap Lexeme.event?
      ∧ ∀ content, .text content ∈ ls' → ∀ c ∈ content,
        ∃ content', .text content' ∈ ls ∧ c ∈ content' := by
  induction ls with
  | nil => cases h
  | cons l ls ih =>
      obtain ⟨hlex, hls⟩ := List.forall_mem_cons.mp hl
      cases l with
      | text content =>
          cases content with
          | nil =>
              obtain ⟨ls', hr, hl', hn, he, ht⟩ := ih hls h
              refine ⟨ls', hr, hl', fun nesting => ?_, ?_, fun content hmem c hc => ?_⟩
              · rw [hn, List.foldlM_cons]
                rfl
              · rw [he]
                rfl
              · obtain ⟨content', hmem', hc'⟩ := ht content hmem c hc
                exact ⟨content', List.mem_cons_of_mem _ hmem', hc'⟩
          | cons c content =>
              obtain ⟨rfl, rfl⟩ := List.cons.inj h
              have hrest : (Lexeme.text content).WellFormed :=
                ⟨fun hmem => hlex.1 (List.mem_cons_of_mem _ hmem), hlex.2⟩
              refine ⟨.text content :: ls, rfl, List.forall_mem_cons.mpr ⟨hrest, hls⟩,
                fun nesting => rfl, rfl, fun content' hmem c hc => ?_⟩
              rcases List.mem_cons.mp hmem with heq | hmem
              · cases heq
                exact ⟨_, List.mem_cons_self .., List.mem_cons_of_mem _ hc⟩
              · exact ⟨content', List.mem_cons_of_mem _ hmem, hc⟩
      | start | empty | stop | comment | instruction | characterData | documentType => cases h

/-- **A document is read as its lexemes** by `events`, without a fault and with nothing but its text
between them; elements may stay open at its end. -/
theorem events_written {ls : List Lexeme} {outer : List String} (hl : ∀ l ∈ ls, l.WellFormed)
    (hn : ls.foldlM Lexeme.nest [] = some outer) :
    ∃ es, events (written ls) = (es, none)
      ∧ es.filter Event.isMarkup = ls.filterMap Lexeme.event?
      ∧ ∀ t, .text t ∈ es → ∀ c ∈ t, ∃ content, .text content ∈ ls ∧ c ∈ content := by
  obtain ⟨ls', hevents, hl', hn', he', ht'⟩ : ∃ ls', events (written ls)
      = eventsWithin ([].map String.toList) ([] ++ written ls') ∧ (∀ l ∈ ls', l.WellFormed)
      ∧ ls'.foldlM Lexeme.nest [] = some outer
      ∧ ls'.filterMap Lexeme.event? = ls.filterMap Lexeme.event?
      ∧ ∀ content, .text content ∈ ls' → ∀ c ∈ content,
        ∃ content', .text content' ∈ ls ∧ c ∈ content' := by
    unfold events
    split
    · next r hr =>
        obtain ⟨ls', rfl, hl', hn', he', ht'⟩ := exists_written_tail hl hr
        exact ⟨ls', rfl, hl', (hn' []).trans hn, he', ht'⟩
    · exact ⟨ls, rfl, hl, hn, rfl, fun content hmem c hc => ⟨content, hmem, hc⟩⟩
  obtain ⟨es, heq, hfilter, htext⟩ := eventsWithin_written hl' hn' [] (by simp) rfl
  refine ⟨es, hevents.trans heq, hfilter.trans he', fun t ht c hc => ?_⟩
  rcases htext t ht c hc with hmem | ⟨content, hmem, hc⟩
  · cases hmem
  · exact ht' content hmem c hc

end OpenDocument.Markup
