import Mathlib.Data.List.Nodup
import OpenDocument.Markup.Event

/-!
# OpenDocument.Proofs.Markup.Tags

Reading what a tag was written from: an escaped value is unescaped to itself, the attributes of a
tag are read back in order, and a tag ends where it was ended, since no quotation mark and no `>`
can get into it through a value.  A `WrittenAttribute` has any white space and either kind of
quotation marks; what a writer writes (`attributesText`) is a case of it.
-/

namespace OpenDocument.Markup

/-! ## Escaped text -/

theorem escape_cons (c : Char) (cs : List Char) : escape (c :: cs) = escapeChar c ++ escape cs :=
  List.flatMap_cons

/-- A character is escaped as its entity, or it is not among the `entities` and stays. -/
theorem escapeChar_cases (c : Char) :
    (∃ entity, (c, entity) ∈ entities ∧ escapeChar c = entity)
      ∨ (∀ e ∈ entities, e.1 ≠ c) ∧ escapeChar c = [c] := by
  rw [escapeChar]
  cases h : entities.find? fun e => e.1 == c with
  | some e =>
      have hc : e.1 = c := by simpa using List.find?_some h
      exact .inl ⟨e.2, by rw [← hc]; exact List.mem_of_find?_eq_some h, rfl⟩
  | none =>
      refine .inr ⟨?_, rfl⟩
      intro e he
      simpa using List.find?_eq_none.mp h e he

/-- `entityAt?` reads every entity as its character, whatever follows it. -/
theorem entityAt?_entity {c : Char} {entity : List Char} (h : (c, entity) ∈ entities)
    (rest : List Char) : entityAt? (entity ++ rest) = some (c, rest) := by
  simp only [entities, List.mem_cons, Prod.mk.injEq, List.not_mem_nil, or_false] at h
  rcases h with ⟨rfl, rfl⟩ | ⟨rfl, rfl⟩ | ⟨rfl, rfl⟩ | ⟨rfl, rfl⟩ | ⟨rfl, rfl⟩ <;> rfl

/-- Only an ampersand begins what `entityAt?` finds. -/
theorem entityAt?_of_ne {c : Char} (h : c ≠ '&') (cs : List Char) : entityAt? (c :: cs) = none := by
  unfold entityAt?
  split <;> simp_all

/-- An escaped front is unescaped by itself, whatever follows it. -/
theorem unescape_escape_append (cs rest : List Char) :
    unescape (escape cs ++ rest) = cs ++ unescape rest := by
  induction cs with
  | nil => rfl
  | cons c cs ih =>
      rw [escape_cons, List.append_assoc]
      rcases escapeChar_cases c with ⟨entity, hmem, he⟩ | ⟨hne, he⟩
      · rw [he, unescape_of_entityAt? (entityAt?_entity hmem _), ih, List.cons_append]
      · have hamp : c ≠ '&' := (hne ('&', _) (List.mem_cons_self ..)).symm
        rw [he, List.singleton_append, unescape_cons (entityAt?_of_ne hamp _), ih, List.cons_append]

/-- **An escaped text is unescaped to the text**: `unescape` is a left inverse of `escape`. -/
theorem unescape_escape (cs : List Char) : unescape (escape cs) = cs := by
  have hall := unescape_escape_append cs []
  rwa [List.append_nil, unescape_nil, List.append_nil] at hall

/-- No special character but the ampersand is in an escaped text. -/
theorem not_mem_escape {c : Char} (h : c = '<' ∨ c = '>' ∨ c = '"' ∨ c = '\'') (cs : List Char) :
    c ∉ escape cs := by
  intro hmem
  obtain ⟨d, -, hd⟩ := List.mem_flatMap.mp hmem
  rcases escapeChar_cases d with ⟨entity, he, heq⟩ | ⟨hne, heq⟩
  · rw [heq] at hd
    simp only [entities, List.mem_cons, Prod.mk.injEq, List.not_mem_nil, or_false] at he
    rcases he with ⟨-, rfl⟩ | ⟨-, rfl⟩ | ⟨-, rfl⟩ | ⟨-, rfl⟩ | ⟨-, rfl⟩ <;>
      rcases h with rfl | rfl | rfl | rfl <;> revert hd <;> decide
  · rw [heq, List.mem_singleton] at hd
    subst hd
    simp only [entities, List.forall_mem_cons] at hne
    rcases h with rfl | rfl | rfl | rfl <;> simp at hne

/-! ## Attributes -/

/-- A character that a name may consist of.  More is allowed here than in a document. -/
def isNameChar (c : Char) : Bool :=
  !(isSpace c || isQuote c || ['=', '<', '>', '/', '?', '!', '&'].contains c)

/-- A name for elements and attributes: `isNameChar` holds for its characters, and it has one. -/
structure IsName (name : String) : Prop where
  nonempty : name ≠ ""
  chars : name.toList.all isNameChar = true

theorem isName_iff (name : String) :
    name ≠ "" ∧ name.toList.all isNameChar = true ↔ IsName name :=
  ⟨fun h => ⟨h.1, h.2⟩, fun h => ⟨h.nonempty, h.chars⟩⟩

instance (name : String) : Decidable (IsName name) :=
  decidable_of_iff _ (isName_iff name)

/-- The text of attributes behind the name of a tag. -/
def attributesText (as : List (String × String)) : List Char :=
  as.flatMap fun a => ' ' :: a.1.toList ++ '=' :: '"' :: escape a.2.toList ++ ['"']

theorem attributesText_cons (a : String × String) (as : List (String × String)) :
    attributesText (a :: as)
      = ' ' :: (a.1.toList ++ '=' :: '"' :: (escape a.2.toList ++ '"' :: attributesText as)) := by
  simp [attributesText]

theorem isNameChar_iff {c : Char} : isNameChar c = true ↔
    isSpace c = false ∧ isQuote c = false
      ∧ c ≠ '=' ∧ c ≠ '<' ∧ c ≠ '>' ∧ c ≠ '/' ∧ c ≠ '?' ∧ c ≠ '!' ∧ c ≠ '&' := by
  simp [isNameChar, and_assoc]

/-- By `takeWhile`, a text goes on to the first character that does not belong to it. -/
theorem span_append {p : Char → Bool} {cs : List Char} (h : ∀ c ∈ cs, p c = true) {c : Char}
    (hc : p c = false) (rest : List Char) :
    (cs ++ c :: rest).takeWhile p = cs ∧ (cs ++ c :: rest).dropWhile p = c :: rest := by
  have hstop : ¬ p c = true := by simp [hc]
  rw [List.takeWhile_append_of_pos h, List.takeWhile_cons_of_neg hstop, List.append_nil,
    List.dropWhile_append_of_pos h, List.dropWhile_cons_of_neg hstop]
  exact ⟨rfl, rfl⟩

/-- White space in front of something else is skipped. -/
theorem dropWhile_isSpace_append {blanks : List Char} (h : blanks.all isSpace = true) {c : Char}
    (hc : isSpace c = false) (rest : List Char) :
    (blanks ++ c :: rest).dropWhile isSpace = c :: rest :=
  (span_append (List.all_eq_true.mp h) hc rest).2

/-- An attribute as it may be written in a tag: white space, the `name`, an equals sign with white
space around it, and the `value` in quotation marks. -/
structure WrittenAttribute where
  /-- The white space in front of it. -/
  gap : List Char := [' ']
  name : String
  /-- The white space in front of the equals sign. -/
  before : List Char := []
  /-- The white space behind the equals sign. -/
  behind : List Char := []
  quote : Char := '"'
  /-- The value, with references in it. -/
  value : List Char
  deriving DecidableEq, Repr

namespace WrittenAttribute

/-- The text of an attribute. -/
def text (a : WrittenAttribute) : List Char :=
  a.gap ++ (a.name.toList ++ (a.before ++ '=' :: (a.behind ++ a.quote :: (a.value ++ [a.quote]))))

/-- An attribute that keeps to the grammar.  Names and values may have more characters here than in
a document. -/
structure WellFormed (a : WrittenAttribute) : Prop where
  gap_ne : a.gap ≠ []
  gap : a.gap.all isSpace = true
  name : IsName a.name
  before : a.before.all isSpace = true
  behind : a.behind.all isSpace = true
  quote : isQuote a.quote = true
  value : a.quote ∉ a.value

theorem wellFormed_iff (a : WrittenAttribute) :
    (a.gap ≠ [] ∧ a.gap.all isSpace = true ∧ IsName a.name ∧ a.before.all isSpace = true
      ∧ a.behind.all isSpace = true ∧ isQuote a.quote = true ∧ a.quote ∉ a.value)
      ↔ a.WellFormed :=
  ⟨fun ⟨h₁, h₂, h₃, h₄, h₅, h₆, h₇⟩ => ⟨h₁, h₂, h₃, h₄, h₅, h₆, h₇⟩,
    fun h => ⟨h.gap_ne, h.gap, h.name, h.before, h.behind, h.quote, h.value⟩⟩

instance (a : WrittenAttribute) : Decidable a.WellFormed :=
  decidable_of_iff _ (wellFormed_iff a)

/-- What an attribute states: its name and its value with the entities replaced by `unescape`. -/
def stated (a : WrittenAttribute) : String × String :=
  (a.name, String.ofList (unescape a.value))

/-- An attribute as a writer writes it, with its value escaped by `escape`. -/
def ofPair (a : String × String) : WrittenAttribute :=
  { name := a.1, value := escape a.2.toList }

theorem wellFormed_ofPair {a : String × String} (h : IsName a.1) : (ofPair a).WellFormed where
  gap_ne := List.cons_ne_nil _ _
  gap := rfl
  name := h
  before := rfl
  behind := rfl
  quote := rfl
  value := not_mem_escape (by simp [ofPair]) _

@[simp] theorem stated_ofPair (a : String × String) : (ofPair a).stated = a := by
  simp [stated, ofPair, unescape_escape]

end WrittenAttribute

theorem attributesText_eq (as : List (String × String)) :
    attributesText as = (as.map .ofPair).flatMap WrittenAttribute.text := by
  simp [attributesText, List.flatMap_map, WrittenAttribute.text, WrittenAttribute.ofPair]

/-- The name of an attribute goes on to the equals sign, or to the white space in front of it. -/
theorem span_name {cs before : List Char} (hcs : ∀ c ∈ cs, isNameChar c = true)
    (hb : before.all isSpace = true) (tail : List Char) :
    (cs ++ (before ++ '=' :: tail)).takeWhile (fun d => !(d == '=' || isSpace d)) = cs
      ∧ (cs ++ (before ++ '=' :: tail)).dropWhile (fun d => !(d == '=' || isSpace d))
        = before ++ '=' :: tail := by
  have hname : ∀ d ∈ cs, !(d == '=' || isSpace d) := by
    intro d hd
    obtain ⟨hspace, -, heq, -⟩ := isNameChar_iff.mp (hcs d hd)
    simp [hspace, heq]
  cases before with
  | nil => exact span_append (p := fun d => !(d == '=' || isSpace d)) hname rfl tail
  | cons b before =>
      rw [List.all_cons, Bool.and_eq_true] at hb
      exact span_append (p := fun d => !(d == '=' || isSpace d)) hname (by simp [hb.1]) _

/-- A value goes on to its quotation mark. -/
theorem span_value {q : Char} {value : List Char} (h : q ∉ value) (rest : List Char) :
    (value ++ q :: rest).takeWhile (· != q) = value
      ∧ (value ++ q :: rest).dropWhile (· != q) = q :: rest := by
  refine span_append (p := (· != q)) (fun d hd => ?_) (by simp) rest
  rw [bne_iff_ne]
  rintro rfl
  exact h hd

/-- `attribute?` reads an attribute from the front of a text, once the white space in front of it is
gone. -/
theorem attribute?_written {a : WrittenAttribute} (h : a.WellFormed) (rest : List Char) :
    ∃ c cs, (a.text ++ rest).dropWhile isSpace = c :: cs
      ∧ attribute? (c :: cs) = some ((a.name.toList, a.value), rest) := by
  obtain ⟨gap, name, before, behind, q, value⟩ := a
  obtain ⟨-, hgap, ⟨hne, hname⟩, hbefore, hbehind, hq, hvalue⟩ := h
  dsimp only at hgap hname hbefore hbehind hq hvalue
  rw [List.all_eq_true] at hname
  obtain ⟨c, cs, hcons⟩ := List.exists_cons_of_ne_nil (show name.toList ≠ [] by simpa using hne)
  rw [hcons, List.forall_mem_cons] at hname
  obtain ⟨hc, hcs⟩ := hname
  have hquote : isSpace q = false := by
    simp only [isQuote, Bool.or_eq_true, beq_iff_eq] at hq
    rcases hq with rfl | rfl <;> rfl
  obtain ⟨htake, hdrop⟩ := span_name hcs hbefore (behind ++ q :: (value ++ q :: rest))
  obtain ⟨htake', hdrop'⟩ := span_value hvalue rest
  have hcontains : (value ++ q :: rest).contains q = true := by simp
  refine ⟨c, cs ++ (before ++ '=' :: (behind ++ q :: (value ++ q :: rest))), ?_, ?_⟩
  · have htext : WrittenAttribute.text ⟨gap, name, before, behind, q, value⟩ ++ rest
        = gap ++ c :: (cs ++ (before ++ '=' :: (behind ++ q :: (value ++ q :: rest)))) := by
      simp [WrittenAttribute.text, hcons]
    rw [htext, dropWhile_isSpace_append hgap (isNameChar_iff.mp hc).1]
  · rw [attribute?, htake, hdrop, dropWhile_isSpace_append hbefore (by decide)]
    simp only [dropWhile_isSpace_append hbehind hquote, hcontains, htake', hdrop', hq, hcons,
      Bool.and_self, if_true, List.drop_one, List.tail_cons]

/-- **The attributes of a tag are read one by one** by `rawAttributes?`, with white space behind
them or not. -/
theorem rawAttributes?_written {as : List WrittenAttribute} (h : ∀ a ∈ as, a.WellFormed)
    {gap : List Char} (hg : gap.all isSpace = true) :
    rawAttributes? (as.flatMap WrittenAttribute.text ++ gap)
      = some (as.map fun a => (a.name.toList, a.value)) := by
  induction as with
  | nil =>
      have hnil : gap.dropWhile isSpace = [] := by
        rw [← List.append_nil gap, List.dropWhile_append_of_pos (List.all_eq_true.mp hg)]
        rfl
      rw [List.flatMap_nil, List.nil_append, rawAttributes?]
      split
      · rfl
      · next hcons _ => rw [hnil] at hcons; cases hcons
  | cons a as ih =>
      obtain ⟨ha, has⟩ := List.forall_mem_cons.mp h
      obtain ⟨c, cs, hdrop, hread⟩ :=
        attribute?_written ha (as.flatMap WrittenAttribute.text ++ gap)
      rw [List.flatMap_cons, List.append_assoc, rawAttributes?]
      split
      · next hnil _ => rw [hdrop] at hnil; cases hnil
      · next hcons hle =>
          rw [hdrop] at hcons
          cases hcons
          split
          · next hnone => rw [hread] at hnone; cases hnone
          · next hsome =>
              rw [hread] at hsome
              cases hsome
              rw [ih has]
              rfl

/-- What `attributes?` reads in a tag is what its attributes state, if no name occurs twice. -/
theorem attributes?_written {t : Tag} {as : List WrittenAttribute} {gap : List Char}
    (ht : t.inside = as.flatMap WrittenAttribute.text ++ gap) (h : ∀ a ∈ as, a.WellFormed)
    (hg : gap.all isSpace = true) (hd : (as.map WrittenAttribute.name).Nodup) :
    t.attributes? = some (as.map WrittenAttribute.stated) := by
  have hnames : ((as.map fun a => (a.name.toList, a.value)).map Prod.fst).Nodup := by
    have hinj : Function.Injective String.toList := fun _ _ => String.toList_inj.mp
    have hmap := hd.map hinj
    rwa [List.map_map] at hmap ⊢
  simp only [Tag.attributes?, ht, rawAttributes?_written h hg, Option.bind_eq_bind,
    Option.bind_some, guard, if_pos hnames, Option.pure_def]
  simp [WrittenAttribute.stated]

/-- `rawAttributes?` reads back the attributes that a tag was written with, as they were written. -/
theorem rawAttributes?_attributesText {as : List (String × String)} (h : ∀ a ∈ as, IsName a.1) :
    rawAttributes? (attributesText as)
      = some (as.map fun a => (a.1.toList, escape a.2.toList)) := by
  have hwritten : ∀ a ∈ as.map WrittenAttribute.ofPair, a.WellFormed :=
    List.forall_mem_map.mpr fun a ha => WrittenAttribute.wellFormed_ofPair (h a ha)
  rw [attributesText_eq, ← List.append_nil (List.flatMap _ _), rawAttributes?_written hwritten rfl]
  simp [WrittenAttribute.ofPair]

/-- **The attributes that a tag was written with are read back** by `attributes?`, with their
values. -/
theorem attributes?_of_attributesText {t : Tag} {as : List (String × String)}
    (ht : t.inside = attributesText as) (h : ∀ a ∈ as, IsName a.1)
    (hd : (as.map Prod.fst).Nodup) : t.attributes? = some as := by
  have hwritten : ∀ a ∈ as.map WrittenAttribute.ofPair, a.WellFormed :=
    List.forall_mem_map.mpr fun a ha => WrittenAttribute.wellFormed_ofPair (h a ha)
  have hnames : ((as.map WrittenAttribute.ofPair).map WrittenAttribute.name).Nodup := by
    rwa [List.map_map]
  rw [attributesText_eq, ← List.append_nil (List.flatMap _ _)] at ht
  rw [attributes?_written ht hwritten rfl hnames]
  simp [Function.comp_def]

/-! ## The end of a tag -/

/-- A text in which the characters outside of quotation marks are restricted, and every quotation
mark that is opened is closed. -/
inductive Guarded (bare : Char → Bool) : List Char → Prop
  | nil : Guarded bare []
  | plain {c : Char} {cs : List Char} (hc : bare c = true) (hq : isQuote c = false)
      (h : Guarded bare cs) : Guarded bare (c :: cs)
  | quoted {q : Char} {value cs : List Char} (hq : isQuote q = true) (hv : q ∉ value)
      (h : Guarded bare cs) : Guarded bare (q :: (value ++ q :: cs))

namespace Guarded

variable {bare : Char → Bool} {cs ds : List Char}

theorem append (h : Guarded bare cs) (h' : Guarded bare ds) : Guarded bare (cs ++ ds) := by
  induction h with
  | nil => exact h'
  | plain hc hq _ ih => exact .plain hc hq ih
  | quoted hq hv _ ih =>
      rw [List.cons_append, List.append_assoc, List.cons_append]
      exact .quoted hq hv ih

theorem of_forall (h : ∀ c ∈ cs, bare c = true ∧ isQuote c = false) : Guarded bare cs := by
  induction cs with
  | nil => exact .nil
  | cons c cs ih =>
      obtain ⟨hc, hcs⟩ := List.forall_mem_cons.mp h
      exact .plain hc.1 hc.2 (ih hcs)

theorem flatMap {β : Type} {f : β → List Char} {bs : List β} (h : ∀ b ∈ bs, Guarded bare (f b)) :
    Guarded bare (bs.flatMap f) := by
  induction bs with
  | nil => exact .nil
  | cons b bs ih =>
      obtain ⟨hb, hbs⟩ := List.forall_mem_cons.mp h
      rw [List.flatMap_cons]
      exact hb.append (ih hbs)

end Guarded

theorem splitTag_quoted {q : Char} {value : List Char} (h : q ∉ value) (seen rest : List Char) :
    splitTag (some q) seen (value ++ q :: rest)
      = splitTag none (q :: (value.reverse ++ seen)) rest := by
  induction value generalizing seen with
  | nil => simp [splitTag]
  | cons c value ih =>
      simp only [List.mem_cons, not_or] at h
      rw [List.cons_append, splitTag, if_neg (Ne.symm h.1), ih h.2]
      simp

/-- **No tag ends inside of a guarded text**: `splitTag` goes on behind it. -/
theorem splitTag_guarded {cs : List Char} (h : Guarded (· != '>') cs) (seen rest : List Char) :
    splitTag none seen (cs ++ rest) = splitTag none (cs.reverse ++ seen) rest := by
  induction h generalizing seen with
  | nil => rfl
  | plain hc hq _ ih =>
      rw [List.cons_append, splitTag, if_neg (by simpa using hc), hq]
      simp [ih]
  | @quoted q value cs hq hv _ ih =>
      have hgt : q ≠ '>' := by
        rintro rfl
        cases hq
      rw [List.cons_append, List.append_assoc, List.cons_append, splitTag, if_neg hgt, if_pos hq,
        splitTag_quoted hv, ih]
      simp

/-- The inside of a tag is what stands in front of its end, where `splitTag` splits. -/
theorem splitTag_inside {inside : List Char} (h : Guarded (· != '>') inside) (rest : List Char) :
    splitTag none [] (inside ++ '>' :: rest) = .ok (inside, rest) := by
  rw [splitTag_guarded h, splitTag, if_pos rfl]
  simp

theorem Guarded.of_isSpace {bare : Char → Bool} {blanks : List Char}
    (h : blanks.all isSpace = true)
    (hb : [' ', '\t', '\r', '\n'].all bare = true) : Guarded bare blanks := by
  simp only [List.all_cons, List.all_nil, Bool.and_eq_true] at hb
  refine .of_forall fun c hc => ?_
  have hspace := List.all_eq_true.mp h c hc
  simp only [isSpace, Bool.or_eq_true, beq_iff_eq] at hspace
  rcases hspace with ((rfl | rfl) | rfl) | rfl
  · exact ⟨hb.1, rfl⟩
  · exact ⟨hb.2.1, rfl⟩
  · exact ⟨hb.2.2.1, rfl⟩
  · exact ⟨hb.2.2.2.1, rfl⟩

theorem Guarded.of_isName {name : String} (h : IsName name) : Guarded (· != '>') name.toList := by
  refine .of_forall fun c hc => ?_
  obtain ⟨-, hq, -, -, hgt, -⟩ := isNameChar_iff.mp (List.all_eq_true.mp h.chars c hc)
  exact ⟨by simpa using hgt, hq⟩

/-- No tag ends inside of an attribute, whose text is `Guarded`. -/
theorem WrittenAttribute.WellFormed.guarded {a : WrittenAttribute} (h : a.WellFormed) :
    Guarded (· != '>') a.text :=
  (Guarded.of_isSpace h.gap (by decide)).append ((Guarded.of_isName h.name).append
    ((Guarded.of_isSpace h.before (by decide)).append (.plain (by decide) (by decide)
      ((Guarded.of_isSpace h.behind (by decide)).append (.quoted h.quote h.value .nil)))))

end OpenDocument.Markup
