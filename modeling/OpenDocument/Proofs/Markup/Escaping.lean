import OpenDocument.Proofs.Markup.Tags

/-!
# OpenDocument.Proofs.Markup.Escaping

Which texts are escaped texts.  In an escaped text the special characters stand only inside the
predefined entities, and every text of that kind is the escaped form of what it is unescaped to:
`escape` and `unescape` are inverse to one another between all texts and the `Escaped` ones.
-/

namespace OpenDocument.Markup

/-- The five predefined entities. -/
def predefined : List String := ["&amp;", "&lt;", "&gt;", "&quot;", "&apos;"]

theorem mem_predefined_iff {s : String} :
    s ∈ predefined ↔ ∃ e ∈ entities, e.2 = s.toList := by
  have htable : entities.map Prod.snd = predefined.map String.toList := rfl
  rw [← List.mem_map, htable, List.mem_map]
  exact ⟨fun h => ⟨s, h, rfl⟩, fun ⟨t, ht, heq⟩ => String.toList_injective heq ▸ ht⟩

/-- A text without bare special characters: none of them but the ampersand, and that only at the
beginning of an entity. -/
structure Escaped (t : List Char) : Prop where
  unquoted : '<' ∉ t ∧ '>' ∉ t ∧ '"' ∉ t ∧ '\'' ∉ t
  ampersands : ∀ front rest, t = front ++ '&' :: rest →
    ∃ s ∈ predefined, s.toList <+: '&' :: rest

/-! ## Entities at the front -/

/-- What `entityAt?` reads as an entity is the escaped form of its character. -/
theorem eq_append_of_entityAt? {cs r : List Char} {c : Char} (h : entityAt? cs = some (c, r)) :
    cs = escapeChar c ++ r := by
  unfold entityAt? at h
  split at h <;> cases h <;> rfl

/-- A character that is not among the `entities` is escaped as itself. -/
theorem escapeChar_of_forall_ne {c : Char} (h : ∀ e ∈ entities, e.1 ≠ c) : escapeChar c = [c] := by
  rcases escapeChar_cases c with ⟨entity, hmem, -⟩ | ⟨-, heq⟩
  · exact absurd rfl (h _ hmem)
  · exact heq

/-! ## Escaped texts -/

namespace Escaped

theorem nil : Escaped [] := ⟨by simp, by simp⟩

/-- The rest of an `Escaped` text is escaped, wherever it begins. -/
theorem of_append {a t : List Char} (h : Escaped (a ++ t)) : Escaped t where
  unquoted := by
    have hquoted := h.unquoted
    simp only [List.mem_append, not_or] at hquoted
    exact ⟨hquoted.1.2, hquoted.2.1.2, hquoted.2.2.1.2, hquoted.2.2.2.2⟩
  ampersands front rest ht := h.ampersands (a ++ front) rest (by rw [ht, List.append_assoc])

/-- A character that is not special may stand in front of an `Escaped` text. -/
theorem cons {c : Char} {t : List Char} (hc : ∀ e ∈ entities, e.1 ≠ c) (h : Escaped t) :
    Escaped (c :: t) where
  unquoted := by
    simp only [entities, List.forall_mem_cons] at hc
    obtain ⟨-, hlt, hgt, hquote, hapostrophe, -⟩ := hc
    obtain ⟨h1, h2, h3, h4⟩ := h.unquoted
    simp only [List.mem_cons, not_or]
    exact ⟨⟨hlt, h1⟩, ⟨hgt, h2⟩, ⟨hquote, h3⟩, hapostrophe, h4⟩
  ampersands front rest ht := by
    cases front with
    | nil => exact absurd (List.cons.inj ht).1.symm (hc ('&', _) (List.mem_cons_self ..))
    | cons d front => exact h.ampersands front rest (List.cons.inj ht).2

theorem append_of_forall {name t : List Char} (hname : ∀ c ∈ name, ∀ e ∈ entities, e.1 ≠ c)
    (h : Escaped t) : Escaped (name ++ t) := by
  induction name with
  | nil => exact h
  | cons c name ih =>
      obtain ⟨hc, hname⟩ := List.forall_mem_cons.mp hname
      exact (ih hname).cons hc

/-- An entity may stand in front of an `Escaped` text. -/
theorem entity_append {c : Char} {entity t : List Char} (he : (c, entity) ∈ entities)
    (h : Escaped t) : Escaped (entity ++ t) := by
  -- behind its ampersand an entity has no special character
  have hform : ∀ e ∈ entities, e.2 = '&' :: e.2.tail
      ∧ e.2.tail.all (fun d => entities.all fun e => e.1 != d) := by
    decide
  obtain ⟨hamp, hname⟩ := hform _ he
  have hrest := h.append_of_forall (by simpa using hname)
  have hsplit : entity ++ t = '&' :: (entity.tail ++ t) := congrArg (· ++ t) hamp
  refine ⟨?_, fun front rest ht => ?_⟩
  · rw [hsplit]
    simpa using hrest.unquoted
  · cases front with
    | nil =>
        have hentity : String.ofList entity ∈ predefined :=
          mem_predefined_iff.mpr ⟨_, he, String.toList_ofList.symm⟩
        refine ⟨_, hentity, ?_⟩
        rw [String.toList_ofList, ← List.nil_append ('&' :: rest), ← ht]
        exact List.prefix_append entity t
    | cons d front =>
        rw [hsplit] at ht
        exact hrest.ampersands front rest (List.cons.inj ht).2

end Escaped

theorem escaped_escape (cs : List Char) : Escaped (escape cs) := by
  induction cs with
  | nil => exact .nil
  | cons c cs ih =>
      rw [escape_cons]
      rcases escapeChar_cases c with ⟨entity, hmem, he⟩ | ⟨hne, he⟩
      · rw [he]
        exact ih.entity_append hmem
      · rw [he]
        exact ih.cons hne

/-- Where an `Escaped` text begins with no entity, it begins with a character that has none. -/
theorem Escaped.forall_ne_of_entityAt? {c : Char} {cs : List Char} (h : Escaped (c :: cs))
    (hnone : entityAt? (c :: cs) = none) : ∀ e ∈ entities, e.1 ≠ c := by
  have hamp : c ≠ '&' := by
    rintro rfl
    obtain ⟨s, hs, r, hr⟩ := h.ampersands [] cs rfl
    obtain ⟨e, he, heq⟩ := mem_predefined_iff.mp hs
    rw [← hr, ← heq, entityAt?_entity he] at hnone
    cases hnone
  have hquoted := h.unquoted
  simp only [List.mem_cons, not_or] at hquoted
  simp only [entities, List.forall_mem_cons]
  exact ⟨hamp.symm, hquoted.1.1, hquoted.2.1.1, hquoted.2.2.1.1, hquoted.2.2.2.1, by simp⟩

/-- **An `Escaped` text is what it is unescaped to, escaped.** -/
theorem Escaped.escape_unescape {t : List Char} (h : Escaped t) : escape (unescape t) = t := by
  match t with
  | [] => rw [unescape_nil]; rfl
  | c :: cs =>
      match hentity : entityAt? (c :: cs) with
      | some (d, r) =>
          have hcs := eq_append_of_entityAt? hentity
          have hshorter := entityAt?_length hentity
          have hrest : Escaped r := of_append (hcs ▸ h)
          rw [unescape_of_entityAt? hentity, escape_cons, hrest.escape_unescape, hcs]
      | none =>
          have hrest : Escaped cs := of_append (show Escaped ([c] ++ cs) from h)
          rw [unescape_cons hentity, escape_cons,
            escapeChar_of_forall_ne (h.forall_ne_of_entityAt? hentity), hrest.escape_unescape,
            List.singleton_append]
termination_by t.length
decreasing_by
  · exact hshorter
  · exact Nat.lt_succ_self _

/-- An entity is escaped by escaping its ampersand: `&lt;` becomes `&amp;lt;`. -/
theorem escape_predefined {s : String} (h : s ∈ predefined) :
    escape s.toList = "&amp;".toList ++ s.toList.tail := by
  have htable : ∀ s ∈ predefined, escape s.toList = "&amp;".toList ++ s.toList.tail := by decide
  exact htable s h

/-- **Escaping and unescaping undo one another.**  Every text is unescaped from its escaped form,
and the texts that are escaped from their unescaped form are those without bare special characters;
just these are escaped forms.  An entity whose ampersand was escaped comes out as that entity,
wherever it stands: nothing is unescaped twice. -/
theorem unescape_inverse_escape :
    (∀ cs, unescape (escape cs) = cs ∧ Escaped (escape cs))
      ∧ (∀ t, escape (unescape t) = t ↔ Escaped t)
      ∧ (∀ t, (∃ cs, escape cs = t) ↔ Escaped t)
      ∧ ∀ s ∈ predefined, ∀ front rest,
        unescape (escape front ++ ("&amp;".toList ++ s.toList.tail ++ rest))
            = front ++ (s.toList ++ unescape rest)
          ∧ escape (unescape ("&amp;".toList ++ s.toList.tail))
            = "&amp;".toList ++ s.toList.tail := by
  refine ⟨fun cs => ⟨unescape_escape cs, escaped_escape cs⟩, fun t => ⟨fun h => ?_, ?_⟩,
    fun t => ⟨?_, fun h => ?_⟩, fun s hs front rest => ⟨?_, ?_⟩⟩
  · rw [← h]
    exact escaped_escape _
  · exact Escaped.escape_unescape
  · rintro ⟨cs, rfl⟩
    exact escaped_escape cs
  · exact ⟨unescape t, h.escape_unescape⟩
  · rw [← escape_predefined hs, unescape_escape_append, unescape_escape_append]
  · rw [← escape_predefined hs]
    exact (escaped_escape _).escape_unescape

end OpenDocument.Markup
