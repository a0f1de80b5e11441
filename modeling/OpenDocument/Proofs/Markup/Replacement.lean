import OpenDocument.Proofs.Markup.Escaping

/-!
# OpenDocument.Proofs.Markup.Replacement

Unescaping as the replacement of all entities at once.  No two entities can overlap, so a text may
be cut wherever none stands across the cut (`Cut`), and its parts are unescaped by themselves:
`unescape_append`.  Two laws follow, and no other function satisfies them (`ReplacesEntities`).
The same text comes out of `replaceEntities`, which decides for each character by the entities of
the given text alone what becomes of it, so that nothing that was put in is ever looked at.
-/

namespace OpenDocument.Markup

/-! ## The table of entities -/

theorem entity_eq_cons {e : Char × List Char} (he : e ∈ entities) : e.2 = '&' :: e.2.tail := by
  have htable : ∀ e ∈ entities, e.2 = '&' :: e.2.tail := by decide
  exact htable e he

/-- Behind its ampersand an entity has no special character. -/
theorem not_mem_tail_entity {e x : Char × List Char} (he : e ∈ entities) (hx : x ∈ entities) :
    x.1 ∉ e.2.tail := by
  have htable : ∀ e ∈ entities, ∀ x ∈ entities, x.1 ∉ e.2.tail := by decide
  exact htable e he x hx

/-- An entity is longer than the character that it stands for. -/
theorem one_lt_length_entity {e : Char × List Char} (he : e ∈ entities) : 1 < e.2.length := by
  have htable : ∀ e ∈ entities, 1 < e.2.length := by decide
  exact htable e he

theorem ampersand_not_mem_tail {e : Char × List Char} (he : e ∈ entities) : '&' ∉ e.2.tail :=
  not_mem_tail_entity he (List.mem_cons_self ..)

/-- No entity begins another one. -/
theorem entity_eq_of_begins {e x : Char × List Char} {t : List Char} (he : e ∈ entities)
    (hx : x ∈ entities) (het : e.2 <+: t) (hxt : x.2 <+: t) : e = x := by
  obtain ⟨r, rfl⟩ := het
  obtain ⟨s, hs⟩ := hxt
  have hread := entityAt?_entity he r
  rw [← hs, entityAt?_entity hx s] at hread
  obtain ⟨hc, rfl⟩ := Prod.mk.inj (Option.some.inj hread)
  exact Prod.ext hc.symm (List.append_cancel_right hs).symm

/-! ## Unescaping by the table -/

/-- What `entityAt?` reads as an entity is one of the table. -/
theorem exists_entity_of_entityAt? {cs r : List Char} {c : Char}
    (h : entityAt? cs = some (c, r)) : ∃ entity, (c, entity) ∈ entities ∧ cs = entity ++ r := by
  have hcs := eq_append_of_entityAt? h
  rcases escapeChar_cases c with ⟨entity, hmem, he⟩ | ⟨hne, he⟩
  · exact ⟨entity, hmem, he ▸ hcs⟩
  · have hamp : c ≠ '&' := (hne ('&', _) (List.mem_cons_self ..)).symm
    rw [hcs, he, List.singleton_append, entityAt?_of_ne hamp] at h
    cases h

theorem unescape_entity_append {e : Char × List Char} (he : e ∈ entities) (rest : List Char) :
    unescape (e.2 ++ rest) = e.1 :: unescape rest :=
  unescape_of_entityAt? (entityAt?_entity he rest)

theorem unescape_cons_of_forall {c : Char} {cs : List Char}
    (h : ∀ e ∈ entities, ¬ e.2 <+: c :: cs) : unescape (c :: cs) = c :: unescape cs := by
  refine unescape_cons (Option.eq_none_iff_forall_ne_some.mpr ?_)
  rintro ⟨d, r⟩ hread
  obtain ⟨entity, hmem, heq⟩ := exists_entity_of_entityAt? hread
  exact h _ hmem ⟨r, heq.symm⟩

/-- A text in which no entity occurs is not changed by `unescape`. -/
theorem unescape_eq_self {t : List Char} (h : ∀ e ∈ entities, ¬ e.2 <:+: t) : unescape t = t := by
  induction t with
  | nil => exact unescape_nil
  | cons c t ih =>
      rw [unescape_cons_of_forall fun e he hfront => h e he hfront.isInfix,
        ih fun e he hoccurs => h e he (List.infix_cons hoccurs)]

theorem unescape_append_of_not_mem {name : List Char} (h : '&' ∉ name) (t : List Char) :
    unescape (name ++ t) = name ++ unescape t := by
  induction name with
  | nil => rfl
  | cons c name ih =>
      obtain ⟨hc, hname⟩ := not_or.mp (List.mem_cons.not.mp h)
      rw [List.cons_append, unescape_cons (entityAt?_of_ne (Ne.symm hc) _), ih hname,
        List.cons_append]

/-! ## Cuts -/

/-- No entity stands across the cut between `a` and `s`: one that begins in `a` is in `a`. -/
def Cut (a s : List Char) : Prop :=
  ∀ e ∈ entities, ∀ i < a.length, e.2 <+: a.drop i ++ s → e.2 <+: a.drop i

/-- A `Cut` of a text is one of its rest. -/
theorem Cut.of_append {front a s : List Char} (h : Cut (front ++ a) s) : Cut a s := by
  intro e he i hi hstands
  have hdrop : (front ++ a).drop (front.length + i) = a.drop i := List.drop_length_add_append ..
  rw [← hdrop] at hstands ⊢
  exact h e he _ (by rw [List.length_append]; omega) hstands

/-- There is a `Cut` in front of every special character. -/
theorem cut_cons {x : Char × List Char} (hx : x ∈ entities) (a s : List Char) :
    Cut a (x.1 :: s) := by
  rintro e he i hi ⟨r, hr⟩
  have hrest : a.drop i ≠ [] := by simpa using hi
  rcases List.append_eq_append_iff.mp hr with ⟨y, hy, -⟩ | ⟨y, hy, hs⟩
  · exact ⟨y, hy.symm⟩
  · cases y with
    | nil => exact ⟨[], by rw [hy, List.append_nil, List.append_nil]⟩
    | cons d y =>
        obtain rfl : x.1 = d := (List.cons.inj hs).1
        have hmem : x.1 ∈ e.2.tail := by
          rw [hy, List.tail_append_of_ne_nil hrest]
          exact List.mem_append_right _ (List.mem_cons_self ..)
        exact absurd hmem (not_mem_tail_entity he hx)

/-- There is a `Cut` in front of every entity. -/
theorem cut_entity_append {x : Char × List Char} (hx : x ∈ entities) (a s : List Char) :
    Cut a (x.2 ++ s) := by
  have hamp : ('&', _) ∈ entities := List.mem_cons_self ..
  rw [entity_eq_cons hx, List.cons_append]
  exact cut_cons hamp a _

/-- There is a `Cut` behind every entity. -/
theorem cut_entity {x : Char × List Char} (hx : x ∈ entities) (s : List Char) : Cut x.2 s := by
  intro e he i hi hstands
  cases i with
  | zero =>
      rw [List.drop_zero] at hstands ⊢
      obtain rfl := entity_eq_of_begins he hx hstands (List.prefix_append ..)
      exact List.prefix_rfl
  | succ i =>
      -- inside of `x` no entity begins, for lack of an ampersand
      have hinside := List.drop_eq_getElem_cons hi
      rw [entity_eq_cons he, hinside, List.cons_append, List.cons_prefix_cons] at hstands
      have hmem : '&' ∈ x.2.tail.drop i := by
        rw [List.drop_tail, hinside]
        exact List.mem_cons.mpr (.inl hstands.1)
      exact absurd (List.mem_of_mem_drop hmem) (ampersand_not_mem_tail hx)

/-- **The two sides of a cut are unescaped by themselves.**  So `unescape` is known on a text if it
is known between the cuts of it. -/
theorem unescape_append {a s : List Char} (h : Cut a s) :
    unescape (a ++ s) = unescape a ++ unescape s := by
  match a with
  | [] => rw [unescape_nil]; rfl
  | c :: a =>
      by_cases hfront : ∃ e ∈ entities, e.2 <+: c :: (a ++ s)
      · obtain ⟨e, he, hstands⟩ := hfront
        obtain ⟨r, hr⟩ : e.2 <+: c :: a := h e he 0 (Nat.succ_pos _) hstands
        have hshorter : r.length < (c :: a).length := by
          have := one_lt_length_entity he
          rw [← hr, List.length_append]
          omega
        have hrest : Cut r s := .of_append (hr ▸ h)
        rw [← hr, List.append_assoc, unescape_entity_append he, unescape_entity_append he,
          unescape_append hrest, List.cons_append]
      · push Not at hfront
        have hrest : Cut a s := .of_append (show Cut ([c] ++ a) s from h)
        have hnone : ∀ e ∈ entities, ¬ e.2 <+: c :: a := fun e he hstands =>
          hfront e he (hstands.trans (List.prefix_append ..))
        rw [unescape_cons_of_forall hnone, List.cons_append, unescape_cons_of_forall hfront,
          unescape_append hrest, List.cons_append]
termination_by a.length
decreasing_by
  · exact hshorter
  · exact Nat.lt_succ_self _

/-! ## The laws -/

/-- The laws of a function that replaces every entity of the text that it is given, and nothing
else: a text in which no entity occurs stays, and an entity becomes its character whatever stands
before it and behind it. -/
structure ReplacesEntities (f : List Char → List Char) : Prop where
  untouched : ∀ t, (∀ e ∈ entities, ¬ e.2 <:+: t) → f t = t
  split : ∀ c entity, (c, entity) ∈ entities → ∀ a b,
    f (a ++ entity ++ b) = f a ++ [c] ++ f b

namespace ReplacesEntities

/-- For `ReplacesEntities` it is enough that a function replaces a single entity and goes along with
cuts. -/
theorem of_cut {f : List Char → List Char}
    (huntouched : ∀ t, (∀ e ∈ entities, ¬ e.2 <:+: t) → f t = t)
    (hentity : ∀ e ∈ entities, f e.2 = [e.1])
    (hcut : ∀ {a s}, Cut a s → f (a ++ s) = f a ++ f s) : ReplacesEntities f where
  untouched := huntouched
  split c entity he a b := by
    have hbefore : Cut a (entity ++ b) := cut_entity_append he a b
    have hbehind : Cut entity b := cut_entity he b
    rw [List.append_assoc, hcut hbefore, hcut hbehind, hentity _ he, List.append_assoc]

/-- The laws of `ReplacesEntities` determine the function. -/
theorem unique {f g : List Char → List Char} (hf : ReplacesEntities f) (hg : ReplacesEntities g)
    (t : List Char) : f t = g t := by
  by_cases hoccurs : ∃ e ∈ entities, e.2 <:+: t
  · obtain ⟨e, he, a, b, ht⟩ := hoccurs
    have hlength : a.length + e.2.length + b.length = t.length := by
      rw [← ht, List.length_append, List.length_append]
    have hentity := one_lt_length_entity he
    have hfront : a.length < t.length := by omega
    have hback : b.length < t.length := by omega
    rw [← ht, hf.split _ _ he, hg.split _ _ he, hf.unique hg a, hf.unique hg b]
  · push Not at hoccurs
    rw [hf.untouched t hoccurs, hg.untouched t hoccurs]
termination_by t.length
decreasing_by
  · exact hfront
  · exact hback

end ReplacesEntities

theorem replacesEntities_unescape : ReplacesEntities unescape :=
  .of_cut (fun _ => unescape_eq_self)
    (fun e he => by
      have hread := unescape_entity_append he []
      rwa [List.append_nil, unescape_nil] at hread)
    unescape_append

/-! ## Replacing all at once -/

/-- The entity that stands in a text behind the first `i` characters. -/
def standing? (t : List Char) (i : Nat) : Option (Char × List Char) :=
  entities.find? fun e => e.2.isPrefixOf (t.drop i)

/-- The character behind the first `i` ones belongs to an entity that is `standing?` before it. -/
def Covered (t : List Char) (i : Nat) : Prop :=
  ∃ j < i, ∃ e ∈ standing? t j, i < j + e.2.length

instance (t : List Char) (i : Nat) : Decidable (Covered t i) :=
  inferInstanceAs (Decidable (∃ j < i, ∃ e ∈ standing? t j, i < j + e.2.length))

/-- What becomes of the character behind the first `i` ones: the first character of an entity
becomes what the entity stands for, those that are `Covered` go, and a character of none stays. -/
def replacedAt (t : List Char) (i : Nat) : List Char :=
  match standing? t i with
  | some e => [e.1]
  | none => if Covered t i then [] else t[i]?.toList

/-- A text with all of its entities replaced at once: every position has what `replacedAt` makes of
it. -/
def replaceEntities (t : List Char) : List Char :=
  (List.range t.length).flatMap (replacedAt t)

theorem of_standing? {t : List Char} {i : Nat} {e : Char × List Char}
    (h : standing? t i = some e) : e ∈ entities ∧ e.2 <+: t.drop i := by
  have hstands := List.find?_some h
  exact ⟨List.mem_of_find?_eq_some h, List.isPrefixOf_iff_prefix.mp hstands⟩

theorem standing?_eq_some_iff {t : List Char} {i : Nat} {e : Char × List Char} :
    standing? t i = some e ↔ e ∈ entities ∧ e.2 <+: t.drop i := by
  refine ⟨of_standing?, fun ⟨he, hstands⟩ => ?_⟩
  cases h : standing? t i with
  | none =>
      have hnone := List.find?_eq_none.mp h e he
      exact absurd (List.isPrefixOf_iff_prefix.mpr hstands) hnone
  | some x =>
      obtain ⟨hx, hxstands⟩ := of_standing? h
      rw [entity_eq_of_begins hx he hxstands hstands]

/-! ### Both sides of a cut -/

section
variable {a s : List Char} {i : Nat}

theorem standing?_append_left (h : Cut a s) (hi : i < a.length) :
    standing? (a ++ s) i = standing? a i := by
  have hdrop : (a ++ s).drop i = a.drop i ++ s := List.drop_append_of_le_length (Nat.le_of_lt hi)
  refine Option.ext fun e => ?_
  rw [standing?_eq_some_iff, standing?_eq_some_iff, hdrop]
  exact and_congr_right fun he =>
    ⟨h e he i hi, fun hstands => hstands.trans (List.prefix_append ..)⟩

theorem standing?_append_right : standing? (a ++ s) (a.length + i) = standing? s i := by
  rw [standing?, standing?, List.drop_length_add_append]

theorem covered_append_left (h : Cut a s) (hi : i < a.length) :
    Covered (a ++ s) i ↔ Covered a i := by
  refine exists_congr fun j => and_congr_right fun hj => ?_
  rw [standing?_append_left h (Nat.lt_trans hj hi)]

theorem covered_append_right (h : Cut a s) :
    Covered (a ++ s) (a.length + i) ↔ Covered s i := by
  constructor
  · rintro ⟨j, hj, e, he, hend⟩
    -- what begins in front of the cut ends there, hence does not reach this far
    by_cases hfront : j < a.length
    · rw [standing?_append_left h hfront] at he
      have hlength := (of_standing? he).2.length_le
      rw [List.length_drop] at hlength
      omega
    · obtain ⟨k, rfl⟩ := Nat.exists_eq_add_of_le (Nat.le_of_not_lt hfront)
      rw [standing?_append_right] at he
      exact ⟨k, by omega, e, he, by omega⟩
  · rintro ⟨j, hj, e, he, hend⟩
    exact ⟨a.length + j, by omega, e, by rwa [standing?_append_right], by omega⟩

theorem replacedAt_append_left (h : Cut a s) (hi : i < a.length) :
    replacedAt (a ++ s) i = replacedAt a i := by
  simp only [replacedAt, standing?_append_left h hi, covered_append_left h hi,
    List.getElem?_append_left hi]

theorem replacedAt_append_right (h : Cut a s) :
    replacedAt (a ++ s) (a.length + i) = replacedAt s i := by
  simp only [replacedAt, standing?_append_right, covered_append_right h,
    List.getElem?_append_right (Nat.le_add_right ..), Nat.add_sub_cancel_left]

theorem replaceEntities_append (h : Cut a s) :
    replaceEntities (a ++ s) = replaceEntities a ++ replaceEntities s := by
  have hfront : (List.range a.length).flatMap (replacedAt (a ++ s)) = replaceEntities a :=
    List.flatMap_congr fun i hi => replacedAt_append_left h (List.mem_range.mp hi)
  have hback : (List.range s.length).flatMap (fun i => replacedAt (a ++ s) (a.length + i))
      = replaceEntities s :=
    List.flatMap_congr fun i _ => replacedAt_append_right h
  rw [replaceEntities, List.length_append, List.range_add, List.flatMap_append, hfront,
    List.flatMap_map, hback]

end

/-- A text is what its positions have. -/
theorem flatMap_range_getElem? (t : List Char) :
    ((List.range t.length).flatMap fun i => t[i]?.toList) = t := by
  induction t with
  | nil => rfl
  | cons c t ih =>
      rw [List.length_cons, List.range_succ_eq_map, List.flatMap_cons, List.flatMap_map]
      simp only [List.getElem?_cons_succ, ih]
      rfl

theorem replaceEntities_eq_self {t : List Char} (h : ∀ e ∈ entities, ¬ e.2 <:+: t) :
    replaceEntities t = t := by
  have hnone (i : Nat) : standing? t i = none := by
    rw [Option.eq_none_iff_forall_ne_some]
    intro e he
    obtain ⟨hmem, hstands⟩ := of_standing? he
    exact h e hmem (hstands.isInfix.trans (List.drop_suffix i t).isInfix)
  have hreplaced (i : Nat) : replacedAt t i = t[i]?.toList := by
    have hcovered : ¬ Covered t i := by
      rintro ⟨j, -, e, he, -⟩
      rw [hnone] at he
      cases he
    rw [replacedAt, hnone, if_neg hcovered]
  rw [replaceEntities, funext hreplaced]
  exact flatMap_range_getElem? t

theorem replacesEntities_replaceEntities : ReplacesEntities replaceEntities :=
  .of_cut (fun _ => replaceEntities_eq_self) (by decide) replaceEntities_append

/-! ## Replaced text -/

/-- A text in which one entity has been replaced is unescaped like the text itself just where the
character that was put in begins no entity. -/
theorem unescape_replaced_iff {c : Char} {entity : List Char} (he : (c, entity) ∈ entities)
    (a b : List Char) :
    unescape (a ++ c :: b) = unescape (a ++ entity ++ b) ↔ ∀ e ∈ entities, ¬ e.2 <+: c :: b := by
  rw [replacesEntities_unescape.split _ _ he, unescape_append (cut_cons he a b), List.append_assoc,
    List.append_cancel_left_eq, List.singleton_append]
  refine ⟨?_, unescape_cons_of_forall⟩
  rintro hsame e hmem ⟨r, hr⟩
  have hlength := one_lt_length_entity hmem
  have hform := entity_eq_cons hmem
  have hb : b = e.2.tail ++ r := by
    rw [hform] at hr
    exact (List.cons.inj hr).2.symm
  -- read again, the entity is one character; left alone, it keeps its length
  have hread : (unescape (c :: b)).length = (unescape r).length + 1 := by
    rw [← hr, unescape_entity_append hmem, List.length_cons]
  have hkept : (c :: unescape b).length = (unescape r).length + e.2.length := by
    rw [hb, unescape_append_of_not_mem (ampersand_not_mem_tail hmem), List.length_cons,
      List.length_append, List.length_tail]
    omega
  rw [hsame, hkept] at hread
  omega

/-- **Unescaping replaces all entities at once.**  It follows the laws of replacing them, at every
cut of every text; a function that follows the laws is determined by them, makes of each character
what the entities of the given text say, and does not go on with the text in which an entity has
been replaced: to do so would have the same result only where the character that was put in begins
no entity. -/
theorem unescape_simultaneous :
    ReplacesEntities unescape
      ∧ ∀ f, ReplacesEntities f →
        f = unescape
          ∧ (∀ t, f t = replaceEntities t)
          ∧ ∀ c entity, (c, entity) ∈ entities → ∀ a b,
            (f (a ++ c :: b) = f (a ++ entity ++ b) ↔ ∀ e ∈ entities, ¬ e.2 <+: c :: b) := by
  refine ⟨replacesEntities_unescape, fun f hf => ?_⟩
  obtain rfl : f = unescape := funext (hf.unique replacesEntities_unescape)
  exact ⟨rfl, hf.unique replacesEntities_replaceEntities, fun _ _ he => unescape_replaced_iff he⟩

/-- In `&am&amp;lt;` the character that is put in joins what stands behind it to another entity,
which stays; unescaping the text with the character in place of its entity would lose it. -/
theorem unescape_simultaneous_joined :
    unescape ("&am".toList ++ "&amp;".toList ++ "lt;".toList) = "&am&lt;".toList
      ∧ unescape ("&am".toList ++ '&' :: "lt;".toList)
        ≠ unescape ("&am".toList ++ "&amp;".toList ++ "lt;".toList) := by
  obtain ⟨hlaws, hdetermined⟩ := unescape_simultaneous
  obtain ⟨-, -, hreplaced⟩ := hdetermined unescape hlaws
  have hamp : ('&', "&amp;".toList) ∈ entities := by decide
  constructor
  · rw [hlaws.split _ _ hamp, hlaws.untouched _ (by decide), hlaws.untouched _ (by decide)]
    rfl
  · rw [Ne, hreplaced _ _ hamp]
    decide

end OpenDocument.Markup
