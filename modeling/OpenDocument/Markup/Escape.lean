/-!
# OpenDocument.Markup.Escape

The five predefined entities. `escape` writes each of the characters `&`, `<`, `>`, `"` and `'`
as its entity; `unescape` replaces every entity in one pass from left to right, looks at nothing
twice and leaves every other ampersand alone.
-/

namespace OpenDocument.Markup

/-- The characters that have an entity, each with the entity's text. -/
def entities : List (Char × List Char) :=
  [('&', ['&', 'a', 'm', 'p', ';']),
   ('<', ['&', 'l', 't', ';']),
   ('>', ['&', 'g', 't', ';']),
   ('"', ['&', 'q', 'u', 'o', 't', ';']),
   ('\'', ['&', 'a', 'p', 'o', 's', ';'])]

/-- The escaped form of one character. -/
def escapeChar (c : Char) : List Char :=
  ((entities.find? fun e => e.1 == c).map (·.2)).getD [c]

/-- A text with every special character written as its entity, by `escapeChar`. -/
def escape (cs : List Char) : List Char :=
  cs.flatMap escapeChar

/-- The entity that a text begins with: its character and what follows it. -/
def entityAt? : List Char → Option (Char × List Char)
  | '&' :: 'a' :: 'm' :: 'p' :: ';' :: r => some ('&', r)
  | '&' :: 'l' :: 't' :: ';' :: r => some ('<', r)
  | '&' :: 'g' :: 't' :: ';' :: r => some ('>', r)
  | '&' :: 'q' :: 'u' :: 'o' :: 't' :: ';' :: r => some ('"', r)
  | '&' :: 'a' :: 'p' :: 'o' :: 's' :: ';' :: r => some ('\'', r)
  | _ => none

theorem entityAt?_length {cs r : List Char} {c : Char} (h : entityAt? cs = some (c, r)) :
    r.length < cs.length := by
  unfold entityAt? at h
  split at h <;> simp at h <;> obtain ⟨_, rfl⟩ := h <;> simp <;> omega

/-- `unescape` with the replaced text so far, last character first. -/
def unescapeOnto (done : List Char) : List Char → List Char
  | [] => done.reverse
  | c :: cs =>
    match _h : entityAt? (c :: cs) with
    | some (d, r) => unescapeOnto (d :: done) r
    | none => unescapeOnto (c :: done) cs
termination_by cs => cs.length
decreasing_by
  · exact entityAt?_length _h
  · simp

/-- A text with every predefined entity replaced by its character. What is put in is not looked at
again: `unescapeOnto` goes on behind the entity. -/
def unescape (cs : List Char) : List Char :=
  unescapeOnto [] cs

/-! ## One step at a time -/

theorem unescapeOnto_eq (done cs : List Char) :
    unescapeOnto done cs = done.reverse ++ unescape cs := by
  suffices ∀ n, ∀ cs : List Char, cs.length ≤ n → ∀ done,
      unescapeOnto done cs = done.reverse ++ unescapeOnto [] cs from
    this cs.length cs (Nat.le_refl _) done
  intro n
  induction n with
  | zero =>
    intro cs hn done
    have : cs = [] := List.length_eq_zero_iff.mp (by omega)
    subst this
    simp [unescapeOnto]
  | succ n ih =>
    intro cs hn done
    cases cs with
    | nil => simp [unescapeOnto]
    | cons c cs =>
      rw [unescapeOnto, unescapeOnto]
      split
      · rename_i d r h
        have hr : r.length ≤ n := by
          have := entityAt?_length h; simp at this hn; omega
        rw [ih r hr (d :: done), ih r hr [d]]
        simp
      · have hr : cs.length ≤ n := by simp at hn; omega
        rw [ih cs hr (c :: done), ih cs hr [c]]
        simp

@[simp] theorem unescape_nil : unescape [] = [] := by simp [unescape, unescapeOnto]

/-- An entity at the front (`entityAt?`) becomes its character. -/
theorem unescape_of_entityAt? {cs r : List Char} {d : Char} (h : entityAt? cs = some (d, r)) :
    unescape cs = d :: unescape r := by
  cases cs with
  | nil => simp [entityAt?] at h
  | cons c cs =>
    rw [unescape, unescapeOnto]
    split
    · rename_i d' r' h'
      rw [h] at h'
      simp only [Option.some.injEq, Prod.mk.injEq] at h'
      obtain ⟨rfl, rfl⟩ := h'
      rw [unescapeOnto_eq]; simp
    · rename_i h'; rw [h] at h'; simp at h'

/-- A character that begins no entity stays. -/
theorem unescape_cons {c : Char} {cs : List Char} (h : entityAt? (c :: cs) = none) :
    unescape (c :: cs) = c :: unescape cs := by
  rw [unescape, unescapeOnto]
  split
  · rename_i h'; rw [h] at h'; simp at h'
  · rw [unescapeOnto_eq]; simp

end OpenDocument.Markup
