import OpenDocument.Markup.Fault
import OpenDocument.Markup.Scan
import OpenDocument.Markup.Escape

/-!
# OpenDocument.Markup.Event

A tolerant reader of markup documents. `events` lists the constructs of a text in order, up to
the first fault of syntax. End tags must match the innermost open element; elements may stay open
at the end, names are not checked, and what a reference refers to is not looked at.

The attributes of a tag are read on demand by `Tag.attributes?`, because a document may be
refused for them only after everything in front of the tag was taken in.
-/

namespace OpenDocument.Markup

/-- A start tag or empty tag: its name, and its inside behind the name as it was written. -/
structure Tag where
  name : List Char
  inside : List Char
  deriving DecidableEq, Repr

/-- One construct of a document, as `readEvent` answers it. -/
inductive Event where
  /-- A run of characters outside markup, as it was written. -/
  | text (content : List Char)
  | start (tag : Tag)
  | empty (tag : Tag)
  | stop (name : List Char)
  | comment
  | instruction
  | characterData
  | documentType
  deriving DecidableEq, Repr

/-! ## Attributes -/

/-- The first attribute of a text, its value as it was written, and the text behind it. White
space may stand around the equals sign; the value must be in quotation marks. -/
def attribute? : List Char → Option ((List Char × List Char) × List Char)
  | [] => none
  | c :: cs =>
    let name := c :: cs.takeWhile fun d => !(d == '=' || isSpace d)
    match (cs.dropWhile fun d => !(d == '=' || isSpace d)).dropWhile isSpace with
    | '=' :: r =>
      match r.dropWhile isSpace with
      | q :: r =>
        if isQuote q && r.contains q then
          some ((name, r.takeWhile (· != q)), (r.dropWhile (· != q)).drop 1)
        else none
      | [] => none
    | _ => none

theorem attribute?_length {cs r : List Char} {a : List Char × List Char}
    (h : attribute? cs = some (a, r)) : r.length < cs.length := by
  cases cs with
  | nil => simp [attribute?] at h
  | cons c cs =>
    simp only [attribute?] at h
    split at h
    · rename_i r₁ h₁
      split at h
      · rename_i q r₂ h₂
        split at h
        · simp only [Option.some.injEq, Prod.mk.injEq] at h
          obtain ⟨_, rfl⟩ := h
          have b₀ := length_dropWhile_le (fun d => !(d == '=' || isSpace d)) cs
          have b₁ := length_dropWhile_le isSpace (cs.dropWhile fun d => !(d == '=' || isSpace d))
          have b₂ := length_dropWhile_le isSpace r₁
          have b₃ := length_dropWhile_le (· != q) r₂
          rw [h₁] at b₁
          rw [h₂] at b₂
          simp only [List.length_cons, List.length_drop] at *
          omega
        · simp at h
      · simp at h
    · simp at h

/-- The attributes of a text in order, with values as they were written; `none` if one of them is
malformed. -/
def rawAttributes? (cs : List Char) : Option (List (List Char × List Char)) :=
  match cs.dropWhile isSpace, length_dropWhile_le isSpace cs with
  | [], _ => some []
  | c :: r, hle =>
    match h : attribute? (c :: r) with
    | none => none
    | some (a, r') =>
      have : r'.length < cs.length := Nat.lt_of_lt_of_le (attribute?_length h) hle
      (rawAttributes? r').map (a :: ·)
termination_by cs.length

/-- The attributes of a tag in order, with values by `unescape`; `none` if one of them is malformed
or a name occurs twice. -/
def Tag.attributes? (t : Tag) : Option (List (String × String)) := do
  let raw ← rawAttributes? t.inside
  guard (raw.map (·.1)).Nodup
  return raw.map fun a => (String.ofList a.1, String.ofList (unescape a.2))

/-! ## Constructs -/

/-- The name of an end tag: its inside without white space at the end. White space alone is a
name. -/
def endName (inside : List Char) : List Char :=
  if inside.all isSpace then inside else (inside.reverse.dropWhile isSpace).reverse

/-- The tag with a given inside. -/
def Tag.ofInside (inside : List Char) : Tag where
  name := inside.takeWhile fun c => !isSpace c
  inside := inside.dropWhile fun c => !isSpace c

/-- The fault of a tag that has no end. -/
def unclosedTag : Option Char → Fault
  | some q => .unclosed (.attributeValue q)
  | none => .unclosed .tag

/-- Whether the text behind `<?` begins an XML declaration. -/
def isDeclaration (cs : List Char) : Bool :=
  ['x', 'm', 'l'].isPrefixOf cs && (cs.drop 3).head?.all fun c => c == '?' || isSpace c

/-- The construct behind `<!`: a comment, a section of character data, or a document type. -/
def readDeclaration (cs : List Char) : Except Fault (Event × List Char) :=
  match cs with
  | '-' :: _ =>
    if ['-', '-'].isPrefixOf cs then
      match after? ['-', '-', '>'] (cs.drop 2) with
      | some r => .ok (.comment, r)
      | none => .error (.unclosed .comment)
    else .error (.unclosed .comment)
  | '[' :: _ =>
    if "[CDATA[".toList.isPrefixOf cs then
      match after? [']', ']', '>'] (cs.drop 7) with
      | some r => .ok (.characterData, r)
      | none => .error (.unclosed .characterData)
    else .error (.unclosed .characterData)
  | c :: _ =>
    if c = 'D' ∨ c = 'd' then
      if "DOCTYPE".toList.isPrefixOf ((cs.take 7).map Char.toUpper) then
        match afterDocumentType? none (cs.drop 7) with
        | some r =>
          if ((cs.drop 7).dropWhile isSpace).head? = some '>' then .error .missingDocumentTypeName
          else .ok (.documentType, r)
        | none => .error (.unclosed .documentType)
      else .error (.unclosed .documentType)
    else .error .unknownMarkup
  | [] => .error .unknownMarkup

/-- The construct behind `<`, given the names of the open elements, innermost first; also the
names that are open after it, and the rest of the text. -/
def readMarkup (nesting : List (List Char)) (cs : List Char) :
    Except Fault (Event × List (List Char) × List Char) :=
  match cs with
  | [] => .error (.unclosed .tag)
  | '?' :: '>' :: _ => .error (.unclosed .instruction)
  | '?' :: r =>
    match after? ['?', '>'] r with
    | some r' => .ok (.instruction, nesting, r')
    | none => .error (.unclosed (if isDeclaration r then .declaration else .instruction))
  | '!' :: r => do
    let (e, r') ← readDeclaration r
    return (e, nesting, r')
  | '/' :: r =>
    match splitTag none [] r with
    | .error q => .error (unclosedTag q)
    | .ok (inside, r') =>
      let name := endName inside
      match nesting with
      | [] => .error (.unmatchedEnd (String.ofList name))
      | innermost :: outer =>
        if innermost = name then .ok (.stop name, outer, r')
        else .error (.mismatchedEnd (String.ofList innermost) (String.ofList name))
  | _ =>
    match splitTag none [] cs with
    | .error q => .error (unclosedTag q)
    | .ok (inside, r) =>
      if inside.getLast? = some '/' then .ok (.empty (Tag.ofInside inside.dropLast), nesting, r)
      else
        let tag := Tag.ofInside inside
        .ok (.start tag, tag.name :: nesting, r)

/-- The first construct of the text `c :: cs`, as in `readMarkup`. -/
def readEvent (nesting : List (List Char)) (c : Char) (cs : List Char) :
    Except Fault (Event × List (List Char) × List Char) :=
  if c = '<' then readMarkup nesting cs
  else
    let (content, rest) := splitText [c] cs
    if referencesClosed false content then .ok (.text content, nesting, rest)
    else .error .unclosedReference

theorem readDeclaration_length {cs r : List Char} {e : Event}
    (h : readDeclaration cs = .ok (e, r)) : r.length ≤ cs.length := by
  unfold readDeclaration at h
  split at h
  · split at h
    · split at h
      · rename_i ha
        simp only [Except.ok.injEq, Prod.mk.injEq] at h; obtain ⟨_, rfl⟩ := h
        have := after?_length ha; simp only [List.length_drop] at this; omega
      · simp at h
    · simp at h
  · split at h
    · split at h
      · rename_i ha
        simp only [Except.ok.injEq, Prod.mk.injEq] at h; obtain ⟨_, rfl⟩ := h
        have := after?_length ha; simp only [List.length_drop] at this; omega
      · simp at h
    · simp at h
  · split at h
    · split at h
      · split at h
        · rename_i ha
          split at h
          · simp at h
          · simp only [Except.ok.injEq, Prod.mk.injEq] at h; obtain ⟨_, rfl⟩ := h
            have := afterDocumentType?_length ha; simp only [List.length_drop] at this; omega
        · simp at h
      · simp at h
    · simp at h
  · simp at h

theorem readMarkup_length {nesting outer : List (List Char)} {cs r : List Char} {e : Event}
    (h : readMarkup nesting cs = .ok (e, outer, r)) : r.length ≤ cs.length := by
  unfold readMarkup at h
  split at h
  · simp at h
  · simp at h
  · split at h
    · rename_i ha
      simp only [Except.ok.injEq, Prod.mk.injEq] at h; obtain ⟨_, _, rfl⟩ := h
      have := after?_length ha; simp only [List.length_cons]; omega
    · simp at h
  · rename_i r₀
    cases hd : readDeclaration r₀ with
    | error f => simp [hd, bind, Except.bind] at h
    | ok p =>
      obtain ⟨e', r'⟩ := p
      simp only [hd, bind, Except.bind, pure, Except.pure, Except.ok.injEq, Prod.mk.injEq] at h
      obtain ⟨_, _, rfl⟩ := h
      have := readDeclaration_length hd; simp only [List.length_cons]; omega
  · split at h
    · simp at h
    · rename_i ht
      have := splitTag_length ht
      dsimp only at h
      split at h
      · simp at h
      · split at h
        · simp only [Except.ok.injEq, Prod.mk.injEq] at h; obtain ⟨_, _, rfl⟩ := h
          simp only [List.length_cons]; omega
        · simp at h
  · split at h
    · simp at h
    · rename_i ht
      have := splitTag_length ht
      split at h <;>
        (simp only [Except.ok.injEq, Prod.mk.injEq] at h; obtain ⟨_, _, rfl⟩ := h; omega)

/-- Every construct takes at least one character. -/
theorem readEvent_length {nesting outer : List (List Char)} {c : Char} {cs r : List Char}
    {e : Event} (h : readEvent nesting c cs = .ok (e, outer, r)) : r.length ≤ cs.length := by
  unfold readEvent at h
  split at h
  · exact readMarkup_length h
  · dsimp only at h
    split at h
    · simp only [Except.ok.injEq, Prod.mk.injEq] at h; obtain ⟨_, _, rfl⟩ := h
      exact length_splitText [c] cs
    · simp at h

/-! ## Documents -/

/-- The constructs of a text up to its first fault, and that fault; `nesting` names the elements
that are open in front of the text, innermost first. -/
def eventsWithin (nesting : List (List Char)) : List Char → List Event × Option Fault
  | [] => ([], none)
  | c :: cs =>
    match h : readEvent nesting c cs with
    | .error f => ([], some f)
    | .ok (e, nesting', r) =>
      have := readEvent_length h
      let (es, f) := eventsWithin nesting' r
      (e :: es, f)
termination_by cs => cs.length
decreasing_by
  simp only [List.length_cons]
  omega

/-- The constructs of a document up to its first fault, and that fault. A byte order mark at the
front does not count. -/
def events (text : List Char) : List Event × Option Fault :=
  match text with
  | '\uFEFF' :: r => eventsWithin [] r
  | _ => eventsWithin [] text

end OpenDocument.Markup
