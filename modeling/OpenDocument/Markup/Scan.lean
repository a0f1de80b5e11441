/-!
# OpenDocument.Markup.Scan

Where the pieces of a markup text end. Each function returns what stands behind a piece, and its
lemma says that this is shorter than the text it was given, which is what reading terminates by.
-/

namespace OpenDocument.Markup

/-- The white space of markup. -/
def isSpace (c : Char) : Bool :=
  c == ' ' || c == '\t' || c == '\r' || c == '\n'

/-- The quotation marks of markup. -/
def isQuote (c : Char) : Bool :=
  c == '"' || c == '\''

/-- What is left after skipping is no longer than the text. -/
theorem length_dropWhile_le (p : Char → Bool) (cs : List Char) :
    (cs.dropWhile p).length ≤ cs.length :=
  (List.dropWhile_sublist p).length_le

/-- What follows the first occurrence of a pattern. -/
def after? (pattern : List Char) : List Char → Option (List Char)
  | [] => none
  | c :: cs => if pattern.isPrefixOf (c :: cs) then some ((c :: cs).drop pattern.length)
    else after? pattern cs

theorem after?_length {pattern : List Char} {cs r : List Char} (h : after? pattern cs = some r) :
    r.length ≤ cs.length := by
  induction cs with
  | nil => simp [after?] at h
  | cons c cs ih =>
    simp only [after?] at h
    split at h
    · simp only [Option.some.injEq] at h
      subst h; simp only [List.length_drop]; omega
    · have := ih h; simp only [List.length_cons]; omega

/-- The text in front of the next `<`, behind the characters `seen` in reverse, and what follows
from that `<` on. -/
def splitText (seen : List Char) : List Char → List Char × List Char
  | [] => (seen.reverse, [])
  | c :: cs => if c = '<' then (seen.reverse, c :: cs) else splitText (c :: seen) cs

theorem length_splitText (seen cs : List Char) : (splitText seen cs).2.length ≤ cs.length := by
  induction cs generalizing seen with
  | nil => simp [splitText]
  | cons c cs ih =>
    simp only [splitText]
    split
    · exact Nat.le_refl _
    · have := ih (c :: seen); simp only [List.length_cons]; omega

/-- The inside of a tag up to the first `>` outside quotation marks, and what follows that `>`.
On failure the answer is the quotation mark that is still open, if there is one. `quote` is the
quotation mark that is open at the start, `seen` the inside so far, last character first. -/
def splitTag (quote : Option Char) (seen : List Char) :
    List Char → Except (Option Char) (List Char × List Char)
  | [] => .error quote
  | c :: cs =>
    match quote with
    | some q => splitTag (if c = q then none else some q) (c :: seen) cs
    | none =>
      if c = '>' then .ok (seen.reverse, cs)
      else splitTag (if isQuote c then some c else none) (c :: seen) cs

theorem splitTag_length {quote : Option Char} {seen cs inside r : List Char}
    (h : splitTag quote seen cs = .ok (inside, r)) : r.length < cs.length := by
  induction cs generalizing quote seen with
  | nil => simp [splitTag] at h
  | cons c cs ih =>
    simp only [splitTag] at h
    split at h
    · have := ih h; simp only [List.length_cons]; omega
    · split at h
      · simp only [Except.ok.injEq, Prod.mk.injEq] at h
        obtain ⟨_, rfl⟩ := h; simp
      · have := ih h; simp only [List.length_cons]; omega

/-- The declarations of an internal subset whose values may be in quotation marks. -/
def quotedDeclarations : List (List Char) :=
  ["!ENTITY".toList, "!ATTLIST".toList, "!NOTATION".toList]

/-- What follows a piece of an internal subset, given the text behind its `<`. A comment and an
instruction have ends of their own, some declarations may hold a `>` in quotation marks, and
everything else ends at its first `>`. -/
def afterDeclaration? (cs : List Char) : Option (List Char) :=
  if ['!', '-', '-'].isPrefixOf cs then after? ['-', '-', '>'] (cs.drop 3)
  else if ['?'].isPrefixOf cs then after? ['?', '>'] (cs.drop 1)
  else if quotedDeclarations.any fun word => word.isPrefixOf cs then
    match splitTag none [] cs with
    | .ok (_, r) => some r
    | .error _ => none
  else after? ['>'] cs

theorem afterDeclaration?_length {cs r : List Char} (h : afterDeclaration? cs = some r) :
    r.length ≤ cs.length := by
  simp only [afterDeclaration?] at h
  split at h
  · have := after?_length h; simp only [List.length_drop] at this; omega
  · split at h
    · have := after?_length h; simp only [List.length_drop] at this; omega
    · split at h
      · split at h
        · rename_i hs
          simp only [Option.some.injEq] at h; subst h
          exact Nat.le_of_lt (splitTag_length hs)
        · simp at h
      · exact after?_length h

/-- What follows a document type declaration, given the text behind the `[` of its internal
subset. A `]` outside all pieces ends the subset, and the next `>` the declaration. -/
def afterSubset? : List Char → Option (List Char)
  | [] => none
  | c :: cs =>
    if c = ']' then after? ['>'] cs
    else if c = '<' then
      match _h : afterDeclaration? cs with
      | some r => afterSubset? r
      | none => none
    else afterSubset? cs
termination_by cs => cs.length
decreasing_by
  · have := afterDeclaration?_length _h; simp only [List.length_cons]; omega
  · simp

theorem afterSubset?_length {cs r : List Char} (h : afterSubset? cs = some r) :
    r.length ≤ cs.length := by
  fun_induction afterSubset? cs with
  | case1 => simp at h
  | case2 => have := after?_length h; simp only [List.length_cons]; omega
  | case3 cs r hr _ ih =>
    have := ih h
    have := afterDeclaration?_length hr
    simp only [List.length_cons]; omega
  | case4 => simp at h
  | case5 c cs _ _ ih => have := ih h; simp only [List.length_cons]; omega

/-- What follows a document type declaration. It ends at its first `>` outside quotation marks, or
behind its internal subset, which begins at the first `[` outside quotation marks. `quote` is the
quotation mark that is open at the start. -/
def afterDocumentType? (quote : Option Char) : List Char → Option (List Char)
  | [] => none
  | c :: cs =>
    match quote with
    | some q => afterDocumentType? (if c = q then none else some q) cs
    | none =>
      if c = '>' then some cs
      else if c = '[' then afterSubset? cs
      else afterDocumentType? (if isQuote c then some c else none) cs

theorem afterDocumentType?_length {quote : Option Char} {cs r : List Char}
    (h : afterDocumentType? quote cs = some r) : r.length ≤ cs.length := by
  induction cs generalizing quote with
  | nil => simp [afterDocumentType?] at h
  | cons c cs ih =>
    simp only [afterDocumentType?] at h
    split at h
    · have := ih h; simp only [List.length_cons]; omega
    · split at h
      · simp only [Option.some.injEq] at h; subst h; simp
      · split at h
        · have := afterSubset?_length h; simp only [List.length_cons]; omega
        · have := ih h; simp only [List.length_cons]; omega

/-- Whether every `&` of a text is followed by a `;` before the next `&`; `pending` says that one
in front of the text still waits for its `;`. -/
def referencesClosed (pending : Bool) : List Char → Bool
  | [] => !pending
  | c :: cs =>
    if c = '&' then !pending && referencesClosed true cs
    else referencesClosed (pending && c != ';') cs

end OpenDocument.Markup
