import OpenDocument.Proofs.Manifest.Inverse

/-!
# OpenDocument.Proofs.Manifest.Nesting

A manifest read by nesting.  `parse` takes in the tags in document order and does not look at where
elements end, so a descriptor goes to the entry met last.  `parseNested` gives it to the entry that
it stands in, and refuses it where there is none.  If no entry stands inside another one, the two
readers agree on every document but those that `parseNested` refuses for a stray element
(`nested_of_isFlat`).
-/

namespace OpenDocument

namespace Manifest

/-! ## Order -/

/-- The tag of a construct that begins an element, a `start` tag or an `empty` one. -/
def tag? : Markup.Event → Option Markup.Tag
  | .start t | .empty t => some t
  | _ => none

/-- A `Reading` depends on nothing but the tags that begin elements, in document order. -/
theorem foldlM_event_eq_tags (r : Reading) (es : List Markup.Event) :
    es.foldlM Reading.event r = (es.filterMap tag?).foldlM Reading.tag r := by
  induction es generalizing r with
  | nil => rfl
  | cons e es ih =>
      cases e with
      | start t | empty t =>
          rw [List.foldlM_cons, List.filterMap_cons, tag?, List.foldlM_cons]
          exact bind_congr ih
      | text | stop | comment | instruction | characterData | documentType => exact ih r

/-- **Nesting has no part in a manifest.**  Documents are read alike by `parse` if they have the
same tags in the same order and the same fault of syntax, or none, wherever the elements end. -/
theorem parse_congr {document document' : String}
    (htags : (Markup.events document.toList).1.filterMap tag?
      = (Markup.events document'.toList).1.filterMap tag?)
    (hfault : (Markup.events document.toList).2 = (Markup.events document'.toList).2) :
    parse document = parse document' := by
  rw [parse, parse]
  simp only [foldlM_event_eq_tags, htags, hfault]

/-! ## Nesting -/

/-- Do something for the entry of a number, counted from the first one, as if it had been met
last. -/
def Reading.atEntry (r : Reading) (i : Nat) (f : Reading → Except Error Reading) :
    Except Error Reading := do
  let later := r.entries.length - (i + 1)
  let r' ← f { r with entries := r.entries.drop later }
  return { r' with entries := r.entries.take later ++ r'.entries }

/-- Where a place in a document stands: the entry around it, and the entry of the descriptor around
it, by their numbers. -/
structure Scope where
  entry : Option Nat := none
  descriptor : Option Nat := none
  deriving DecidableEq, Repr

/-- A reading by nesting: what was read so far, and the `Scope` of the content of each open element,
innermost one first. -/
structure Nested where
  reading : Reading := {}
  scopes : List Scope := []

namespace Nested

/-- The `Scope` in which the next construct stands. -/
def scope (n : Nested) : Scope :=
  n.scopes.headD {}

/-- Take in an entry by `Reading.fileEntry`.  Its content stands in it, but around the content of
the package element there is no entry. -/
def fileEntry (n : Nested) (as : Attributes) : Except Error (Reading × Scope) := do
  let r ← n.reading.fileEntry as
  let isPackage := as.lookup "manifest:full-path" == some "/"
  return (r, { n.scope with entry := if isPackage then none else some n.reading.entries.length })

/-- Take in the beginning of a descriptor by `Reading.encryptionData`, for the entry around it. -/
def encryptionData (n : Nested) (as : Attributes) : Except Error (Reading × Scope) :=
  match n.scope.entry with
  | none => .error (.format .strayDescriptor)
  | some i => do
    return (← n.reading.atEntry i (·.encryptionData as), { n.scope with descriptor := some i })

/-- Take in a part of the descriptor around it, by `f` at its entry. -/
def part (n : Nested) (f : Reading → Except Error Reading) : Except Error (Reading × Scope) :=
  match n.scope.descriptor with
  | none => .error (.format .strayDescriptorPart)
  | some i => do return (← n.reading.atEntry i f, n.scope)

/-- Take in an element by its name, and find where its content stands. -/
def element (n : Nested) (name : String) (as : Attributes) : Except Error (Reading × Scope) :=
  match name with
  | "manifest:file-entry" => n.fileEntry as
  | "manifest:encryption-data" => n.encryptionData as
  | "manifest:algorithm" => n.part (·.algorithm as)
  | "manifest:start-key-generation" => n.part (·.startKey as)
  | "manifest:key-derivation" => n.part (·.keyDerivation as)
  | _ => .ok (n.reading, n.scope)

/-- Take in a start tag or empty tag. -/
def tag (n : Nested) (t : Markup.Tag) : Except Error (Reading × Scope) :=
  match t.attributes? with
  | none => .error (.format .invalidAttribute)
  | some as => n.element (String.ofList t.name) as

/-- Take in one construct of the document. -/
def event (n : Nested) : Markup.Event → Except Error Nested
  | .start t => do
    let (reading, scope) ← n.tag t
    return { reading, scopes := scope :: n.scopes }
  | .empty t => do
    let (reading, _) ← n.tag t
    return { n with reading }
  | .stop _ => .ok { n with scopes := n.scopes.tail }
  | _ => .ok n

end Nested

/-- The manifest of a document, read by nesting; compare `parse`. -/
def parseNested (document : String) : Except Error Manifest :=
  let (events, fault) := Markup.events document.toList
  match events.foldlM Nested.event {} with
  | .error e => .error e
  | .ok n =>
    match fault with
    | some f => .error (.markup (.manifest f))
    | none => n.reading.manifest

/-! ## Entries side by side -/

/-- The name of the element of an entry. -/
def entryName : String := "manifest:file-entry"

/-- The names of the open elements behind a construct, innermost one first. -/
def namesAfter (names : List String) : Markup.Event → List String
  | .start t => String.ofList t.name :: names
  | .stop _ => names.tail
  | _ => names

/-- Whether no `entryName` is opened inside another one, in elements of the given names. -/
def isFlat : List String → List Markup.Event → Bool
  | _, [] => true
  | names, e :: es =>
    (!(tag? e).any (String.ofList ·.name == entryName) || !names.contains entryName)
      && isFlat (namesAfter names e) es

theorem isFlat_cons_iff {names : List String} {e : Markup.Event} {es : List Markup.Event} :
    isFlat names (e :: es) = true
      ↔ (∀ t, tag? e = some t → String.ofList t.name = entryName → entryName ∉ names)
        ∧ isFlat (namesAfter names e) es = true := by
  rw [isFlat, Bool.and_eq_true, Bool.or_eq_true]
  refine and_congr_left' ?_
  cases tag? e <;> simp [or_iff_not_imp_left]

/-- Where the content of open elements with these names stands, if none of them is that of an entry
inside another one and `count` entries were met: outside of an entry there is nothing around it, and
inside nothing but the entry met last. -/
inductive Fits (count : Nat) : List String → List Scope → Prop
  | nil : Fits count [] []
  | outside {name : String} {names : List String} {scopes : List Scope}
      (h : Fits count names scopes) (hn : entryName ∉ name :: names) :
      Fits count (name :: names) ({} :: scopes)
  | inside {name : String} {names : List String} {scope : Scope} {scopes : List Scope}
      (h : Fits count names scopes) (hn : entryName ∈ name :: names)
      (he : ∀ i, scope.entry = some i → i + 1 = count)
      (hd : ∀ i, scope.descriptor = some i → i + 1 = count) :
      Fits count (name :: names) (scope :: scopes)

namespace Fits

variable {count : Nat} {names : List String} {scopes : List Scope}

/-- Outside of an entry `Fits` does not depend on the number of entries. -/
theorem of_not_mem (h : Fits count names scopes) (hn : entryName ∉ names) (count' : Nat) :
    Fits count' names scopes := by
  induction h with
  | nil => exact .nil
  | outside h hout ih => exact .outside (ih fun hm => hn (List.mem_cons_of_mem _ hm)) hn
  | inside h hin => exact absurd hin hn

/-- Outside of an entry the next construct stands in the empty `Scope`. -/
theorem headD_eq (h : Fits count names scopes) (hn : entryName ∉ names) : scopes.headD {} = {} := by
  cases h with
  | nil | outside => rfl
  | inside h hin => exact absurd hin hn

/-- Whatever stands around the next construct was met last: it is entry number `count - 1`. -/
theorem headD_last (h : Fits count names scopes) :
    (∀ i, (scopes.headD {}).entry = some i → i + 1 = count)
      ∧ ∀ i, (scopes.headD {}).descriptor = some i → i + 1 = count := by
  cases h with
  | nil | outside => exact ⟨nofun, nofun⟩
  | inside h hn he hd => exact ⟨he, hd⟩

/-- The end of an element keeps `Fits`. -/
theorem tail (h : Fits count names scopes) : Fits count names.tail scopes.tail := by
  cases h with
  | nil => exact .nil
  | outside h | inside h => exact h

/-- The beginning of an element whose content stands where it does itself keeps `Fits`. -/
theorem push (h : Fits count names scopes) {name : String} (hname : name ≠ entryName) :
    Fits count (name :: names) (scopes.headD {} :: scopes) := by
  by_cases hn : entryName ∈ names
  · exact .inside h (List.mem_cons_of_mem _ hn) h.headD_last.1 h.headD_last.2
  · rw [h.headD_eq hn]
    exact .outside h (by simp [hn, Ne.symm hname])

end Fits

/-! ## Agreement -/

/-- How a computation that may stop at a stray element compares to one that does not: it stops
there, or both stop at the same error, or both go on with results for which `R` holds. -/
inductive Compares {β γ : Type} (R : β → γ → Prop) : Except Error β → Except Error γ → Prop
  | stray {y : Except Error γ} : Compares R (.error (.format .strayDescriptor)) y
  | strayPart {y : Except Error γ} : Compares R (.error (.format .strayDescriptorPart)) y
  | refused (e : Error) : Compares R (.error e) (.error e)
  | read {b : β} {c : γ} (h : R b c) : Compares R (.ok b) (.ok c)

theorem Compares.bind {β γ β' γ' : Type} {R : β → γ → Prop} {S : β' → γ' → Prop}
    {x : Except Error β} {y : Except Error γ} {f : β → Except Error β'} {g : γ → Except Error γ'}
    (h : Compares R x y) (hfg : ∀ b c, R b c → Compares S (f b) (g c)) :
    Compares S (x >>= f) (y >>= g) := by
  cases h with
  | stray => exact .stray
  | strayPart => exact .strayPart
  | refused e => exact .refused e
  | read h => exact hfg _ _ h

theorem Compares.refl {β : Type} (x : Except Error β) : Compares Eq x x := by
  cases x with
  | error e => exact .refused e
  | ok b => exact .read rfl

namespace Reading

variable {r r' : Reading} {as : Attributes}

/-- An element that `fileEntry` takes in is one entry more, but for the package. -/
theorem entries_of_fileEntry (h : r.fileEntry as = .ok r') :
    as.lookup "manifest:full-path" = some "/" ∧ r'.entries = r.entries
      ∨ as.lookup "manifest:full-path" ≠ some "/" ∧ ∃ e, r'.entries = e :: r.entries := by
  obtain ⟨path, hp, h⟩ := exists_of_bind_eq_ok h
  have hlookup : as.lookup "manifest:full-path" = some path := by
    unfold Attributes.required at hp
    split at hp
    · next v hv =>
        cases hp
        exact hv
    · cases hp
  by_cases hroot : path = "/"
  · simp only [hroot, if_true] at h
    cases h
    exact .inl ⟨by rw [hlookup, hroot], rfl⟩
  · simp only [hroot, if_false] at h
    obtain ⟨size, -, h⟩ := exists_of_bind_eq_ok h
    cases h
    exact .inr ⟨by simp [hlookup, hroot], _, rfl⟩

theorem length_of_encryptionData (h : r.encryptionData as = .ok r') :
    r'.entries.length = r.entries.length := by
  unfold encryptionData at h
  split at h
  · cases h
  · next entry earlier he =>
      obtain ⟨checksumType, -, h⟩ := exists_of_bind_eq_ok h
      obtain ⟨checksum, -, h⟩ := exists_of_bind_eq_ok h
      obtain ⟨compressedSize, -, h⟩ := exists_of_bind_eq_ok h
      cases h
      rw [he]
      rfl

theorem length_of_withDescriptor {f : Descriptor → Except Error Descriptor}
    (h : r.withDescriptor f = .ok r') : r'.entries.length = r.entries.length := by
  unfold withDescriptor at h
  split at h
  · cases h
  · next entry earlier he =>
      split at h
      · cases h
      · obtain ⟨d, -, h⟩ := exists_of_bind_eq_ok h
        cases h
        rw [he]
        rfl

/-- Elements of other names say nothing. -/
theorem element_of_ne {name : String} (h₁ : name ≠ "manifest:file-entry")
    (h₂ : name ≠ "manifest:encryption-data") (h₃ : name ≠ "manifest:algorithm")
    (h₄ : name ≠ "manifest:start-key-generation") (h₅ : name ≠ "manifest:key-derivation") :
    r.element name as = .ok r := by
  unfold element
  split
  · exact absurd rfl h₁
  · exact absurd rfl h₂
  · exact absurd rfl h₃
  · exact absurd rfl h₄
  · exact absurd rfl h₅
  · rfl

/-- What `atEntry` does for the entry met last is done as by the order. -/
theorem atEntry_last {i : Nat} (hi : i + 1 = r.entries.length)
    (f : Reading → Except Error Reading) : r.atEntry i f = f r := by
  simp only [atEntry, hi, Nat.sub_self, List.drop_zero, List.take_zero, List.nil_append]
  exact bind_pure _

end Reading

section

variable {n : Nested} {names : List String} {as : Attributes}

/-- An element of an entry that is not inside another one `Compares` by nesting and by order. -/
theorem compares_fileEntry (h : Fits n.reading.entries.length names n.scopes)
    (hn : entryName ∉ names) :
    Compares (fun p r => p.1 = r ∧ Fits r.entries.length (entryName :: names) (p.2 :: n.scopes))
      (n.fileEntry as) (n.reading.fileEntry as) := by
  have hscope : n.scope = {} := h.headD_eq hn
  unfold Nested.fileEntry
  cases hr : n.reading.fileEntry as with
  | error e => exact .refused e
  | ok r =>
      -- the entry is the one met last, and nothing else stands around it
      refine .read ⟨rfl, .inside (h.of_not_mem hn _) List.mem_cons_self ?_ ?_⟩
      · intro i hi
        rcases Reading.entries_of_fileEntry hr with ⟨hl, -⟩ | ⟨hl, e, he⟩
        · simp [hl] at hi
        · have hi : n.reading.entries.length = i := by simpa [hl] using hi
          rw [he, List.length_cons, hi]
      · simp [hscope]

/-- The element of a descriptor `Compares`. -/
theorem compares_encryptionData (h : Fits n.reading.entries.length names n.scopes)
    {name : String} :
    Compares (fun p r => p.1 = r ∧ Fits r.entries.length (name :: names) (p.2 :: n.scopes))
      (n.encryptionData as) (n.reading.encryptionData as) := by
  unfold Nested.encryptionData
  cases hi : n.scope.entry with
  | none => exact .stray
  | some i =>
      have hlast := h.headD_last.1 i hi
      have hn : entryName ∈ names := by
        by_contra hn
        rw [Nested.scope, h.headD_eq hn] at hi
        cases hi
      simp only [Reading.atEntry_last hlast]
      cases hr : n.reading.encryptionData as with
      | error e => exact .refused e
      | ok r =>
          refine .read ⟨rfl, ?_⟩
          rw [Reading.length_of_encryptionData hr]
          refine .inside h (List.mem_cons_of_mem _ hn) h.headD_last.1 fun j hj => ?_
          cases hj
          exact hlast

/-- The element of a part of a descriptor `Compares`. -/
theorem compares_part (h : Fits n.reading.entries.length names n.scopes) {name : String}
    (hname : name ≠ entryName) {f : Reading → Except Error Reading}
    (hf : ∀ r r', f r = .ok r' → r'.entries.length = r.entries.length) :
    Compares (fun p r => p.1 = r ∧ Fits r.entries.length (name :: names) (p.2 :: n.scopes))
      (n.part f) (f n.reading) := by
  unfold Nested.part
  cases hi : n.scope.descriptor with
  | none => exact .strayPart
  | some i =>
      simp only [Reading.atEntry_last (h.headD_last.2 i hi)]
      cases hr : f n.reading with
      | error e => exact .refused e
      | ok r =>
          refine .read ⟨rfl, ?_⟩
          rw [hf _ _ hr]
          exact h.push hname

/-- An element `Compares`, if it is not that of an entry inside another one. -/
theorem compares_element (h : Fits n.reading.entries.length names n.scopes) {name : String}
    (hflat : name = entryName → entryName ∉ names) :
    Compares (fun p r => p.1 = r ∧ Fits r.entries.length (name :: names) (p.2 :: n.scopes))
      (n.element name as) (n.reading.element name as) := by
  unfold Nested.element
  split
  · exact compares_fileEntry h (hflat rfl)
  · exact compares_encryptionData h
  · exact compares_part h (by decide) fun _ _ hr => Reading.length_of_withDescriptor hr
  · exact compares_part h (by decide) fun _ _ hr => Reading.length_of_withDescriptor hr
  · exact compares_part h (by decide) fun _ _ hr => Reading.length_of_withDescriptor hr
  · next h₁ h₂ h₃ h₄ h₅ =>
      rw [Reading.element_of_ne h₁ h₂ h₃ h₄ h₅]
      exact .read ⟨rfl, h.push h₁⟩

/-- A tag `Compares`, if it does not begin an entry inside another one. -/
theorem compares_tag (h : Fits n.reading.entries.length names n.scopes) {t : Markup.Tag}
    (hflat : String.ofList t.name = entryName → entryName ∉ names) :
    Compares (fun p r => p.1 = r
        ∧ Fits r.entries.length (String.ofList t.name :: names) (p.2 :: n.scopes))
      (n.tag t) (n.reading.tag t) := by
  rw [Nested.tag, Reading.tag]
  cases t.attributes? with
  | none => exact .refused _
  | some as => exact compares_element h hflat

/-- A construct `Compares`, if it does not begin an entry inside another one. -/
theorem compares_event (h : Fits n.reading.entries.length names n.scopes) {e : Markup.Event}
    (hflat : ∀ t, tag? e = some t → String.ofList t.name = entryName → entryName ∉ names) :
    Compares (fun n' r => n'.reading = r ∧ Fits r.entries.length (namesAfter names e) n'.scopes)
      (n.event e) (n.reading.event e) := by
  cases e with
  | start t =>
      rw [Nested.event, Reading.event, ← bind_pure (n.reading.tag t)]
      refine (compares_tag h (hflat t rfl)).bind ?_
      rintro ⟨reading, scope⟩ r ⟨hr, hfits⟩
      exact .read ⟨hr, hfits⟩
  | empty t =>
      rw [Nested.event, Reading.event, ← bind_pure (n.reading.tag t)]
      refine (compares_tag h (hflat t rfl)).bind ?_
      rintro ⟨reading, scope⟩ r ⟨hr, hfits⟩
      exact .read ⟨hr, hfits.tail⟩
  | stop name => exact .read ⟨rfl, h.tail⟩
  | text | comment | instruction | characterData | documentType => exact .read ⟨rfl, h⟩

/-- Any sequence of constructs `Compares`, if `isFlat` finds no entry inside another one. -/
theorem compares_foldlM (h : Fits n.reading.entries.length names n.scopes)
    {es : List Markup.Event} (hflat : isFlat names es = true) :
    Compares (fun n' r => n'.reading = r) (es.foldlM Nested.event n)
      (es.foldlM Reading.event n.reading) := by
  induction es generalizing n names with
  | nil => exact .read rfl
  | cons e es ih =>
      obtain ⟨he, hes⟩ := isFlat_cons_iff.mp hflat
      rw [List.foldlM_cons, List.foldlM_cons]
      refine (compares_event h he).bind ?_
      rintro n' _ ⟨rfl, hfits⟩
      exact ih hfits hes

end

/-- `parseNested` and `parse` find the same manifest or the same fault, unless the first of them
stops at a stray element. -/
theorem compares_parseNested {document : String}
    (hflat : isFlat [] (Markup.events document.toList).1 = true) :
    Compares Eq (parseNested document) (parse document) := by
  have hfold := compares_foldlM (n := {}) .nil hflat
  rw [parseNested, parse]
  generalize Markup.events document.toList = events at hfold ⊢
  obtain ⟨es, fault⟩ := events
  dsimp only at hfold ⊢
  generalize es.foldlM Nested.event {} = x, es.foldlM Reading.event {} = y at hfold
  cases hfold with
  | stray => exact .stray
  | strayPart => exact .strayPart
  | refused e => exact .refused e
  | read h =>
      subst h
      exact .refl _

/-- **Reading by nesting and reading by order.**  If the document `isFlat`, what `parseNested` reads
is what `parse` reads; and what `parse` reads is read by nesting, with every descriptor in the entry
that it stands in, unless an element is stray. -/
theorem nested_of_isFlat {document : String}
    (hflat : isFlat [] (Markup.events document.toList).1 = true) (m : Manifest) :
    (parseNested document = .ok m → parse document = .ok m)
      ∧ (parse document = .ok m → parseNested document = .ok m
        ∨ parseNested document = .error (.format .strayDescriptor)
        ∨ parseNested document = .error (.format .strayDescriptorPart)) := by
  have hcompares := compares_parseNested hflat
  generalize parseNested document = x, parse document = y at hcompares
  cases hcompares with
  | stray => exact ⟨nofun, fun _ => .inr (.inl rfl)⟩
  | strayPart => exact ⟨nofun, fun _ => .inr (.inr rfl)⟩
  | refused e => exact ⟨nofun, nofun⟩
  | read h => exact ⟨fun hx => h ▸ hx, fun hy => .inl (h ▸ hy)⟩

/-- The text of a document whose descriptor stands in no entry. -/
def strayText : List Char :=
  "<manifest:manifest><manifest:file-entry manifest:full-path='/'/>".toList
    ++ "<manifest:file-entry manifest:full-path='c.xml'/>".toList
    ++ "<manifest:encryption-data manifest:checksum-type='c' manifest:checksum='AQID'/>".toList
    ++ "</manifest:manifest>".toList

/-- A document whose descriptor stands in no entry. -/
def strayDocument : String :=
  .ofList strayText

/-- `strayDocument` is flat, so what is read by nesting is read. -/
theorem nested_strayDocument :
    isFlat [] (Markup.events strayDocument.toList).1 = true
      ∧ ∀ m, (parseNested strayDocument = .ok m → parse strayDocument = .ok m)
        ∧ (parse strayDocument = .ok m → parseNested strayDocument = .ok m
          ∨ parseNested strayDocument = .error (.format .strayDescriptor)
          ∨ parseNested strayDocument = .error (.format .strayDescriptorPart)) := by
  have hflat : isFlat [] (Markup.events strayDocument.toList).1 = true := by
    rw [strayDocument, String.toList_ofList]
    decide +kernel
  exact ⟨hflat, nested_of_isFlat hflat⟩

/-- By nesting `strayDocument` is refused, by order its descriptor is that of the entry in front of
it. -/
theorem stray_descriptor_accepted :
    parseNested strayDocument = .error (.format .strayDescriptor)
      ∧ parse strayDocument = .ok { mediaType := "", entries := [⟨"c.xml", "", none, some
          { checksumType := "c", checksum := [1, 2, 3], algorithm := ""
            initialisationVector := [], startKeyGeneration := "", startKeySize := 0
            keyDerivation := "", keySize := 0, iterationCount := 0, salt := []
            compressedSize := none }⟩] } := by
  rw [parseNested, parse, strayDocument, String.toList_ofList]
  decide +kernel

/-- The text of a document with an entry inside another one, in front of the descriptor of that
one. -/
def innerEntryText : List Char :=
  "<manifest:file-entry manifest:full-path='/'/><manifest:file-entry manifest:full-path='a'>".toList
    ++ "<manifest:file-entry manifest:full-path='b'/>".toList
    ++ "<manifest:encryption-data manifest:checksum-type='' manifest:checksum=''/>".toList

/-- By order the inner entry takes the descriptor, by nesting the outer one does. -/
example : (parseNested (.ofList innerEntryText)).map (·.encrypted.map Entry.path) = .ok ["a"]
    ∧ (parse (.ofList innerEntryText)).map (·.encrypted.map Entry.path) = .ok ["b"] := by
  rw [parseNested, parse, String.toList_ofList]
  decide +kernel

/-! ## Written documents -/

/-- A fold goes on behind a step that succeeds. -/
theorem foldlM_cons_of_eq_ok {ε β γ : Type} {f : β → γ → Except ε β} {b b' : β} {c : γ}
    (h : f b c = .ok b') (cs : List γ) : (c :: cs).foldlM f b = cs.foldlM f b' := by
  rw [List.foldlM_cons, h]
  rfl

namespace Nested

theorem tag_attributesText {n : Nested} {as : Attributes} (h : Stated as) (name : String) :
    n.tag ⟨name.toList, Markup.attributesText as⟩ = n.element name as := by
  rw [tag, h.attributes?_eq, String.ofList_toList]

/-- `Nested.element` takes in the element of an entry, and its content stands in the entry. -/
theorem element_entry (n : Nested) {e : Entry} (h : e.path ≠ "/") :
    n.element "manifest:file-entry" e.attributes
      = .ok ({ n.reading with entries := { e with encryption := none } :: n.reading.entries },
        { n.scope with entry := some n.reading.entries.length }) := by
  have hpath : e.attributes.lookup "manifest:full-path" = some e.path := by
    simp [Entry.attributes]
  simp [element, fileEntry, Reading.fileEntry_attributes n.reading h, hpath, h, bind, Except.bind,
    pure, Except.pure]

/-- The root element, with `rootAttributes`, says nothing. -/
theorem tag_root (n : Nested) (m : Manifest) :
    n.tag ⟨"manifest:manifest".toList, Markup.attributesText m.rootAttributes⟩
      = .ok (n.reading, n.scope) :=
  tag_attributesText (.root m) _

/-- The element of the package, with `packageAttributes`, states its media type. -/
theorem tag_package (n : Nested) (m : Manifest) :
    n.tag ⟨"manifest:file-entry".toList, Markup.attributesText m.packageAttributes⟩
      = .ok ({ n.reading with mediaType := some m.mediaType }, { n.scope with entry := none }) := by
  have hpath : m.packageAttributes.lookup "manifest:full-path" = some "/" := by
    simp [packageAttributes]
  rw [tag_attributesText (.package m)]
  simp [element, fileEntry, Reading.fileEntry_package, hpath, bind, Except.bind, pure, Except.pure]

section

variable {r : Reading} {e : Entry} {scope : Scope} {scopes : List Scope}

/-- The element of the descriptor of the entry met last is taken in where it stands. -/
theorem event_descriptor (d : Descriptor) (hscope : scope.entry = some r.entries.length) :
    event ⟨{ r with entries := { e with encryption := none } :: r.entries }, scope :: scopes⟩
        (.start ⟨"manifest:encryption-data".toList, Markup.attributesText d.attributes⟩)
      = .ok ⟨r.within e (Reading.bare d),
          { scope with descriptor := some r.entries.length } :: scope :: scopes⟩ := by
  have hlast := Reading.atEntry_last
    (r := { r with entries := { e with encryption := none } :: r.entries })
    (i := r.entries.length) rfl (·.encryptionData d.attributes)
  simp only [event, tag_attributesText (.descriptor d), element, encryptionData, Nested.scope,
    List.headD_cons, hscope, hlast, Reading.encryptionData_attributes, bind, Except.bind, pure,
    Except.pure]

/-- A part of this descriptor is taken in where it stands. -/
theorem event_part {as : Attributes} (has : Stated as) {name : String}
    {f : Reading → Except Error Reading} (hname : ∀ n : Nested, n.element name as = n.part f)
    (hscope : scope.descriptor = some r.entries.length) {d d' : Descriptor}
    (hf : f (r.within e d) = .ok (r.within e d')) :
    event ⟨r.within e d, scope :: scopes⟩ (.empty ⟨name.toList, Markup.attributesText as⟩)
      = .ok ⟨r.within e d', scope :: scopes⟩ := by
  have hlast := Reading.atEntry_last (r := r.within e d) (i := r.entries.length) rfl f
  simp only [event, tag_attributesText has, hname, part, Nested.scope, List.headD_cons, hscope,
    hlast, hf, bind, Except.bind, pure, Except.pure]

/-- A descriptor is taken in from `Descriptor.pieces`, which leave no element open. -/
theorem foldlM_descriptor (d : Descriptor) (hscope : scope.entry = some r.entries.length) :
    (d.pieces.map Markup.Piece.event).foldlM event
        ⟨{ r with entries := { e with encryption := none } :: r.entries }, scope :: scopes⟩
      = .ok ⟨r.within e d, scope :: scopes⟩ := by
  simp only [Descriptor.pieces, List.map_cons, List.map_nil, Markup.Piece.event]
  rw [foldlM_cons_of_eq_ok (event_descriptor d hscope),
    foldlM_cons_of_eq_ok (event_part (f := (·.algorithm d.cipherAttributes)) (.cipher d)
      (fun _ => rfl) rfl (Reading.algorithm_within r e d _)),
    foldlM_cons_of_eq_ok (event_part (f := (·.startKey d.startKeyAttributes)) (.startKey d)
      (fun _ => rfl) rfl (Reading.startKey_within r e d _)),
    foldlM_cons_of_eq_ok (event_part (f := (·.keyDerivation d.derivationAttributes)) (.derivation d)
      (fun _ => rfl) rfl (Reading.keyDerivation_within r e d _))]
  rfl

end

/-- An entry is taken in from `Entry.pieces`, which leave no element open. -/
theorem foldlM_pieces (n : Nested) {e : Entry} (h : e.path ≠ "/") :
    (e.pieces.map Markup.Piece.event).foldlM event n
      = .ok { n with reading := { n.reading with entries := e :: n.reading.entries } } := by
  rw [Entry.pieces]
  cases he : e.encryption with
  | none =>
      have hself : e = { e with encryption := none } := by rw [← he]
      simp only [List.map_cons, List.map_nil, List.foldlM_cons, List.foldlM_nil,
        Markup.Piece.event, event, tag_attributesText (.entry e), element_entry n h, bind,
        Except.bind, pure, Except.pure, ← hself]
  | some d =>
      have hself : n.reading.within e d = { n.reading with entries := e :: n.reading.entries } := by
        rw [Reading.within, ← he]
      have hstart : n.event (.start ⟨"manifest:file-entry".toList,
            Markup.attributesText e.attributes⟩)
          = .ok ⟨{ n.reading with entries := { e with encryption := none } :: n.reading.entries },
            { n.scope with entry := some n.reading.entries.length } :: n.scopes⟩ := by
        simp only [event, tag_attributesText (.entry e), element_entry n h, bind, Except.bind, pure,
          Except.pure]
      simp only [List.map_cons, List.map_append, List.map_nil, Markup.Piece.event, List.cons_append]
      rw [foldlM_cons_of_eq_ok hstart, List.foldlM_append, foldlM_descriptor d rfl, ← hself]
      rfl

/-- All entries are taken in, one behind the other. -/
theorem foldlM_entries (n : Nested) {es : List Entry} (h : ∀ e ∈ es, e.path ≠ "/") :
    ((es.flatMap Entry.pieces).map Markup.Piece.event).foldlM event n
      = .ok { n with reading := { n.reading with entries := es.reverse ++ n.reading.entries } } := by
  induction es generalizing n with
  | nil => rfl
  | cons e es ih =>
      obtain ⟨he, hes⟩ := List.forall_mem_cons.mp h
      simp only [List.flatMap_cons, List.map_append, List.foldlM_append, foldlM_pieces n he,
        bind, Except.bind, ih _ hes, List.reverse_cons, List.append_assoc, List.singleton_append]

end Nested

/-- **Written manifests are nested as they are ordered.**  `parseNested` reads a manifest from its
document by `toXml`, if no entry stands for the package. -/
theorem parseNested_toXml {m : Manifest} (h : ∀ e ∈ m.entries, e.path ≠ "/") :
    parseNested m.toXml = .ok m := by
  obtain ⟨es, heq, hmarkup, -⟩ := Markup.events_render m.declaration_not_mem m.isNamed_calls
  have hread : es.foldlM Nested.event {}
      = .ok ⟨{ mediaType := some m.mediaType, entries := m.entries.reverse }, []⟩ := by
    rw [← Markup.foldlM_filter_isMarkup (fun _ _ => rfl), hmarkup, pieces_calls, pieces]
    simp only [List.map_cons, List.map_append, List.map_nil, List.foldlM_cons, List.foldlM_append,
      List.cons_append, List.nil_append, List.foldlM_nil, Markup.Piece.event, Nested.event,
      Nested.tag_root, Nested.tag_package, Nested.foldlM_entries _ h,
      bind, Except.bind, pure, Except.pure, List.append_nil, List.tail_cons]
  rw [parseNested, toXml]
  simp only [heq, hread, Reading.manifest, List.reverse_reverse]

end Manifest

end OpenDocument
