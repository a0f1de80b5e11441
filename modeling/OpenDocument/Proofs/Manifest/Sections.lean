import OpenDocument.Proofs.Manifest.Headings

/-!
# OpenDocument.Proofs.Manifest.Sections

What the entries of a manifest are composed of.  The heading of an entry and the headings behind it,
up to that of the next entry, are its section.  What one heading can do to a reading is said once,
by `Takes`; from that, every entry is composed of what its section states
(`composed_of_foldlM`).  A descriptor keeps placeholders for the parts that its section lacks
(`composed_of_parse`).
-/

namespace OpenDocument

/-- Whether a text is a number in decimal digits, with blanks around it and a plus sign in front. -/
def Text.Denotes (text : String) (n : Nat) : Prop :=
  ofDigits? (dropPlus (trim text.toList)) = some n

namespace Manifest

/-! ## What headings state -/

/-- The name of the element of a descriptor. -/
def descriptorName : String := "manifest:encryption-data"

namespace Heading

/-- The path in a heading, `manifest:full-path`. -/
def path? (h : Heading) : Option String :=
  h.attributes.lookup "manifest:full-path"

/-- The media type in a heading, which is empty if it is not stated. -/
def mediaType (h : Heading) : String :=
  (h.attributes.lookup "manifest:media-type").getD ""

/-- Whether a heading is that of the package: one named `entryName` with the path `"/"`. -/
def isPackage (h : Heading) : Bool :=
  h.name == entryName && h.path? == some "/"

/-- Whether a heading is that of an entry: one named `entryName` with another path. -/
def isEntry (h : Heading) : Bool :=
  h.name == entryName && h.path? != some "/"

/-- A heading states the path, the media type and the size of an entry. -/
structure Describes (h : Heading) (e : Entry) : Prop where
  path : h.path? = some e.path
  mediaType : h.mediaType = e.mediaType
  size : Option.Rel (fun text n => Text.Denotes text n.toNat)
    (h.attributes.lookup "manifest:size") e.size

/-- The heading of an entry says nothing of its `encryption`. -/
theorem Describes.withEncryption {h : Heading} {e : Entry} (hd : h.Describes e)
    (encryption : Option Descriptor) : h.Describes { e with encryption } :=
  ⟨hd.path, hd.mediaType, hd.size⟩

end Heading

/-- The last heading of a name, which is the one that counts. -/
def lastNamed? (name : String) (hs : List Heading) : Option Heading :=
  (hs.filter (·.name == name)).getLast?

theorem lastNamed?_concat (name : String) (hs : List Heading) (h : Heading) :
    lastNamed? name (hs ++ [h]) = if h.name = name then some h else lastNamed? name hs := by
  by_cases hname : h.name = name <;> simp [lastNamed?, hname]

/-- The heading of a descriptor and those behind it state the descriptor.  Of each part the last one
counts; where there is none, a placeholder is left. -/
structure Completes (h : Heading) (parts : List Heading) (d : Descriptor) : Prop where
  checksumType : h.attributes.lookup "manifest:checksum-type" = some d.checksumType
  checksum : h.attributes.bytes "manifest:checksum" = .ok d.checksum
  compressedSize : Option.Rel (fun text n => Text.Denotes text n.toNat)
    (h.attributes.lookup "odpack:compressed-size") d.compressedSize
  cipher : match lastNamed? "manifest:algorithm" parts with
    | some part => part.attributes.lookup "manifest:algorithm-name" = some d.algorithm
      ∧ part.attributes.bytes "manifest:initialisation-vector" = .ok d.initialisationVector
    | none => d.algorithm = "" ∧ d.initialisationVector = []
  startKey : match lastNamed? "manifest:start-key-generation" parts with
    | some part =>
      part.attributes.lookup "manifest:start-key-generation-name" = some d.startKeyGeneration
      ∧ part.attributes.size "manifest:key-size" = .ok d.startKeySize
    | none => d.startKeyGeneration = "" ∧ d.startKeySize = 0
  derivation : match lastNamed? "manifest:key-derivation" parts with
    | some part => part.attributes.lookup "manifest:key-derivation-name" = some d.keyDerivation
      ∧ part.attributes.size "manifest:key-size" = .ok d.keySize
      ∧ part.attributes.count "manifest:iteration-count" = .ok d.iterationCount
      ∧ part.attributes.bytes "manifest:salt" = .ok d.salt
    | none => d.keyDerivation = "" ∧ d.keySize = 0 ∧ d.iterationCount = 0 ∧ d.salt = []

/-- The headings behind that of an entry state its descriptor.  The last heading of a descriptor
counts, with those behind it (`Completes`). -/
inductive Encrypts : List Heading → Option Descriptor → Prop
  | clear {hs : List Heading} (h : ∀ x ∈ hs, x.name ≠ descriptorName) : Encrypts hs none
  | described {before parts : List Heading} {x : Heading} {d : Descriptor}
      (hname : x.name = descriptorName) (hlast : ∀ y ∈ parts, y.name ≠ descriptorName)
      (h : Completes x parts d) : Encrypts (before ++ x :: parts) (some d)

/-- A section states an entry with its descriptor: its heading `Describes` the entry, and those
behind it `Encrypts` it. -/
structure Composes (s : Heading × List Heading) (e : Entry) : Prop where
  heading : s.1.Describes e
  encryption : Encrypts s.2 e.encryption

/-- The sections of the entries: each heading of an entry, with those behind it up to that of the
next entry. -/
def sections : List Heading → List (Heading × List Heading)
  | [] => []
  | h :: hs =>
    if h.isEntry then (h, hs.takeWhile (!·.isEntry)) :: sections hs else sections hs

theorem map_fst_sections (hs : List Heading) :
    (sections hs).map Prod.fst = hs.filter Heading.isEntry := by
  induction hs with
  | nil => rfl
  | cons h hs ih =>
      rw [sections, List.filter_cons]
      split
      · rw [List.map_cons, ih]
      · exact ih

/-! ## One heading -/

/-- The names of the elements that are parts of a descriptor. -/
def partNames : List String :=
  ["manifest:algorithm", "manifest:start-key-generation", "manifest:key-derivation"]

theorem ne_of_mem_partNames : ∀ name ∈ partNames, name ≠ entryName ∧ name ≠ descriptorName := by
  decide

/-- What a heading that is taken in can do to a reading. -/
inductive Takes (r : Reading) (h : Heading) : Reading → Prop
  | package (hpackage : h.isPackage = true) : Takes r h { r with mediaType := some h.mediaType }
  | entry {e : Entry} (hentry : h.isEntry = true) (hstated : h.Describes e)
      (hclear : e.encryption = none) : Takes r h { r with entries := e :: r.entries }
  | descriptor {e : Entry} {earlier : List Entry} {d : Descriptor} (hname : h.name = descriptorName)
      (hr : r.entries = e :: earlier) (hd : Completes h [] d) :
      Takes r h { r with entries := { e with encryption := some d } :: earlier }
  | part {e : Entry} {earlier : List Entry} {d d' : Descriptor} (hname : h.name ∈ partNames)
      (hr : r.entries = e :: earlier) (he : e.encryption = some d)
      (hd : ∀ {x parts}, Completes x parts d → Completes x (parts ++ [h]) d') :
      Takes r h { r with entries := { e with encryption := some d' } :: earlier }
  | other (hname : h.name ∉ elementNames) : Takes r h r

section

variable {as : Attributes} {name text : String}

theorem lookup_of_required {value : String} (h : as.required name = .ok value) :
    as.lookup name = some value := by
  unfold Attributes.required at h
  split at h
  · next v hv =>
      cases h
      exact hv
  · cases h

/-- A number that `readNumber` has read is the one that the text denotes, and below its bound. -/
theorem denotes_of_readNumber {bound n : Nat} (h : Attributes.readNumber bound text = .ok n) :
    Text.Denotes text n ∧ n < bound := by
  unfold Attributes.readNumber at h
  split at h
  · next m hm =>
      cases h
      rw [Text.readDecimal?_eq, Option.filter_eq_some_iff] at hm
      exact ⟨hm.1, by simpa using hm.2⟩
  · cases h

/-- A size that `size?` reads is absent, or it is the number that is stated. -/
theorem rel_of_size? {size : Option UInt64} (h : as.size? name = .ok size) :
    Option.Rel (fun text n => Text.Denotes text n.toNat) (as.lookup name) size := by
  unfold Attributes.size? at h
  split at h
  · next hnone =>
      cases h
      rw [hnone]
      exact .none
  · next text htext =>
      obtain ⟨n, hn, h⟩ := exists_of_bind_eq_ok h
      cases h
      obtain ⟨hdenotes, hbound⟩ := denotes_of_readNumber hn
      rw [htext]
      refine .some ?_
      rwa [UInt64.toNat_ofNat_of_lt' hbound]

end

section

variable {r r' : Reading} {h : Heading}

theorem takes_fileEntry (hname : h.name = entryName) (hr : r.fileEntry h.attributes = .ok r') :
    Takes r h r' := by
  obtain ⟨path, hpath, hr⟩ := exists_of_bind_eq_ok hr
  have hlookup : h.path? = some path := lookup_of_required hpath
  by_cases hroot : path = "/"
  · simp only [hroot, if_true] at hr
    cases hr
    exact .package (by simp [Heading.isPackage, hname, hlookup, hroot])
  · simp only [hroot, if_false] at hr
    obtain ⟨size, hsize, hr⟩ := exists_of_bind_eq_ok hr
    cases hr
    exact .entry (by simp [Heading.isEntry, hname, hlookup, hroot])
      ⟨hlookup, rfl, rel_of_size? hsize⟩ rfl

theorem takes_encryptionData (hname : h.name = descriptorName)
    (hr : r.encryptionData h.attributes = .ok r') : Takes r h r' := by
  unfold Reading.encryptionData at hr
  split at hr
  · cases hr
  · next entry earlier he =>
      obtain ⟨checksumType, htype, hr⟩ := exists_of_bind_eq_ok hr
      obtain ⟨checksum, hchecksum, hr⟩ := exists_of_bind_eq_ok hr
      obtain ⟨compressedSize, hsize, hr⟩ := exists_of_bind_eq_ok hr
      cases hr
      exact .descriptor hname he
        { checksumType := lookup_of_required htype
          checksum := hchecksum
          compressedSize := rel_of_size? hsize
          cipher := ⟨rfl, rfl⟩
          startKey := ⟨rfl, rfl⟩
          derivation := ⟨rfl, rfl, rfl, rfl⟩ }

/-- A part of a descriptor that `withDescriptor` takes in is for the entry met last. -/
theorem takes_withDescriptor {f : Descriptor → Except Error Descriptor} (hname : h.name ∈ partNames)
    (hf : ∀ {d d'}, f d = .ok d' → ∀ {x parts}, Completes x parts d → Completes x (parts ++ [h]) d')
    (hr : r.withDescriptor f = .ok r') : Takes r h r' := by
  unfold Reading.withDescriptor at hr
  split at hr
  · cases hr
  · next entry earlier he =>
      split at hr
      · cases hr
      · next d hd =>
          obtain ⟨d', hd', hr⟩ := exists_of_bind_eq_ok hr
          cases hr
          exact .part hname he hd (hf hd')

theorem takes_algorithm (hname : h.name = "manifest:algorithm")
    (hr : r.algorithm h.attributes = .ok r') : Takes r h r' := by
  refine takes_withDescriptor (by simp [partNames, hname]) (fun hd x parts hx => ?_) hr
  obtain ⟨algorithm, halgorithm, hd⟩ := exists_of_bind_eq_ok hd
  obtain ⟨vector, hvector, hd⟩ := exists_of_bind_eq_ok hd
  cases hd
  refine { hx with cipher := ?_, startKey := ?_, derivation := ?_ } <;>
    simp only [lastNamed?_concat, hname, if_true, String.reduceEq, if_false]
  · exact ⟨lookup_of_required halgorithm, hvector⟩
  · exact hx.startKey
  · exact hx.derivation

theorem takes_startKey (hname : h.name = "manifest:start-key-generation")
    (hr : r.startKey h.attributes = .ok r') : Takes r h r' := by
  refine takes_withDescriptor (by simp [partNames, hname]) (fun hd x parts hx => ?_) hr
  obtain ⟨generation, hgeneration, hd⟩ := exists_of_bind_eq_ok hd
  obtain ⟨size, hsize, hd⟩ := exists_of_bind_eq_ok hd
  cases hd
  refine { hx with cipher := ?_, startKey := ?_, derivation := ?_ } <;>
    simp only [lastNamed?_concat, hname, if_true, String.reduceEq, if_false]
  · exact hx.cipher
  · exact ⟨lookup_of_required hgeneration, hsize⟩
  · exact hx.derivation

theorem takes_keyDerivation (hname : h.name = "manifest:key-derivation")
    (hr : r.keyDerivation h.attributes = .ok r') : Takes r h r' := by
  refine takes_withDescriptor (by simp [partNames, hname]) (fun hd x parts hx => ?_) hr
  obtain ⟨derivation, hderivation, hd⟩ := exists_of_bind_eq_ok hd
  obtain ⟨size, hsize, hd⟩ := exists_of_bind_eq_ok hd
  obtain ⟨count, hcount, hd⟩ := exists_of_bind_eq_ok hd
  obtain ⟨salt, hsalt, hd⟩ := exists_of_bind_eq_ok hd
  cases hd
  refine { hx with cipher := ?_, startKey := ?_, derivation := ?_ } <;>
    simp only [lastNamed?_concat, hname, if_true, String.reduceEq, if_false]
  · exact hx.cipher
  · exact hx.startKey
  · exact ⟨lookup_of_required hderivation, hsize, hcount, hsalt⟩

/-- **What one heading does**, if `Reading.heading` takes it in: it `Takes` the reading to the next
one. -/
theorem takes_heading (hr : r.heading h = .ok r') : Takes r h r' := by
  unfold Reading.heading Reading.element at hr
  split at hr
  · next hname => exact takes_fileEntry hname hr
  · next hname => exact takes_encryptionData hname hr
  · next hname => exact takes_algorithm hname hr
  · next hname => exact takes_startKey hname hr
  · next hname => exact takes_keyDerivation hname hr
  · next h₁ h₂ h₃ h₄ h₅ =>
      cases hr
      refine .other fun hmem => ?_
      simp only [elementNames, List.mem_cons, List.not_mem_nil, or_false] at hmem
      rcases hmem with h | h | h | h | h
      exacts [h₁ h, h₂ h, h₃ h, h₄ h, h₅ h]

end

/-! ## Composition -/

section

variable {x h : Heading} {parts hs : List Heading} {d d' : Descriptor}

/-- A heading that is not in `partNames` leaves the descriptor as it is. -/
theorem Completes.concat_of_not_mem (hx : Completes x parts d) (hname : h.name ∉ partNames) :
    Completes x (parts ++ [h]) d := by
  simp only [partNames, List.mem_cons, not_or] at hname
  obtain ⟨h₁, h₂, h₃, -⟩ := hname
  refine { hx with cipher := ?_, startKey := ?_, derivation := ?_ } <;>
    simp only [lastNamed?_concat, h₁, h₂, h₃, if_false]
  · exact hx.cipher
  · exact hx.startKey
  · exact hx.derivation

theorem forall_concat_ne (hlast : ∀ y ∈ parts, y.name ≠ descriptorName)
    (hname : h.name ≠ descriptorName) : ∀ y ∈ parts ++ [h], y.name ≠ descriptorName := by
  intro y hy
  rcases List.mem_append.mp hy with hy | hy
  · exact hlast y hy
  · exact List.mem_singleton.mp hy ▸ hname

/-- A heading with no part in encryption keeps what the section `Encrypts`. -/
theorem Encrypts.concat {o : Option Descriptor} (hx : Encrypts hs o)
    (hname : h.name ≠ descriptorName) (hpart : h.name ∉ partNames) : Encrypts (hs ++ [h]) o := by
  cases hx with
  | clear hclear => exact .clear (forall_concat_ne hclear hname)
  | described hx hlast hd =>
      rw [List.append_assoc, List.cons_append]
      exact .described hx (forall_concat_ne hlast hname) (hd.concat_of_not_mem hpart)

/-- The heading of a descriptor begins a new one, whatever was in front of it. -/
theorem Encrypts.concat_descriptor (hname : h.name = descriptorName) (hd : Completes h [] d) :
    Encrypts (hs ++ [h]) (some d) :=
  .described hname (by simp) hd

/-- The heading of a part of the descriptor goes to the last one. -/
theorem Encrypts.concat_part (hx : Encrypts hs (some d)) (hname : h.name ∈ partNames)
    (hd : ∀ {x parts}, Completes x parts d → Completes x (parts ++ [h]) d') :
    Encrypts (hs ++ [h]) (some d') := by
  cases hx with
  | described hx hlast hx' =>
      rw [List.append_assoc, List.cons_append]
      exact .described hx (forall_concat_ne hlast (ne_of_mem_partNames _ hname).2) (hd hx')

end

section

variable {r r' : Reading} {h s : Heading} {hs parts : List Heading} {e : Entry}
  {earlier : List Entry}

theorem not_isEntry_of_ne (hname : h.name ≠ entryName) : h.isEntry = false := by
  simp [Heading.isEntry, hname]

theorem not_isEntry_of_isPackage (hpackage : h.isPackage = true) : h.isEntry = false := by
  simp_all [Heading.isPackage, Heading.isEntry]

/-- A heading begins an entry, or it belongs to the section of the entry met last. -/
theorem composes_of_takes (ht : Takes r h r') (hr : r.entries = e :: earlier)
    (he : Composes (s, parts) e) :
    (h.isEntry = true ∧ ∃ e', r'.entries = e' :: r.entries ∧ Composes (h, []) e')
      ∨ h.isEntry = false ∧ ∃ e', r'.entries = e' :: earlier ∧ Composes (s, parts ++ [h]) e' := by
  obtain ⟨hheading, hencryption⟩ := he
  cases ht with
  | package hpackage =>
      refine .inr ⟨not_isEntry_of_isPackage hpackage, e, hr, hheading, hencryption.concat ?_ ?_⟩
      all_goals simp_all [Heading.isPackage, entryName, descriptorName, partNames]
  | @entry e' hentry hstated hclear =>
      exact .inl ⟨hentry, e', rfl, hstated, hclear ▸ .clear (by simp)⟩
  | descriptor hname hr' hd =>
      cases hr.symm.trans hr'
      exact .inr ⟨not_isEntry_of_ne (by rw [hname]; decide), _, rfl, hheading.withEncryption _,
        .concat_descriptor hname hd⟩
  | part hname hr' he' hd =>
      cases hr.symm.trans hr'
      exact .inr ⟨not_isEntry_of_ne (ne_of_mem_partNames _ hname).1, _, rfl,
        hheading.withEncryption _, (he' ▸ hencryption).concat_part hname hd⟩
  | other hname =>
      simp only [elementNames, List.mem_cons, not_or] at hname
      obtain ⟨h₁, h₂, h₃, h₄, h₅, -⟩ := hname
      exact .inr ⟨not_isEntry_of_ne h₁, e, hr, hheading,
        hencryption.concat h₂ (by simp [partNames, h₃, h₄, h₅])⟩

/-- The first heading that counts is that of an entry. -/
theorem composes_of_takes_nil (ht : Takes r h r') (hr : r.entries = []) :
    (h.isEntry = true ∧ ∃ e, r'.entries = [e] ∧ Composes (h, []) e)
      ∨ h.isEntry = false ∧ r'.entries = [] := by
  cases ht with
  | package hpackage => exact .inr ⟨not_isEntry_of_isPackage hpackage, hr⟩
  | @entry e hentry hstated hclear =>
      exact .inl ⟨hentry, e, by rw [hr], hstated, hclear ▸ .clear (by simp)⟩
  | descriptor hname hr' | part hname hr' => cases hr.symm.trans hr'
  | other hname =>
      refine .inr ⟨not_isEntry_of_ne fun heq => hname ?_, hr⟩
      rw [heq]
      decide

/-- Behind an entry: the entry is composed of the rest of its section, and the later ones of
theirs. -/
theorem composes_of_foldlM (hfold : hs.foldlM Reading.heading r = .ok r')
    (hr : r.entries = e :: earlier) (he : Composes (s, parts) e) :
    ∃ e' later, r'.entries = later ++ e' :: earlier
      ∧ Composes (s, parts ++ hs.takeWhile (!·.isEntry)) e'
      ∧ List.Forall₂ Composes (sections hs) later.reverse := by
  induction hs generalizing r s parts e earlier with
  | nil =>
      cases hfold
      exact ⟨e, [], hr, by simpa using he, .nil⟩
  | cons h hs ih =>
      rw [List.foldlM_cons] at hfold
      obtain ⟨r₁, hh, hfold⟩ := exists_of_bind_eq_ok hfold
      rcases composes_of_takes (takes_heading hh) hr he with
        ⟨hentry, e₁, hr₁, he₁⟩ | ⟨hentry, e₁, hr₁, he₁⟩
      · obtain ⟨e₂, later, hr₂, he₂, hlater⟩ := ih hfold hr₁ he₁
        refine ⟨e, later ++ [e₂], ?_, ?_, ?_⟩
        · rw [hr₂, hr, List.append_assoc, List.singleton_append]
        · rw [List.takeWhile_cons_of_neg (by simp [hentry]), List.append_nil]
          exact he
        · rw [sections, if_pos hentry, List.reverse_append]
          exact .cons he₂ hlater
      · obtain ⟨e₂, later, hr₂, he₂, hlater⟩ := ih hfold hr₁ he₁
        refine ⟨e₂, later, hr₂, ?_, ?_⟩
        · rw [List.takeWhile_cons_of_pos (by simp [hentry])]
          rwa [List.append_assoc] at he₂
        · rwa [sections, if_neg (by simp [hentry])]

/-- **Every entry is composed of its section**, in document order: `Composes` relates `sections` and
entries one by one. -/
theorem composed_of_foldlM (hfold : hs.foldlM Reading.heading r = .ok r') (hr : r.entries = []) :
    List.Forall₂ Composes (sections hs) r'.entries.reverse := by
  induction hs generalizing r with
  | nil =>
      cases hfold
      rw [hr]
      exact .nil
  | cons h hs ih =>
      rw [List.foldlM_cons] at hfold
      obtain ⟨r₁, hh, hfold⟩ := exists_of_bind_eq_ok hfold
      rcases composes_of_takes_nil (takes_heading hh) hr with ⟨hentry, e, hr₁, he⟩ | ⟨hentry, hr₁⟩
      · obtain ⟨e', later, hr', he', hlater⟩ := composes_of_foldlM hfold hr₁ he
        rw [sections, if_pos hentry, hr', List.reverse_append]
        exact .cons he' hlater
      · rw [sections, if_neg (by simp [hentry])]
        exact ih hfold hr₁

/-! ## Listing -/

theorem not_isPackage_of_ne (hname : h.name ≠ entryName) : h.isPackage = false := by
  simp [Heading.isPackage, hname]

/-- Only the heading of the package states its media type. -/
theorem mediaType_of_takes (ht : Takes r h r') :
    r'.mediaType = if h.isPackage then some h.mediaType else r.mediaType := by
  cases ht with
  | package hpackage => rw [if_pos hpackage]
  | entry hentry =>
      rw [if_neg fun hpackage => by simp [not_isEntry_of_isPackage hpackage] at hentry]
  | descriptor hname =>
      rw [not_isPackage_of_ne (by rw [hname]; decide)]
      rfl
  | part hname =>
      rw [not_isPackage_of_ne (ne_of_mem_partNames _ hname).1]
      rfl
  | other hname =>
      rw [not_isPackage_of_ne fun heq => hname (heq ▸ by decide)]
      rfl

/-- The media type is that of the last heading that `isPackage`. -/
theorem mediaType_of_foldlM (hfold : hs.foldlM Reading.heading r = .ok r') :
    r'.mediaType
      = ((hs.filter Heading.isPackage).getLast?.map Heading.mediaType).or r.mediaType := by
  induction hs generalizing r with
  | nil =>
      cases hfold
      rfl
  | cons h hs ih =>
      rw [List.foldlM_cons] at hfold
      obtain ⟨r₁, hh, hfold⟩ := exists_of_bind_eq_ok hfold
      rw [ih hfold, mediaType_of_takes (takes_heading hh), List.filter_cons]
      split
      · rw [List.getLast?_cons]
        cases (hs.filter Heading.isPackage).getLast? <;> rfl
      · rfl

/-- No heading of an entry or of the package lacks its path. -/
theorem exists_path_of_takes (ht : Takes r h r') (hname : h.name = entryName) :
    ∃ path, h.path? = some path := by
  cases ht with
  | package hpackage => exact ⟨"/", by simp_all [Heading.isPackage]⟩
  | entry _ hstated => exact ⟨_, hstated.path⟩
  | descriptor hname' => exact absurd (hname.symm.trans hname') (by decide)
  | part hname' => exact absurd hname (ne_of_mem_partNames _ hname').1
  | other hname' => exact absurd (hname ▸ by decide) hname'

theorem exists_path_of_foldlM (hfold : hs.foldlM Reading.heading r = .ok r') :
    ∀ h ∈ hs, h.name = entryName → ∃ path, h.path? = some path := by
  induction hs generalizing r with
  | nil => simp
  | cons h hs ih =>
      rw [List.foldlM_cons] at hfold
      obtain ⟨r₁, hh, hfold⟩ := exists_of_bind_eq_ok hfold
      exact List.forall_mem_cons.mpr ⟨exists_path_of_takes (takes_heading hh), ih hfold⟩

end

/-- A manifest lists what headings state: the entries in their order, each once (`Describes`), and
the media type that was stated for the package last. -/
structure Lists (hs : List Heading) (m : Manifest) : Prop where
  paths : ∀ h ∈ hs, h.name = entryName → ∃ path, h.path? = some path
  entries : List.Forall₂ Heading.Describes (hs.filter Heading.isEntry) m.entries
  mediaType : (hs.filter Heading.isPackage).getLast?.map Heading.mediaType = some m.mediaType

section

variable {hs : List Heading} {r : Reading} {m : Manifest}

/-- `Reading.manifest` has the entries and the media type that were read. -/
theorem eq_of_manifest (h : r.manifest = .ok m) :
    r.mediaType = some m.mediaType ∧ r.entries.reverse = m.entries := by
  unfold Reading.manifest at h
  split at h
  · cases h
  · next mediaType hr =>
      cases h
      exact ⟨hr, rfl⟩

theorem lists_of_foldlM (hfold : hs.foldlM Reading.heading {} = .ok r) (hm : r.manifest = .ok m) :
    Lists hs m := by
  obtain ⟨hmedia, hentries⟩ := eq_of_manifest hm
  refine ⟨exists_path_of_foldlM hfold, ?_, ?_⟩
  · rw [← map_fst_sections, ← hentries, List.forall₂_map_left_iff]
    exact (composed_of_foldlM hfold rfl).imp fun _ _ h => h.heading
  · rw [← hmedia, mediaType_of_foldlM hfold, Option.or_none]

end

/-- **Where the entries of a manifest come from.**  Every entry that was read is composed of its
section of the document; of the parts of a descriptor, those that the section lacks are left as
placeholders. -/
theorem composed_of_parse {document : String} {m : Manifest} (h : parse document = .ok m) :
    ∃ hs, headings? document = some hs ∧ List.Forall₂ Composes (sections hs) m.entries := by
  obtain ⟨hs, r, hheadings, hfold, hm⟩ := exists_headings_of_parse h
  exact ⟨hs, hheadings, (eq_of_manifest hm).2 ▸ composed_of_foldlM hfold rfl⟩

/-- The text of a document whose descriptor has no parts. -/
def bareText : List Char :=
  "<manifest:manifest><manifest:file-entry manifest:full-path='/' manifest:media-type='t'/>".toList
    ++ "<manifest:file-entry manifest:full-path='c.xml'>".toList
    ++ "<manifest:encryption-data manifest:checksum-type='c' manifest:checksum='AQID'/>".toList
    ++ "</manifest:file-entry></manifest:manifest>".toList

/-- A document whose descriptor has no parts. -/
def bareDocument : String :=
  .ofList bareText

/-- What `parse` reads of `bareDocument`: the descriptor is made of placeholders. -/
def bareManifest : Manifest where
  mediaType := "t"
  entries := [⟨"c.xml", "", none, some
    { checksumType := "c", checksum := [1, 2, 3], algorithm := "", initialisationVector := []
      startKeyGeneration := "", startKeySize := 0, keyDerivation := "", keySize := 0
      iterationCount := 0, salt := [], compressedSize := none }⟩]

theorem parse_bareDocument : parse bareDocument = .ok bareManifest := by
  rw [parse, bareDocument, String.toList_ofList]
  decide +kernel

/-- The entry of `bareDocument` is composed of its section. -/
theorem composed_bareDocument :
    parse bareDocument = .ok bareManifest
      ∧ ∃ hs, headings? bareDocument = some hs
        ∧ List.Forall₂ Composes (sections hs) bareManifest.entries :=
  ⟨parse_bareDocument, composed_of_parse parse_bareDocument⟩

/-- `bareDocument` is read with an empty initialisation vector, an empty salt, a key of size zero
and no iterations, none of which it states. -/
theorem placeholders_accepted :
    (headings? bareDocument).map (·.map Heading.name)
        = some ["manifest:manifest", entryName, entryName, descriptorName]
      ∧ (parse bareDocument).map (·.entries.map (·.encryption.map fun d =>
          (d.algorithm, d.initialisationVector, d.keyDerivation, d.keySize, d.iterationCount,
            d.salt))) = .ok [some ("", [], "", 0, 0, [])] := by
  constructor
  · rw [headings?, bareDocument, String.toList_ofList]
    decide +kernel
  · rw [parse_bareDocument]
    rfl

end Manifest

end OpenDocument
