import OpenDocument.Proofs.Zip.Layout

/-!
# OpenDocument.Proofs.Zip.Ends

The directory of an archive is found from its end.  The record there (`endBytes`) is the first that
is tried (`exists_ends`).  If it has room for all numbers, what stands in front of it must not look
like a locator, which is a matter of the last name (`Unmistakable`); if it has not, a locator and a
long record stand there and are found (`find?_longEnds`).  Either way the directory is read back
(`ofBytes?_archiveBytes`), and with it the items (`exists_directory`).
-/

namespace OpenDocument.Zip

/-! ## The record at the end -/

/-- The `endBytes` behind their signature. -/
def endFields (count size offset : Nat) : Bytes :=
  Bytes.littleEndian 2 0 ++ (Bytes.littleEndian 2 0 ++ (Bytes.littleEndian 2 count
    ++ (Bytes.littleEndian 2 count ++ (Bytes.littleEndian 4 size
    ++ (Bytes.littleEndian 4 offset ++ Bytes.littleEndian 2 0)))))

theorem endBytes_eq (count size offset : Nat) :
    endBytes count size offset
      = Bytes.littleEndian 4 endSignature ++ endFields count size offset := by
  simp only [endBytes, endFields, List.append_assoc]

theorem length_endFields (count size offset : Nat) : (endFields count size offset).length = 18 := by
  simp [endFields]

/-- `EndRecord.ofBytes?` reads the record at the end back. -/
theorem endRecord_endFields {count size offset length position : Nat}
    (hc : count ≤ maxShort) (hs : size ≤ maxLong) (ho : offset ≤ maxLong)
    (hp : position + endLength ≤ length) :
    EndRecord.ofBytes? length position (endFields count size offset)
      = some { position, disk := 0, firstDisk := 0, countHere := count, count, size, offset } := by
  have comment : takeNumber 2 (Bytes.littleEndian 2 0) = some (0, []) := rfl
  rw [EndRecord.ofBytes?, endFields]
  refine Option.bind_eq_some_iff.mpr ⟨_, takeNumber_short (Nat.zero_le _) _, ?_⟩
  refine Option.bind_eq_some_iff.mpr ⟨_, takeNumber_short (Nat.zero_le _) _, ?_⟩
  refine Option.bind_eq_some_iff.mpr ⟨_, takeNumber_short hc _, ?_⟩
  refine Option.bind_eq_some_iff.mpr ⟨_, takeNumber_short hc _, ?_⟩
  refine Option.bind_eq_some_iff.mpr ⟨_, takeNumber_long hs _, ?_⟩
  refine Option.bind_eq_some_iff.mpr ⟨_, takeNumber_long ho _, ?_⟩
  refine Option.bind_eq_some_iff.mpr ⟨_, comment, ?_⟩
  exact Option.bind_eq_some_iff.mpr ⟨(), if_pos hp, rfl⟩

/-- Fewer bytes than a record at the end has are none. -/
theorem endRecord_eq_none {length position : Nat} {bs : Bytes} (h : bs.length < 18) :
    EndRecord.ofBytes? length position bs = none := by
  rw [← Option.not_isSome_iff_eq_none, Option.isSome_iff_exists]
  rintro ⟨e, he⟩
  rw [EndRecord.ofBytes?] at he
  obtain ⟨⟨_, _⟩, h₁, he⟩ := Option.bind_eq_some_iff.mp he
  obtain ⟨⟨_, _⟩, h₂, he⟩ := Option.bind_eq_some_iff.mp he
  obtain ⟨⟨_, _⟩, h₃, he⟩ := Option.bind_eq_some_iff.mp he
  obtain ⟨⟨_, _⟩, h₄, he⟩ := Option.bind_eq_some_iff.mp he
  obtain ⟨⟨_, _⟩, h₅, he⟩ := Option.bind_eq_some_iff.mp he
  obtain ⟨⟨_, _⟩, h₆, he⟩ := Option.bind_eq_some_iff.mp he
  obtain ⟨⟨_, _⟩, h₇, -⟩ := Option.bind_eq_some_iff.mp he
  -- two bytes for each of the short fields, and four for each of the long ones
  have := length_of_takeNumber h₁
  have := length_of_takeNumber h₂
  have := length_of_takeNumber h₃
  have := length_of_takeNumber h₄
  have := length_of_takeNumber h₅
  have := length_of_takeNumber h₆
  have := length_of_takeNumber h₇
  omega

/-! ## The long record at the end -/

/-- The `longEndBytes` behind their signature. -/
def longEndFields (version count size offset : Nat) : Bytes :=
  Bytes.littleEndian 8 44 ++ Bytes.littleEndian 2 version ++ Bytes.littleEndian 2 version
    ++ Bytes.littleEndian 4 0 ++ Bytes.littleEndian 4 0
    ++ Bytes.littleEndian 8 count ++ Bytes.littleEndian 8 count
    ++ Bytes.littleEndian 8 size ++ Bytes.littleEndian 8 offset

theorem longEndBytes_eq (version count size offset : Nat) :
    longEndBytes version count size offset
      = Bytes.littleEndian 4 longEndSignature ++ longEndFields version count size offset := by
  simp only [longEndBytes, longEndFields, List.append_assoc]

/-- `LongEndRecord.ofBytes?` reads the long record at the end back, whatever follows. -/
theorem longEndRecord_longEndFields {version count size offset position : Nat}
    (hc : count ≤ maxOffset) (hs : size ≤ maxOffset) (ho : offset ≤ maxOffset) (rest : Bytes) :
    LongEndRecord.ofBytes? position (longEndFields version count size offset ++ rest)
      = some { position, length := 44, disk := 0, firstDisk := 0, countHere := count, count
               offset } := by
  have versions : (Bytes.littleEndian 2 version ++ Bytes.littleEndian 2 version).length = 4 := by
    simp
  have hgroups : longEndFields version count size offset ++ rest
      = Bytes.littleEndian 8 44 ++ ((Bytes.littleEndian 2 version ++ Bytes.littleEndian 2 version)
        ++ (Bytes.littleEndian 4 0 ++ (Bytes.littleEndian 4 0 ++ (Bytes.littleEndian 8 count
        ++ (Bytes.littleEndian 8 count ++ (Bytes.littleEndian 8 size
        ++ (Bytes.littleEndian 8 offset ++ rest))))))) := by
    simp only [longEndFields, List.append_assoc]
  rw [hgroups, LongEndRecord.ofBytes?]
  refine Option.bind_eq_some_iff.mpr ⟨_, takeNumber_offset (by decide) _, ?_⟩
  refine Option.bind_eq_some_iff.mpr ⟨_, takeNumber_append versions _, ?_⟩
  refine Option.bind_eq_some_iff.mpr ⟨_, takeNumber_long (Nat.zero_le _) _, ?_⟩
  refine Option.bind_eq_some_iff.mpr ⟨_, takeNumber_long (Nat.zero_le _) _, ?_⟩
  refine Option.bind_eq_some_iff.mpr ⟨_, takeNumber_offset hc _, ?_⟩
  refine Option.bind_eq_some_iff.mpr ⟨_, takeNumber_offset hc _, ?_⟩
  refine Option.bind_eq_some_iff.mpr ⟨_, takeNumber_offset hs _, ?_⟩
  exact Option.bind_eq_some_iff.mpr ⟨_, takeNumber_offset ho _, rfl⟩

/-- `Locator.ofBytes?` reads the locator back, whatever follows. -/
theorem locator_locatorBytes {offset : Nat} (ho : offset ≤ maxOffset) (rest : Bytes) :
    Locator.ofBytes? (locatorBytes offset ++ rest) = some { disk := 0, offset, disks := 1 } := by
  simp only [locatorBytes, List.append_assoc]
  rw [Locator.ofBytes?]
  refine Option.bind_eq_some_iff.mpr ⟨_, takeNumber_long (by decide) _, ?_⟩
  refine Option.bind_eq_some_iff.mpr ⟨(), if_pos rfl, ?_⟩
  refine Option.bind_eq_some_iff.mpr ⟨_, takeNumber_long (Nat.zero_le _) _, ?_⟩
  refine Option.bind_eq_some_iff.mpr ⟨_, takeNumber_offset ho _, ?_⟩
  exact Option.bind_eq_some_iff.mpr ⟨_, takeNumber_long (by decide) _, rfl⟩

/-- A long record says where it was found. -/
theorem LongEndRecord.position_of_ofBytes? {position : Nat} {bs : Bytes} {r : LongEndRecord}
    (h : ofBytes? position bs = some r) : r.position = position := by
  rw [ofBytes?] at h
  obtain ⟨_, -, h⟩ := Option.bind_eq_some_iff.mp h
  obtain ⟨_, -, h⟩ := Option.bind_eq_some_iff.mp h
  obtain ⟨_, -, h⟩ := Option.bind_eq_some_iff.mp h
  obtain ⟨_, -, h⟩ := Option.bind_eq_some_iff.mp h
  obtain ⟨_, -, h⟩ := Option.bind_eq_some_iff.mp h
  obtain ⟨_, -, h⟩ := Option.bind_eq_some_iff.mp h
  obtain ⟨_, -, h⟩ := Option.bind_eq_some_iff.mp h
  obtain ⟨_, -, h⟩ := Option.bind_eq_some_iff.mp h
  cases h
  rfl

/-! ## Finding the directory -/

/-- Of the records at the end that `Landmarks.ofBytes` finds, the one that was put at the end is the
first. -/
theorem exists_ends {count size offset : Nat} (front : Bytes) (hc : count ≤ maxShort)
    (hs : size ≤ maxLong) (ho : offset ≤ maxLong) :
    ∃ others, (Landmarks.ofBytes (front ++ endBytes count size offset)).ends
      = { position := front.length, disk := 0, firstDisk := 0, countHere := count, count, size
          offset } :: others := by
  obtain ⟨earlier, later, ho', -, hlater⟩ := exists_occurrences endSignature front
    (endFields count size offset)
  have hnone : ∀ length, later.filterMap (fun x => EndRecord.ofBytes? length x.1 x.2) = [] := by
    intro length
    rw [List.filterMap_eq_nil_iff]
    intro x hx
    have hlen := (hlater x hx).2
    rw [length_endFields] at hlen
    exact endRecord_eq_none hlen
  have hlength : front.length + endLength ≤ (front ++ endBytes count size offset).length := by
    rw [List.length_append, length_endBytes]
    exact Nat.le_refl _
  rw [endBytes_eq] at hlength ⊢
  refine ⟨earlier.filterMap fun x => EndRecord.ofBytes? (front
    ++ (Bytes.littleEndian 4 endSignature ++ endFields count size offset)).length x.1 x.2, ?_⟩
  simp only [Landmarks.ofBytes, ho', List.filterMap_append, hnone, List.nil_append,
    List.filterMap_cons, endRecord_endFields hc hs ho hlength]

/-- Of the `headers` that are found, the first at or behind a place where one was put is that
one. -/
theorem find?_headers (front rest : Bytes) {limit : Nat} (h : front.length + 4 ≤ limit) :
    (Landmarks.ofBytes (front
        ++ (Bytes.littleEndian 4 Header.directorySignature ++ rest))).headers.find?
      (fun position => front.length ≤ position && position + 4 ≤ limit) = some front.length := by
  obtain ⟨earlier, later, ho, hearlier, -⟩ :=
    exists_occurrences Header.directorySignature front rest
  have hnone : (earlier.map Prod.fst).reverse.find?
      (fun position => front.length ≤ position && position + 4 ≤ limit) = none := by
    rw [List.find?_eq_none]
    intro position hp
    obtain ⟨x, hx, rfl⟩ := List.mem_map.mp (List.mem_reverse.mp hp)
    have := hearlier x hx
    simp only [Bool.and_eq_true, decide_eq_true_eq, not_and]
    omega
  simp only [Landmarks.ofBytes, ho, List.map_append, List.map_cons, List.reverse_append,
    List.reverse_cons, List.find?_append, hnone, Option.none_or, List.find?_cons, Nat.le_refl, h,
    decide_true, Bool.and_true, Option.some_or]

/-- Of the `longEnds` that are found, the first at or behind a place where one was put is that
one. -/
theorem find?_longEnds (front rest : Bytes) {r : LongEndRecord} {l : Locator} {limit : Nat}
    (hr : LongEndRecord.ofBytes? front.length rest = some r) (hl : l.offset = front.length)
    (hf : r.fits l limit = true) :
    (Landmarks.ofBytes (front
        ++ (Bytes.littleEndian 4 longEndSignature ++ rest))).longEnds.find?
      (fun r => l.offset ≤ r.position && r.fits l limit) = some r := by
  obtain ⟨earlier, later, ho, hearlier, -⟩ := exists_occurrences longEndSignature front rest
  have hnone : (earlier.reverse.filterMap fun x => LongEndRecord.ofBytes? x.1 x.2).find?
      (fun r => l.offset ≤ r.position && r.fits l limit) = none := by
    rw [List.find?_eq_none]
    intro r' hr'
    obtain ⟨x, hx, hr'⟩ := List.mem_filterMap.mp hr'
    have hposition := LongEndRecord.position_of_ofBytes? hr'
    have := hearlier x (List.mem_reverse.mp hx)
    simp only [Bool.and_eq_true, decide_eq_true_eq, not_and]
    omega
  have hfits : (l.offset ≤ r.position && r.fits l limit) = true := by
    rw [hf, hl, LongEndRecord.position_of_ofBytes? hr, Bool.and_true, decide_eq_true_eq]
  simp only [Landmarks.ofBytes, ho, List.reverse_append, List.reverse_cons, List.append_assoc,
    List.filterMap_append, List.find?_append, hnone, Option.none_or, List.singleton_append,
    List.filterMap_cons, hr, List.find?_cons, hfits]

/-! ## The end in front of the last record -/

/-- A byte string that does not begin with `locatorSignature` has no locator in front. -/
theorem locator_eq_none {front tail rest : Bytes} (hle : locatorLength ≤ tail.length)
    (hne : Bytes.ofLittleEndian ((tail.drop (tail.length - locatorLength)).take 4)
      ≠ locatorSignature) :
    Locator.ofBytes? ((front ++ tail ++ rest).drop ((front ++ tail).length - locatorLength))
      = none := by
  obtain ⟨lead, last, htail, hlength⟩ :
      ∃ lead last, tail = lead ++ last ∧ last.length = locatorLength :=
    ⟨tail.take (tail.length - locatorLength), tail.drop (tail.length - locatorLength),
      (List.take_append_drop _ _).symm, by rw [List.length_drop]; omega⟩
  have hlead : tail.length - locatorLength = lead.length := by
    rw [htail, List.length_append, hlength, Nat.add_sub_cancel]
  have hposition : (front ++ tail).length - locatorLength = (front ++ lead).length := by
    rw [List.length_append, List.length_append, Nat.add_sub_assoc hle, hlead]
  have hfour : (last.take 4).length = 4 := by
    rw [List.length_take, hlength]
    rfl
  rw [hlead, htail, List.drop_left] at hne
  rw [hposition, htail, ← List.append_assoc, List.append_assoc (front ++ lead), List.drop_left,
    ← List.take_append_drop 4 last, List.append_assoc, Locator.ofBytes?, takeNumber_append hfour]
  have hguard : (guard (Bytes.ofLittleEndian (last.take 4) = locatorSignature) : Option Unit)
      = none := if_neg hne
  rw [Option.bind_eq_bind, Option.bind_some]
  dsimp only
  rw [hguard]
  rfl

/-- A name that is not taken for a locator where it stands in front of the record at the end, or in
front of an extra field with one number, which has `12` bytes. -/
structure Unmistakable (name : Bytes) : Prop where
  length_le : locatorLength ≤ name.length
  signature_ne : ∀ extra ∈ [0, 12],
    Bytes.ofLittleEndian ((name.drop (name.length + extra - locatorLength)).take 4)
      ≠ locatorSignature

/-- If only the size of the content has no room in 32 bits, `extraField` has one number at most. -/
theorem Header.length_extraField {h : Header} {offset : Nat} (hc : h.compressedSize < maxLong)
    (ho : offset < maxLong) : (h.extraField offset).length ∈ [0, 12] := by
  have hnumbers := h.length_longNumbers offset
  simp only [hc, ho, if_true, Nat.add_zero] at hnumbers
  simp only [extraField]
  by_cases hempty : (h.longNumbers offset).isEmpty
  · simp [hempty]
  · have hlength : (h.longNumbers offset).length ≠ 0 := by
      rwa [ne_eq, List.length_eq_zero_iff, ← List.isEmpty_iff]
    have height : (h.longNumbers offset).length = 8 := by
      by_cases hs : h.size < maxLong
      · rw [if_pos hs] at hnumbers
        exact absurd hnumbers hlength
      · rw [if_neg hs] at hnumbers
        exact hnumbers
    rw [if_neg hempty, List.length_append, List.length_append, height]
    simp

/-- A directory ends with the name of its last item and the `extraField` of it. -/
theorem exists_directoryBytes_getLast {items : List Item} {last : Item}
    (h : items.getLast? = some last) : ∃ front position,
      directoryBytes items = front ++ (last.name ++ last.header.extraField position)
        ∧ position + last.bytes.length = (itemBytes items).length := by
  obtain ⟨items, rfl⟩ := List.getLast?_eq_some_iff.mp h
  obtain ⟨fields, hf⟩ : ∃ fields, last.header.directoryBytes (itemBytes items).length
      = fields ++ (last.name ++ last.header.extraField (itemBytes items).length) :=
    ⟨_, List.append_assoc ..⟩
  refine ⟨Session.directoryOf (placed 0 items) ++ fields, (itemBytes items).length, ?_, ?_⟩
  · rw [directoryBytes, placed_append, Session.directoryOf, List.flatMap_append, Nat.zero_add]
    simp only [placed, List.flatMap_cons, List.flatMap_nil, List.append_nil, hf]
    rw [List.append_assoc]
    rfl
  · rw [itemBytes_append, List.length_append, itemBytes_cons]
    simp only [itemBytes, List.flatMap_nil, List.append_nil]

theorem exists_directoryBytes_cons {items : List Item} (h : items ≠ []) :
    ∃ rest, directoryBytes items
      = Bytes.littleEndian 4 Header.directorySignature ++ rest := by
  obtain ⟨i, items, rfl⟩ := List.exists_cons_of_ne_nil h
  have happend := i.header.directoryBytes_append 0
    (Session.directoryOf (placed (0 + i.bytes.length) items))
  exact ⟨_, happend⟩

/-- A directory has 46 bytes for every entry at least. -/
theorem mul_length_le_directoryBytes (items : List Item) :
    items.length * 46 ≤ (directoryBytes items).length := by
  have entries : ∀ (items : List Item) (position : Nat),
      items.length * 46 ≤ (Session.directoryOf (placed position items)).length := by
    intro items
    induction items with
    | nil => intro position; exact Nat.zero_le _
    | cons i items ih =>
        intro position
        have htail := ih (position + i.bytes.length)
        have hhead := i.header.length_directoryBytes position
        simp only [placed, Session.directoryOf, List.flatMap_cons, List.length_append,
          List.length_cons] at htail ⊢
        omega
  exact entries items 0

/-! ## The directory of an archive -/

/-- A record at the end `isShort` if it has what is left of numbers for which it `needsLong`. -/
theorem EndRecord.isShort_of_needsLong {count size offset : Nat} {e : EndRecord}
    (h : needsLong count size offset = true) (hc : e.count = min count maxShort)
    (hs : e.size = min size maxLong) (ho : e.offset = min offset maxLong) : e.isShort = true := by
  simp only [needsLong, Bool.or_eq_true, decide_eq_true_eq] at h
  simp only [EndRecord.isShort, hc, hs, ho, Bool.or_eq_true, beq_iff_eq]
  rw [maxShort, maxLong] at *
  omega

/-- A record at the end without room leads `place?` to the directory by way of the long record. -/
theorem place?_of_long {front rest : Bytes} {version count size offset : Nat} {e : EndRecord}
    (hfront : front.length = offset + size) (hle : front.length ≤ maxOffset)
    (hroom : count * 46 ≤ size) (hlong : needsLong count size offset = true)
    (hp : e.position = front.length + (56 + locatorLength)) (hc : e.count = min count maxShort)
    (hs : e.size = min size maxLong) (ho : e.offset = min offset maxLong) :
    (Landmarks.ofBytes (front ++ (longEndBytes version count size offset
        ++ (locatorBytes front.length ++ rest)))).place? e
      = some { shift := 0, offset, count } := by
  let r : LongEndRecord :=
    { position := front.length, length := 44, disk := 0, firstDisk := 0, countHere := count, count
      offset }
  let l : Locator := { disk := 0, offset := front.length, disks := 1 }
  have hshort := EndRecord.isShort_of_needsLong hlong hc hs ho
  have hbefore : e.position - locatorLength
      = (front ++ longEndBytes version count size offset).length := by
    rw [hp, ← Nat.add_assoc, Nat.add_sub_cancel, List.length_append, length_longEndBytes]
  have hlocator : (Landmarks.ofBytes (front ++ (longEndBytes version count size offset
      ++ (locatorBytes front.length ++ rest)))).locator? e = some l := by
    have hfits : locatorLength ≤ e.position := by
      rw [hp]
      omega
    rw [Landmarks.locator?, if_pos ⟨hshort, hfits⟩, Landmarks.bytesFrom_ofBytes, hbefore,
      ← List.append_assoc front, List.drop_left]
    exact locator_locatorBytes hle rest
  have hrecord : LongEndRecord.ofBytes? front.length
      (longEndFields version count size offset ++ (locatorBytes front.length ++ rest))
        = some r :=
    longEndRecord_longEndFields (by omega) (by omega) (by omega) _
  have hfits : r.fits l (e.position - locatorLength) = true := by
    have hend : front.length + 44 + 12 = e.position - locatorLength := by
      rw [hp]
      omega
    have hbegin : count * 46 + offset ≤ front.length := by omega
    simp [LongEndRecord.fits, r, l, hend, hbegin]
  have hfind := find?_longEnds front (longEndFields version count size offset
    ++ (locatorBytes front.length ++ rest)) hrecord (l := l) rfl hfits
  rw [← List.append_assoc (Bytes.littleEndian 4 longEndSignature), ← longEndBytes_eq] at hfind
  rw [Landmarks.place?, hlocator]
  dsimp only
  rw [Locator.place?]
  refine Option.bind_eq_some_iff.mpr ⟨(), if_pos (Nat.le_refl 1), ?_⟩
  refine Option.bind_eq_some_iff.mpr ⟨r, hfind, ?_⟩
  refine Option.bind_eq_some_iff.mpr ⟨(), if_pos ⟨Nat.le_refl _, rfl⟩, ?_⟩
  simp only [r, l, Nat.sub_self, pure]

section

variable {items : List Item} {last : Item} (hl : items.getLast? = some last)
  (hu : Unmistakable last.name)

include hl hu

/-- In front of a record at the end that has room, the last name keeps a locator from being
found. -/
theorem locator?_eq_none {rest : Bytes} {e : EndRecord} (hlong : (itemBytes items).length ≤ maxLong)
    (hp : e.position = (itemBytes items ++ directoryBytes items).length) :
    (Landmarks.ofBytes (itemBytes items ++ directoryBytes items ++ rest)).locator? e = none := by
  obtain ⟨front, position, hfront, hposition⟩ := exists_directoryBytes_getLast hl
  have hbytes : last.bytes.length = 30 + last.name.length + last.packed.length := by
    rw [Item.bytes, List.length_append, Header.length_localBytes]
    rfl
  have hpacked : last.header.compressedSize < maxLong := by
    simp only [Item.header]
    omega
  have hoffset : position < maxLong := by omega
  have hextra := Header.length_extraField hpacked hoffset
  generalize last.header.extraField position = extra at hfront hextra
  have hname : last.name.length + extra.length - locatorLength ≤ last.name.length
      ∧ 4 ≤ last.name.length - (last.name.length + extra.length - locatorLength) := by
    have := hu.length_le
    simp only [List.mem_cons, List.not_mem_nil, or_false] at hextra
    rw [locatorLength] at *
    omega
  have hfour : 4 ≤ (last.name.drop (last.name.length + extra.length - locatorLength)).length := by
    rw [List.length_drop]
    exact hname.2
  have hne := hu.signature_ne _ hextra
  unfold Landmarks.locator?
  split
  · rw [Landmarks.bytesFrom_ofBytes, hp, hfront, ← List.append_assoc]
    refine locator_eq_none ?_ ?_
    · rw [List.length_append]
      exact Nat.le_trans hu.length_le (Nat.le_add_right _ _)
    · rw [List.length_append, List.drop_append_of_le_length hname.1,
        List.take_append_of_le_length hfour]
      exact hne
  · rfl

/-- A record at the end that has room leads `place?` to the directory in front of it. -/
theorem place?_of_short {rest : Bytes} {e : EndRecord} (hlong : (itemBytes items).length ≤ maxLong)
    (hd : e.disk = e.firstDisk) (hc : e.count = items.length) (hh : e.countHere = items.length)
    (ho : e.offset = (itemBytes items).length)
    (hp : e.position = (itemBytes items ++ directoryBytes items).length) :
    (Landmarks.ofBytes (itemBytes items ++ directoryBytes items ++ rest)).place? e
      = some { shift := 0, offset := (itemBytes items).length, count := items.length } := by
  have hne : items ≠ [] := by
    rintro rfl
    cases hl
  obtain ⟨fields, hfields⟩ := exists_directoryBytes_cons hne
  have hheaders :
      (Landmarks.ofBytes (itemBytes items ++ directoryBytes items ++ rest)).headers.find?
        (fun position => e.offset ≤ position && position + 4 ≤ e.position) = some e.offset := by
    have hlimit : (itemBytes items).length + 4 ≤ e.position := by
      rw [hp, hfields, List.length_append, List.length_append, Bytes.length_littleEndian]
      omega
    rw [List.append_assoc, hfields, List.append_assoc, ho]
    exact find?_headers _ _ hlimit
  have hshift : ((Landmarks.ofBytes (itemBytes items ++ directoryBytes items ++ rest)).headers.find?
      fun position => e.offset ≤ position && position + 4 ≤ e.position).map
        (fun position => position - e.offset) = some 0 := by
    rw [hheaders, Option.map_some, Nat.sub_self]
  have hcount : e.count ≠ 0 := by
    rwa [hc, ne_eq, List.length_eq_zero_iff]
  rw [Landmarks.place?, locator?_eq_none hl hu hlong hp, ← ho, ← hh]
  dsimp only
  rw [EndRecord.place?, if_neg hcount]
  refine Option.bind_eq_some_iff.mpr ⟨0, hshift, ?_⟩
  exact Option.bind_eq_some_iff.mpr ⟨(), if_pos hd, rfl⟩

/-- Of the records at the end of `archiveBytes`, the first leads to the directory. -/
theorem exists_place? (h : Fits items) :
    ∃ e others, (Landmarks.ofBytes (archiveBytes items)).ends = e :: others
      ∧ (Landmarks.ofBytes (archiveBytes items)).place? e
        = some { shift := 0, offset := (itemBytes items).length, count := items.length } := by
  have hlength : (itemBytes items ++ directoryBytes items).length
      = (itemBytes items).length + (directoryBytes items).length := List.length_append
  cases hlong : needsLong items.length (directoryBytes items).length (itemBytes items).length with
  | true =>
      have harchive : archiveBytes items
          = itemBytes items ++ directoryBytes items
            ++ (longEndBytes (Session.versionOf (placed 0 items)) items.length
                (directoryBytes items).length (itemBytes items).length
              ++ locatorBytes (itemBytes items ++ directoryBytes items).length)
            ++ endBytes (min items.length maxShort) (min (directoryBytes items).length maxLong)
              (min (itemBytes items).length maxLong) := by
        rw [archiveBytes, closing, closingBytes, if_pos hlong, hlength]
        exact (List.append_assoc ..).symm
      obtain ⟨others, hends⟩ := exists_ends _ (Nat.min_le_right items.length maxShort)
        (Nat.min_le_right (directoryBytes items).length maxLong)
        (Nat.min_le_right (itemBytes items).length maxLong)
      rw [harchive]
      refine ⟨_, others, hends, ?_⟩
      rw [List.append_assoc (itemBytes items ++ directoryBytes items), List.append_assoc
        (longEndBytes _ _ _ _)]
      refine place?_of_long hlength (hlength ▸ h.total_le) (mul_length_le_directoryBytes items)
        hlong ?_ rfl rfl rfl
      simp only [List.length_append, length_longEndBytes, length_locatorBytes]
  | false =>
      simp only [needsLong, Bool.or_eq_false_iff, decide_eq_false_iff_not, Nat.not_lt] at hlong
      obtain ⟨⟨hcount, hsize⟩, hoffset⟩ := hlong
      have hshort : needsLong items.length (directoryBytes items).length (itemBytes items).length
          = false := by
        simp [needsLong, hcount, hsize, hoffset]
      have harchive : archiveBytes items
          = itemBytes items ++ directoryBytes items
            ++ endBytes items.length (directoryBytes items).length (itemBytes items).length := by
        rw [archiveBytes, closing, closingBytes, hshort, Nat.min_eq_left hcount,
          Nat.min_eq_left hsize, Nat.min_eq_left hoffset]
        rfl
      obtain ⟨others, hends⟩ := exists_ends (itemBytes items ++ directoryBytes items) hcount hsize
        hoffset
      rw [harchive]
      exact ⟨_, others, hends, place?_of_short hl hu hoffset rfl rfl rfl rfl rfl⟩

/-- **The directory of an archive is read back** from `archiveBytes`, if its last name is
`Unmistakable`. -/
theorem ofBytes?_archiveBytes (h : Fits items) :
    Directory.ofBytes? (archiveBytes items)
      = some { bytes := archiveBytes items, entries := listings 0 items } := by
  obtain ⟨e, others, hends, hplace⟩ := exists_place? hl hu h
  have hentries : takeEntries 0 items.length ((archiveBytes items).drop (itemBytes items).length)
      = some (listings 0 items) := by
    have htotal := h.total_le
    rw [archiveBytes, List.append_assoc, List.drop_left]
    exact takeEntries_directoryOf h.item (by omega) _
  rw [Directory.ofBytes?_eq_findSome?, hends, List.findSome?_cons, hplace]
  simp only [Option.bind_some, Directory.ofPlace?, Landmarks.bytesFrom_ofBytes, Nat.zero_add,
    hentries, List.drop_zero, Option.bind_eq_bind, pure]

end

/-- **An archive is read back**: its directory lists the items it was made of, in their order, and
gives their data (`Directory.Holds`). -/
theorem exists_directory {items : List Item} {last : Item} (hl : items.getLast? = some last)
    (hu : Unmistakable last.name) (h : Fits items) :
    ∃ d, Directory.ofBytes? (archiveBytes items) = some d
      ∧ List.Forall₂ d.Holds items d.entries := by
  have hbytes : archiveBytes items
      = [] ++ (itemBytes items ++ (directoryBytes items ++ closing items)) :=
    List.append_assoc ..
  exact ⟨_, ofBytes?_archiveBytes hl hu h, @holds_listings _ items [] _ h.item hbytes⟩

end OpenDocument.Zip
