import Mathlib.Data.List.Forall2
import OpenDocument.Proofs.Deflate.Streams
import OpenDocument.Proofs.Text
import OpenDocument.Proofs.Zip.Fields
import OpenDocument.Zip.Directory
import OpenDocument.Zip.Writer

/-!
# OpenDocument.Proofs.Zip.Layout

The archive of a list of items (`archiveBytes`), and what is read from its parts.  An archive is
laid out as the items with their local headers (`itemBytes`), the directory (`directoryBytes`), and
the records at the end (`closing`).  Behind the end of the items, the headers of the directory are
read back one by one (`takeEntries_directoryOf`), and the entries that they list lead to the items
(`holds_listings`).
-/

namespace OpenDocument.Zip

/-! ## Items -/

/-- An entry as an archive is given it. -/
structure Item where
  path : String
  data : Bytes
  method : Method
  deriving DecidableEq, Repr

namespace Item

variable (i : Item)

/-- The bytes of the path in UTF-8, by which an archive knows the item. -/
def name : Bytes :=
  i.path.toUTF8.toList

/-- The bytes that an archive holds for the data: `Deflate.compress` of it, or the data as it is. -/
def packed : Bytes :=
  Session.pack i.method i.data

/-- What the headers say of the item, once its content was measured. -/
def header : Header where
  name := i.name
  method := i.method
  crc := crc32 i.data
  compressedSize := i.packed.length
  size := i.data.length

/-- The item with its local header, `Header.localBytes`. -/
def bytes : Bytes :=
  i.header.localBytes ++ i.packed

/-- An item whose name and sizes have room in the headers. -/
structure Fits : Prop where
  name_le : i.name.length ≤ maxShort
  data_le : i.data.length ≤ maxLong
  packed_le : i.packed.length ≤ maxLong

/-- `unpack` gives the data back from what was packed. -/
theorem unpack_packed : unpack i.method i.packed = .ok i.data := by
  unfold packed Session.pack unpack
  cases i.method with
  | stored => rfl
  | deflated => simp only [Deflate.inflate_compress]

end Item

/-! ## Layout -/

/-- Items one after the other. -/
def itemBytes (items : List Item) : Bytes :=
  items.flatMap Item.bytes

/-- The headers of items with the positions of their local headers, the first one at `position`; the
list that `Session.directoryOf` writes. -/
def placed (position : Nat) : List Item → List (Header × Nat)
  | [] => []
  | i :: items => (i.header, position) :: placed (position + i.bytes.length) items

/-- The directory of items, by `Session.directoryOf`. -/
def directoryBytes (items : List Item) : Bytes :=
  Session.directoryOf (placed 0 items)

/-- What follows the directory of items: `closingBytes` for it. -/
def closing (items : List Item) : Bytes :=
  closingBytes (Session.versionOf (placed 0 items)) items.length (directoryBytes items).length
    (itemBytes items).length

/-- The archive of items. -/
def archiveBytes (items : List Item) : Bytes :=
  itemBytes items ++ directoryBytes items ++ closing items

/-- Items that have room in an archive: each of them in its headers, and all of them, with their
directory, in what 64 bits can tell. -/
structure Fits (items : List Item) : Prop where
  item : ∀ i ∈ items, i.Fits
  total_le : (itemBytes items).length + (directoryBytes items).length ≤ maxOffset

theorem itemBytes_cons (i : Item) (items : List Item) :
    itemBytes (i :: items) = i.bytes ++ itemBytes items :=
  List.flatMap_cons

theorem itemBytes_append (items items' : List Item) :
    itemBytes (items ++ items') = itemBytes items ++ itemBytes items' :=
  List.flatMap_append

theorem placed_append (position : Nat) (items items' : List Item) :
    placed position (items ++ items')
      = placed position items ++ placed (position + (itemBytes items).length) items' := by
  induction items generalizing position with
  | nil => simp [placed, itemBytes]
  | cons i items ih =>
      rw [List.cons_append, placed, placed, ih, List.cons_append, itemBytes_cons,
        List.length_append, Nat.add_assoc]

@[simp] theorem length_placed (position : Nat) (items : List Item) :
    (placed position items).length = items.length := by
  induction items generalizing position with
  | nil => rfl
  | cons i items ih => simp [placed, ih]

/-! ## Headers of the directory -/

theorem takeNumber_short {n : Nat} (h : n ≤ maxShort) (rest : Bytes) :
    takeNumber 2 (Bytes.littleEndian 2 n ++ rest) = some (n, rest) :=
  takeNumber_littleEndian (Nat.lt_succ_of_le h) rest

theorem takeNumber_long {n : Nat} (h : n ≤ maxLong) (rest : Bytes) :
    takeNumber 4 (Bytes.littleEndian 4 n ++ rest) = some (n, rest) :=
  takeNumber_littleEndian (Nat.lt_succ_of_le h) rest

theorem takeNumber_offset {n : Nat} (h : n ≤ maxOffset) (rest : Bytes) :
    takeNumber 8 (Bytes.littleEndian 8 n ++ rest) = some (n, rest) :=
  takeNumber_littleEndian (Nat.lt_succ_of_le h) rest

/-- The `Entry` that a header of the directory describes. -/
def Header.listing (h : Header) (offset : Nat) : Entry where
  name := h.name
  flags := h.flags
  method := h.method.code
  crc := h.crc.toNat
  compressedSize := h.compressedSize
  size := h.size
  offset := offset

theorem Header.flags_lt (h : Header) : h.flags < 65536 := by
  unfold flags
  split <;> decide

theorem Header.code_lt (h : Header) : h.method.code < 65536 := by
  cases h.method <;> decide

/-- `takeLong` reads a number back from 64 bits if `longNumber` has written it there, and else from
the field that has room for it. -/
theorem Entry.takeLong_longNumber {n : Nat} {all : Bool} (hn : n ≤ maxOffset)
    (ha : all = true → maxLong ≤ n) (rest : Bytes) :
    takeLong all (min n maxLong) (longNumber n ++ rest) = some (n, rest) := by
  unfold takeLong longNumber
  by_cases hlong : n < maxLong
  · have hall : all = false := by
      rw [← Bool.not_eq_true]
      exact fun h => absurd (ha h) (Nat.not_le_of_lt hlong)
    have hkept : (n == maxLong) = false := beq_eq_false_iff_ne.mpr (Nat.ne_of_lt hlong)
    rw [Nat.min_eq_left (Nat.le_of_lt hlong), if_pos hlong, hall, hkept]
    rfl
  · rw [Nat.min_eq_right (Nat.le_of_not_lt hlong), if_neg hlong, beq_self_eq_true, Bool.or_true,
      if_pos rfl]
    exact takeNumber_offset hn rest

/-- A field with numbers in 64 bits is the only one of its list by `Extra.list?`. -/
theorem Extra.list?_long {numbers : Bytes} (h : numbers.length < 65536) :
    list? (Bytes.littleEndian 2 longKind ++ Bytes.littleEndian 2 numbers.length ++ numbers)
      = some [.long (24 ≤ numbers.length) numbers] := by
  have hkind : Bytes.littleEndian 2 longKind = [1, 0] := by decide
  obtain ⟨n₀, n₁, hn⟩ : ∃ n₀ n₁, Bytes.littleEndian 2 numbers.length = [n₀, n₁] := ⟨_, _, rfl⟩
  have hlength : Bytes.ofLittleEndian [n₀, n₁] = numbers.length := by
    rw [← hn]
    exact Bytes.ofLittleEndian_littleEndian 2 numbers.length h
  have hone : Bytes.ofLittleEndian [1, 0] = longKind := by decide
  have hnone : list? [] = some [] := by simp [list?]
  rw [hkind, hn]
  simp only [List.cons_append, List.nil_append]
  rw [list?]
  simp [hlength, hone, ofBody?, hnone]

/-- The `longNumbers` of a header give the entry the numbers that have no room in 32 bits; there are
`all` three of them only if none of them has room. -/
theorem Header.withLong_longNumbers {h : Header} {offset : Nat} {all : Bool}
    (hc : h.compressedSize ≤ maxLong) (hs : h.size ≤ maxLong) (ho : offset ≤ maxOffset)
    (ha : all = true → maxLong ≤ h.size ∧ maxLong ≤ h.compressedSize ∧ maxLong ≤ offset) :
    (h.listing (min offset maxLong)).withLong all (h.longNumbers offset)
      = some (h.listing offset) := by
  have hbound : maxLong ≤ maxOffset := by decide
  have hsize := Entry.takeLong_longNumber (Nat.le_trans hs hbound) (fun hall => (ha hall).1)
    (longNumber h.compressedSize ++ longNumber offset)
  have hcompressed := Entry.takeLong_longNumber (Nat.le_trans hc hbound)
    (fun hall => (ha hall).2.1) (longNumber offset)
  have hoffset := Entry.takeLong_longNumber ho (fun hall => (ha hall).2.2) []
  rw [Nat.min_eq_left hs, ← List.append_assoc, ← longNumbers] at hsize
  rw [Nat.min_eq_left hc] at hcompressed
  rw [List.append_nil] at hoffset
  rw [Entry.withLong]
  refine Option.bind_eq_some_iff.mpr ⟨_, hsize, ?_⟩
  refine Option.bind_eq_some_iff.mpr ⟨_, hcompressed, ?_⟩
  exact Option.bind_eq_some_iff.mpr ⟨_, hoffset, rfl⟩

/-- The `extraField` of a header, read by `Extra.list?`, makes the entry for 32 bits the one that
the header describes. -/
theorem Header.exists_extraField {h : Header} {offset : Nat} (hc : h.compressedSize ≤ maxLong)
    (hs : h.size ≤ maxLong) (ho : offset ≤ maxOffset) :
    ∃ fields, Extra.list? (h.extraField offset) = some fields
      ∧ fields.foldlM Entry.withExtra (h.listing (min offset maxLong))
        = some (h.listing offset) := by
  have hnumbers := h.length_longNumbers offset
  simp only [extraField]
  by_cases hempty : (h.longNumbers offset).isEmpty
  · have hnone : (h.longNumbers offset).length = 0 := by
      rw [List.isEmpty_iff.mp hempty]
      rfl
    have hoffset : offset < maxLong := by
      by_contra hlong
      rw [if_neg hlong] at hnumbers
      omega
    refine ⟨[], ?_, ?_⟩
    · rw [if_pos hempty]
      simp [Extra.list?]
    · rw [Nat.min_eq_left (Nat.le_of_lt hoffset)]
      rfl
  · have hle : (h.longNumbers offset).length ≤ 24 := by
      rw [hnumbers]
      split <;> split <;> split <;> decide
    have hall : decide (24 ≤ (h.longNumbers offset).length) = true →
        maxLong ≤ h.size ∧ maxLong ≤ h.compressedSize ∧ maxLong ≤ offset := by
      intro hfull
      rw [decide_eq_true_eq, hnumbers] at hfull
      split at hfull <;> split at hfull <;> split at hfull <;> omega
    rw [if_neg hempty]
    refine ⟨_, Extra.list?_long (by omega), ?_⟩
    exact Option.bind_eq_some_iff.mpr ⟨_, withLong_longNumbers hc hs ho hall, rfl⟩

/-- The fields of `directoryBytes` in the groups in which they are read. -/
theorem Header.directoryBytes_append (h : Header) (offset : Nat) (rest : Bytes) :
    h.directoryBytes offset ++ rest
      = Bytes.littleEndian 4 directorySignature
        ++ ((Bytes.littleEndian 2 (0x0300 + h.version) ++ Bytes.littleEndian 2 h.version)
        ++ (Bytes.littleEndian 2 h.flags ++ (Bytes.littleEndian 2 h.method.code
        ++ ((Bytes.littleEndian 2 0 ++ Bytes.littleEndian 2 0x0021)
        ++ (Bytes.littleEndian 4 h.crc.toNat ++ (Bytes.littleEndian 4 h.compressedSize
        ++ (Bytes.littleEndian 4 h.size ++ (Bytes.littleEndian 2 h.name.length
        ++ (Bytes.littleEndian 2 (h.extraField offset).length ++ (Bytes.littleEndian 2 0
        ++ ((Bytes.littleEndian 2 0 ++ Bytes.littleEndian 2 0 ++ Bytes.littleEndian 4 0x81A40000)
        ++ (Bytes.littleEndian 4 (min offset maxLong)
        ++ (h.name ++ (h.extraField offset ++ rest)))))))))))))) := by
  simp only [directoryBytes, common, measured, List.append_assoc]

/-- `takeEntry` reads a header of the directory back, whatever follows. -/
theorem takeEntry_directoryBytes {h : Header} {offset : Nat} (hn : h.name.length ≤ maxShort)
    (hc : h.compressedSize ≤ maxLong) (hs : h.size ≤ maxLong) (ho : offset ≤ maxOffset)
    (rest : Bytes) :
    takeEntry 0 (h.directoryBytes offset ++ rest) = some (h.listing offset, rest) := by
  have versions : (Bytes.littleEndian 2 (0x0300 + h.version)
      ++ Bytes.littleEndian 2 h.version).length = 4 := by simp
  have times : (Bytes.littleEndian 2 0 ++ Bytes.littleEndian 2 0x0021).length = 4 := by simp
  have attributes : (Bytes.littleEndian 2 0 ++ Bytes.littleEndian 2 0
      ++ Bytes.littleEndian 4 0x81A40000).length = 8 := by simp
  have hextra : (h.extraField offset).length ≤ maxShort :=
    Nat.le_trans (h.length_extraField_le offset) (by decide)
  obtain ⟨fields, hfields, hlisting⟩ := h.exists_extraField hc hs ho
  have hcomment : Entry.textOf h.flags [] = [] := by
    unfold Entry.textOf
    split
    · exact Text.repair_of_ascii (by simp)
    · rw [byteArray_toList]
      rfl
  have hmethod : h.method.code ≠ Entry.aesMethod := by cases h.method <;> decide
  rw [Header.directoryBytes_append, takeEntry]
  -- field by field, in the order in which they are read
  refine Option.bind_eq_some_iff.mpr ⟨_, takeNumber_long (by decide) _, ?_⟩
  refine Option.bind_eq_some_iff.mpr ⟨(), if_pos rfl, ?_⟩
  refine Option.bind_eq_some_iff.mpr ⟨_, takeNumber_append versions _, ?_⟩
  refine Option.bind_eq_some_iff.mpr ⟨_, takeNumber_short (Nat.le_of_lt_succ h.flags_lt) _, ?_⟩
  refine Option.bind_eq_some_iff.mpr ⟨_, takeNumber_short (Nat.le_of_lt_succ h.code_lt) _, ?_⟩
  refine Option.bind_eq_some_iff.mpr ⟨_, takeNumber_append times _, ?_⟩
  refine Option.bind_eq_some_iff.mpr ⟨_, takeNumber_long (Nat.le_of_lt_succ h.crc.toNat_lt) _, ?_⟩
  refine Option.bind_eq_some_iff.mpr ⟨_, takeNumber_long hc _, ?_⟩
  refine Option.bind_eq_some_iff.mpr ⟨_, takeNumber_long hs _, ?_⟩
  refine Option.bind_eq_some_iff.mpr ⟨_, takeNumber_short hn _, ?_⟩
  refine Option.bind_eq_some_iff.mpr ⟨_, takeNumber_short hextra _, ?_⟩
  refine Option.bind_eq_some_iff.mpr ⟨_, takeNumber_short (Nat.zero_le _) _, ?_⟩
  refine Option.bind_eq_some_iff.mpr ⟨_, takeNumber_append attributes _, ?_⟩
  refine Option.bind_eq_some_iff.mpr ⟨_, takeNumber_long (Nat.min_le_right ..) _, ?_⟩
  refine Option.bind_eq_some_iff.mpr ⟨_, takeBytes_append _ _, ?_⟩
  refine Option.bind_eq_some_iff.mpr ⟨_, takeBytes_append _ _, ?_⟩
  refine Option.bind_eq_some_iff.mpr ⟨_, takeBytes_zero _, ?_⟩
  refine Option.bind_eq_some_iff.mpr ⟨_, hfields, ?_⟩
  refine Option.bind_eq_some_iff.mpr ⟨_, by rw [hcomment]; exact hlisting, ?_⟩
  refine Option.bind_eq_some_iff.mpr ⟨(), if_pos (.inl hmethod), ?_⟩
  exact Option.bind_eq_some_iff.mpr ⟨(), if_pos ho, rfl⟩

/-- What the directory lists of items: `Header.listing` for each of them. -/
def listings (position : Nat) (items : List Item) : List Entry :=
  (placed position items).map fun entry => entry.1.listing entry.2

/-- `takeEntries` reads a directory back header by header. -/
theorem takeEntries_directoryOf {position : Nat} {items : List Item} (hi : ∀ i ∈ items, i.Fits)
    (hp : position + (itemBytes items).length ≤ maxOffset) (rest : Bytes) :
    takeEntries 0 items.length (Session.directoryOf (placed position items) ++ rest)
      = some (listings position items) := by
  induction items generalizing position with
  | nil => rfl
  | cons i items ih =>
      obtain ⟨hfit, hfits⟩ := List.forall_mem_cons.mp hi
      rw [itemBytes_cons, List.length_append] at hp
      have hhead := takeEntry_directoryBytes (h := i.header) hfit.name_le hfit.packed_le
        hfit.data_le (by omega : position ≤ maxOffset)
        (Session.directoryOf (placed (position + i.bytes.length) items) ++ rest)
      have htail := @ih (position + i.bytes.length) hfits (by omega)
      simp only [placed, Session.directoryOf, List.flatMap_cons, List.length_cons, takeEntries,
        List.append_assoc] at hhead htail ⊢
      rw [hhead]
      simp only [Option.bind_eq_bind, Option.bind_some, htail]
      rfl

/-! ## Contents -/

/-- `d.Holds i e`: what the directory gives for the entry `e` is the item `i`, by its name, its
method and its data.  How the archive has compressed the data is left open. -/
structure Directory.Holds (d : Directory) (i : Item) (e : Entry) : Prop where
  name : e.name = i.name
  method : (d.open? e).map Prod.fst = some i.method
  content : d.content? e = some i.data

/-- Content that `content?` can read was unpacked and has the recorded checksum. -/
theorem Directory.exists_of_content? {d : Directory} {e : Entry} {content : Bytes}
    (h : d.content? e = some content) :
    ∃ method packed, d.open? e = some (method, packed) ∧ unpack method packed = .ok content
      ∧ verify e.crc content = .ok () := by
  obtain ⟨⟨method, packed⟩, hopen, h⟩ := Option.bind_eq_some_iff.mp h
  obtain ⟨content', hunpack, h⟩ := Option.bind_eq_some_iff.mp h
  obtain ⟨u, hverify, h⟩ := Option.bind_eq_some_iff.mp h
  cases h
  refine ⟨method, packed, hopen, ?_, ?_⟩
  · cases hu : unpack method packed with
    | error fault => rw [hu] at hunpack; cases hunpack
    | ok content' => rw [hu] at hunpack; cases hunpack; rfl
  · cases hv : verify e.crc content with
    | error fault => rw [hv] at hverify; cases hverify
    | ok u => rfl

/-- A text that was given to an archive can be read as a text. -/
theorem Directory.Holds.exists_unpackText {d : Directory} {i : Item} {e : Entry} (h : d.Holds i e)
    {text : String} (ht : i.data = text.toUTF8.toList) :
    ∃ method packed, d.open? e = some (method, packed)
      ∧ unpackText method packed e.crc = .ok text := by
  have hcontent := h.content
  rw [ht] at hcontent
  obtain ⟨method, packed, hopen, hunpack, hverify⟩ := Directory.exists_of_content? hcontent
  refine ⟨method, packed, hopen, ?_⟩
  simp only [unpackText, hunpack, fromUTF8?_toUTF8, hverify, bind, Except.bind, pure, Except.pure]

/-- The fields of `localBytes` in the groups in which they are read. -/
theorem Header.localBytes_append (h : Header) (rest : Bytes) :
    h.localBytes ++ rest
      = Bytes.littleEndian 4 localSignature
        ++ ((Bytes.littleEndian 2 h.version ++ Bytes.littleEndian 2 h.flags
          ++ Bytes.littleEndian 2 h.method.code ++ Bytes.littleEndian 2 0
          ++ Bytes.littleEndian 2 0x0021 ++ h.measured)
        ++ (Bytes.littleEndian 2 h.name.length ++ (Bytes.littleEndian 2 0
        ++ (h.name ++ rest)))) := by
  simp only [localBytes, localFields, common, List.append_assoc]

/-- `packed?` finds the bytes of an item behind its local header. -/
theorem packed?_listing {d : Directory} {i : Item} {front rest : Bytes}
    (hn : i.name.length ≤ maxShort) (hd : d.bytes = front ++ (i.bytes ++ rest)) :
    d.packed? (i.header.listing front.length) = some i.packed := by
  have hskip : (Bytes.littleEndian 2 i.header.version ++ Bytes.littleEndian 2 i.header.flags
      ++ Bytes.littleEndian 2 i.header.method.code ++ Bytes.littleEndian 2 0
      ++ Bytes.littleEndian 2 0x0021 ++ i.header.measured).length = 22 := by simp
  have hdrop : d.bytes.drop front.length = i.header.localBytes ++ (i.packed ++ rest) := by
    rw [hd, List.drop_left, Item.bytes, List.append_assoc]
  have htake : ((i.header.name ++ (i.packed ++ rest)).drop i.header.name.length).take
      i.packed.length = i.packed := by
    rw [List.drop_left, List.take_left]
  have hname : i.header.name.length ≤ maxShort := hn
  rw [Directory.packed?, Header.listing, hdrop, Header.localBytes_append]
  refine Option.bind_eq_some_iff.mpr ⟨_, takeNumber_long (by decide) _, ?_⟩
  refine Option.bind_eq_some_iff.mpr ⟨(), if_pos rfl, ?_⟩
  refine Option.bind_eq_some_iff.mpr ⟨_, takeNumber_append hskip _, ?_⟩
  refine Option.bind_eq_some_iff.mpr ⟨_, takeNumber_short hname _, ?_⟩
  refine Option.bind_eq_some_iff.mpr ⟨_, takeNumber_short (Nat.zero_le _) _, ?_⟩
  exact congrArg some htake

/-- The entry that the directory lists for an item gives the item: `Directory.Holds`. -/
theorem holds_listing {d : Directory} {i : Item} {front rest : Bytes} (hi : i.Fits)
    (hd : d.bytes = front ++ (i.bytes ++ rest)) :
    d.Holds i (i.header.listing front.length) := by
  have hopen : d.open? (i.header.listing front.length) = some (i.method, i.packed) := by
    have hplain : (i.header.listing front.length).isEncrypted = false := by
      simp only [Entry.isEncrypted, Header.listing, Header.flags]
      split <;> rfl
    have hguard : (guard !(i.header.listing front.length).isEncrypted : Option Unit) = some () :=
      if_pos (by rw [hplain]; rfl)
    refine Option.bind_eq_some_iff.mpr ⟨(), hguard, ?_⟩
    refine Option.bind_eq_some_iff.mpr ⟨_, Method.ofCode?_code i.method, ?_⟩
    exact Option.bind_eq_some_iff.mpr ⟨_, packed?_listing hi.name_le hd, rfl⟩
  refine ⟨rfl, congrArg (Option.map Prod.fst) hopen, ?_⟩
  have hverify : verify (i.header.listing front.length).crc i.data = .ok () := if_pos rfl
  have hunpack : (unpack i.method i.packed).toOption = some i.data := by
    rw [i.unpack_packed]
    rfl
  refine Option.bind_eq_some_iff.mpr ⟨_, hopen, ?_⟩
  refine Option.bind_eq_some_iff.mpr ⟨_, hunpack, ?_⟩
  exact Option.bind_eq_some_iff.mpr ⟨(), if_pos (by rw [hverify]; rfl), rfl⟩

/-- The entries that the directory lists for items give the items, one by one. -/
theorem holds_listings {d : Directory} {items : List Item} {front rest : Bytes}
    (hi : ∀ i ∈ items, i.Fits) (hd : d.bytes = front ++ (itemBytes items ++ rest)) :
    List.Forall₂ d.Holds items (listings front.length items) := by
  induction items generalizing front with
  | nil => exact .nil
  | cons i items ih =>
      obtain ⟨hfit, hfits⟩ := List.forall_mem_cons.mp hi
      rw [itemBytes_cons, List.append_assoc] at hd
      refine .cons (holds_listing hfit hd) ?_
      have htail := @ih (front ++ i.bytes) hfits (by rw [hd, List.append_assoc])
      rwa [List.length_append] at htail

end OpenDocument.Zip
