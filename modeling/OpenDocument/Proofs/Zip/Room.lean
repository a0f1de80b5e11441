import OpenDocument.Proofs.Zip.Log

/-!
# OpenDocument.Proofs.Zip.Room

Archives take what they have room for.  Over a sink that takes every piece (`Obliging`), an entry is
taken if its name is new and has room in the headers together with the sizes, and a finish if the
archive as a whole has room; `Reflects.exists_write` and `Reflects.exists_finish` say so for a
writer and its log.  `Roomy.fits` finds room without compressing anything.
-/

namespace OpenDocument.Zip

open Archive (Made Traced)
open Keeping (held)

/-- A sink whose `Sink.write` takes every piece. -/
class Obliging (σ : Type) [Sink σ] : Prop where
  exists_write : ∀ (s : σ) (position : Nat) (piece : Bytes),
    ∃ s', Sink.write s position piece = (.ok (), s')

instance : Obliging Memory where
  exists_write _ _ _ := ⟨_, rfl⟩

/-! ## Sessions -/

namespace Session

variable {σ : Type} [Sink σ] {items : List Item} {i : Item} {s s' : Session σ}

/-- A session with an `Account` is never closed. -/
theorem Account.stage_ne [Keeping σ] (h : Account items s) : s.stage ≠ .closed := by
  cases h with
  | settled h => rw [h.stage]; exact Stage.noConfusion
  | owing hi h => rw [h.stage]; exact Stage.noConfusion

variable [Obliging σ] {fault : StreamFault}

theorem append_ne_error {bs : Bytes} : s.append bs ≠ (.error fault, s') := by
  unfold append
  obtain ⟨sink, hsink⟩ := Obliging.exists_write s.sink s.position bs
  rw [hsink]
  split <;> simp

theorem measureLast_ne_error : s.measureLast ≠ (.error fault, s') := by
  unfold measureLast
  split
  · simp
  · next header position earlier _ =>
      obtain ⟨sink, hsink⟩ := Obliging.exists_write s.sink (position + Header.measuredOffset)
        { header with crc := s.content.crc, compressedSize := s.position - s.content.start
                      size := s.content.size : Header }.measured
      simp [hsink]

theorem settle_ne_error (h : s.stage ≠ .closed) : s.settle ≠ (.error fault, s') := by
  unfold settle
  split
  · simp
  · next hstage => exact absurd hstage h
  · split
    · exact measureLast_ne_error
    · next ha => exact absurd ha append_ne_error

theorem announce_ne_error {name : Bytes} {method : Method} (h : name.length ≤ maxShort) :
    s.announce name method ≠ (.error fault, s') := by
  unfold announce
  simp only [Nat.not_lt_of_le h, if_false]
  split
  · exact append_ne_error
  · next refused hne =>
      intro ha
      exact append_ne_error ha

theorem fill_ne_error {method : Method} {data packed : Bytes} :
    s.fill method data packed ≠ (.error fault, s') := by
  unfold fill
  simp only
  split
  · simp
  · next ha => exact absurd ha append_ne_error

variable [Keeping σ]

/-- An entry of a new name is taken by `Session.write`, if there is room in its headers. -/
theorem Account.exists_write (h : Account items s) (hi : i.Fits)
    (hn : i.name ∉ items.map Item.name) :
    ∃ s', s.write i.path i.data i.method = (.ok (), s') := by
  unfold Session.write
  split
  · next hs => exact absurd hs (settle_ne_error h.stage_ne)
  · next s₁ hs =>
      have hname : s₁.hasName i.path.toUTF8.toList = false :=
        (h.settle hs).hasName_eq_false.mpr hn
      have hsize : ¬ maxLong < max i.data.length (pack i.method i.data).length :=
        Nat.not_lt_of_le (Nat.max_le.mpr ⟨hi.data_le, hi.packed_le⟩)
      simp only [hname, Bool.false_eq_true, if_false, hsize]
      split
      · next ha => exact absurd ha (announce_ne_error hi.name_le)
      · split
        · next hf => exact absurd hf fill_ne_error
        · exact ⟨_, rfl⟩

/-- `Session.finish` is taken, if the archive has room (`Fits`). -/
theorem Account.exists_finish (h : Account items s) (hf : Fits items) :
    ∃ s', s.finish = (.ok (), s') := by
  unfold Session.finish
  split
  · next hs => exact absurd hs (settle_ne_error h.stage_ne)
  · next s₁ hsettle =>
      have hs := h.settle hsettle
      have hall : (placed 0 items).all hasRoom = true :=
        List.all_eq_true.mpr fun _ => hasRoom_of_mem_placed hf.item
      simp only [hs.listed_reverse, takeWhile_placed hf.item, hall, length_placed, hs.position_eq]
      split
      · next ha => exact absurd ha append_ne_error
      · next s₂ ha =>
          obtain ⟨-, -, hsize⟩ := hs.append_directory ha
          simp only [hsize, not_true_eq_false, false_or, Nat.not_lt_of_le hf.total_le, if_false]
          split
          · exact ⟨_, rfl⟩
          · next ha => exact absurd ha append_ne_error

end Session

/-! ## Writers -/

namespace Writer

variable {σ : Type} [Sink σ] [Keeping σ] {items : List Item} {w : Writer σ}

/-- A writer that has taken nothing but items is in a session, with an `Account` of them. -/
theorem Reflects.exists_session (h : Reflects (items.map Item.taken) w) :
    ∃ session : Session σ, w = .taking session ∧ session.Account items := by
  generalize hcalls : items.map Item.taken = calls at h
  cases h with
  | @taking items' session h hi hd =>
      rw [List.map_injective_iff.mpr Item.taken_injective hcalls]
      exact ⟨session, rfl, h⟩
  | @complete items' sink h hf hd =>
      have hmem : finished ∈ items.map Item.taken := by
        rw [hcalls]
        exact List.mem_append_right _ (List.mem_singleton_self _)
      exact absurd hmem (finished_not_mem_taken items)

variable [Obliging σ]

/-- An item of a new name that has room is taken by `Archive.writeEntry`. -/
theorem Reflects.exists_write (h : Reflects (items.map Item.taken) w) {i : Item} (hi : i.Fits)
    (hn : i.name ∉ items.map Item.name) :
    ∃ w', Archive.writeEntry w i.path i.data i.method = (.ok (), w') := by
  obtain ⟨session, rfl, haccount⟩ := h.exists_session
  obtain ⟨session', hs⟩ := haccount.exists_write hi hn
  refine ⟨.taking session', ?_⟩
  simp only [Archive.writeEntry, Writer.writeEntry, hs, ofZipResult]

/-- `Archive.finish` is taken, if the items have room. -/
theorem Reflects.exists_finish (h : Reflects (items.map Item.taken) w) (hf : Fits items) :
    ∃ w', Archive.finish w = (.ok (), w') := by
  obtain ⟨session, rfl, haccount⟩ := h.exists_session
  obtain ⟨session', hs⟩ := haccount.exists_finish hf
  refine ⟨.complete session'.sink, ?_⟩
  simp only [Archive.finish, Writer.finish, hs, ofZipResult]

end Writer

/-! ## Room -/

namespace Item

variable (i : Item)

/-- What an item takes of an archive at most: two headers with the name, one of them with an extra
field, and the data, which compression may make longer. -/
def extent : Nat :=
  104 + 2 * i.name.length + (i.data.length + 5 * (i.data.length / Deflate.maxStored + 1))

theorem length_packed_le :
    i.packed.length ≤ i.data.length + 5 * (i.data.length / Deflate.maxStored + 1) := by
  unfold packed Session.pack
  cases i.method with
  | stored => exact Nat.le_add_right _ _
  | deflated => exact Deflate.length_compress_le i.data

theorem data_le_extent : i.data.length ≤ i.extent := by
  unfold extent
  omega

theorem packed_le_extent : i.packed.length ≤ i.extent :=
  Nat.le_trans i.length_packed_le (Nat.le_add_left _ _)

/-- An item and its header in the directory are within its `extent`. -/
theorem length_add_length_le_extent (position : Nat) :
    i.bytes.length + (i.header.directoryBytes position).length ≤ i.extent := by
  have hpacked := i.length_packed_le
  have hname : i.header.name.length = i.name.length := rfl
  have hextra := i.header.length_extraField_le position
  rw [bytes, List.length_append, Header.length_localBytes, Header.length_directoryBytes, hname,
    extent]
  omega

end Item

/-- What items take of an archive at most. -/
def extents : List Item → Nat
  | [] => 0
  | i :: items => i.extent + extents items

theorem length_add_length_le_extents (position : Nat) (items : List Item) :
    (itemBytes items).length + (Session.directoryOf (placed position items)).length
      ≤ extents items := by
  induction items generalizing position with
  | nil => exact Nat.le_refl 0
  | cons i items ih =>
      have hitem := i.length_add_length_le_extent position
      have hitems := ih (position + i.bytes.length)
      have hdirectory : Session.directoryOf (placed position (i :: items))
          = i.header.directoryBytes position
            ++ Session.directoryOf (placed (position + i.bytes.length) items) := rfl
      rw [itemBytes_cons, hdirectory, List.length_append, List.length_append, extents]
      omega

/-- Items whose extents have room, each in 32 bits and all together in 64.  Unlike `Fits`, this is
found without compressing. -/
structure Roomy (items : List Item) : Prop where
  name_le : ∀ i ∈ items, i.name.length ≤ maxShort
  extent_le : ∀ i ∈ items, i.extent ≤ maxLong
  extents_le : extents items ≤ maxOffset

instance (items : List Item) : Decidable (Roomy items) :=
  decidable_of_iff ((∀ i ∈ items, i.name.length ≤ maxShort) ∧ (∀ i ∈ items, i.extent ≤ maxLong)
      ∧ extents items ≤ maxOffset)
    ⟨fun ⟨hn, hi, he⟩ => ⟨hn, hi, he⟩, fun h => ⟨h.name_le, h.extent_le, h.extents_le⟩⟩

theorem Roomy.fits {items : List Item} (h : Roomy items) : Fits items where
  item i hi := by
    have hextent := h.extent_le i hi
    exact ⟨h.name_le i hi, Nat.le_trans i.data_le_extent hextent,
      Nat.le_trans i.packed_le_extent hextent⟩
  total_le := Nat.le_trans (length_add_length_le_extents 0 items) h.extents_le

end OpenDocument.Zip
