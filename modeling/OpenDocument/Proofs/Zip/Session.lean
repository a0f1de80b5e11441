import Mathlib.Data.List.TakeWhile
import OpenDocument.Proofs.Zip.Layout

/-!
# OpenDocument.Proofs.Zip.Session

What a writer of archives leaves in its sink.  Checksum and sizes of an entry are put into its local
header late, and compressed bytes may be held back, so in the middle of a session the sink holds the
items but for the end of the last one: `Settled` is the state when nothing is owed, `Owing` the one
behind a write.  A session in which every call was taken ends with the archive of its items in the
sink (`Account.finish`).
-/

namespace OpenDocument.Zip

/-! ## Sinks that keep what they take -/

/-- What a sink holds after a piece was written over what it holds or right behind it. -/
def patch (held : Bytes) (position : Nat) (piece : Bytes) : Bytes :=
  held.take position ++ (piece ++ held.drop (position + piece.length))

/-- A sink that keeps what it takes. -/
class Keeping (σ : Type) [Sink σ] where
  held : σ → Bytes
  held_write : ∀ {s s' : σ} {position : Nat} {piece : Bytes}, position ≤ (held s).length →
    Sink.write s position piece = (.ok (), s') → held s' = patch (held s) position piece

instance : Keeping Memory where
  held m := m.written.toList
  held_write {m m' position piece} h hw := by
    have hgap : position - m.written.size = 0 := Nat.sub_eq_zero_of_le (by simpa using h)
    cases hw
    rw [Memory.toList_write, hgap, List.replicate_zero, List.append_nil, List.append_assoc, patch]

theorem patch_length (held piece : Bytes) : patch held held.length piece = held ++ piece := by
  rw [patch, List.take_length, List.drop_eq_nil_of_le (by omega), List.append_nil]

/-- A `patch` takes the place of a piece of the same length. -/
theorem patch_append {front old piece back : Bytes} (h : old.length = piece.length) :
    patch (front ++ (old ++ back)) front.length piece = front ++ (piece ++ back) := by
  rw [patch, List.take_left, ← h, ← List.drop_drop, List.drop_left, List.drop_left]

/-! ## Local headers -/

/-- The header of an item before its content was written. -/
def Item.blank (i : Item) : Header where
  name := i.name
  method := i.method
  crc := 0
  compressedSize := 0
  size := 0

namespace Header

/-- The fields of a local header in front of `Header.measured`. -/
def lead (h : Header) : Bytes :=
  Bytes.littleEndian 4 localSignature ++ Bytes.littleEndian 2 h.version
    ++ Bytes.littleEndian 2 h.flags ++ Bytes.littleEndian 2 h.method.code
    ++ Bytes.littleEndian 2 0 ++ Bytes.littleEndian 2 0x0021

/-- What follows `Header.measured` in a local header. -/
def trail (h : Header) : Bytes :=
  Bytes.littleEndian 2 h.name.length ++ Bytes.littleEndian 2 0 ++ h.name

theorem localBytes_eq (h : Header) : h.localBytes = h.lead ++ (h.measured ++ h.trail) := by
  simp only [localBytes, localFields, common, lead, trail, List.append_assoc]

theorem length_lead (h : Header) : h.lead.length = measuredOffset := by
  simp [lead, measuredOffset]

end Header

/-- Putting the measured fields into a `blank` header makes it the header of the item. -/
theorem patch_blank (i : Item) (front back : Bytes) :
    patch (front ++ (i.blank.localBytes ++ back)) (front.length + Header.measuredOffset)
      i.header.measured = front ++ (i.header.localBytes ++ back) := by
  have hlength : i.blank.measured.length = i.header.measured.length := by
    rw [Header.length_measured, Header.length_measured]
  have hposition : front.length + Header.measuredOffset = (front ++ i.header.lead).length := by
    rw [List.length_append, Header.length_lead]
  -- the rest of a local header tells nothing of the content
  have hblank : i.blank.localBytes = i.header.lead ++ (i.blank.measured ++ i.header.trail) :=
    i.blank.localBytes_eq
  rw [hblank, i.header.localBytes_eq, hposition]
  have hpatch := @patch_append (front ++ i.header.lead) i.blank.measured i.header.measured
    (i.header.trail ++ back) hlength
  simpa only [List.append_assoc] using hpatch

namespace Session

open Keeping (held held_write)

variable {σ : Type} [Sink σ] [Keeping σ] {items : List Item} {i : Item} {s s' : Session σ}

/-! ## Pieces -/

/-- A session whose `position` is the end of what its sink holds, so that its pieces go behind
it. -/
def AtEnd (s : Session σ) : Prop :=
  s.position = (held s.sink).length

/-- A piece that `append` has written is behind what the sink held, and nothing else has changed. -/
theorem append_eq_ok {bs : Bytes} (hs : AtEnd s) (h : s.append bs = (.ok (), s')) :
    AtEnd s' ∧ held s'.sink = held s.sink ++ bs ∧ s'.listed = s.listed
      ∧ s'.content = s.content ∧ s'.stage = s.stage := by
  unfold append at h
  cases hb : bs.isEmpty with
  | true =>
      rw [hb, if_pos rfl] at h
      cases h
      rw [List.isEmpty_iff.mp hb, List.append_nil]
      exact ⟨hs, rfl, rfl, rfl, rfl⟩
  | false =>
      rw [hb, if_neg (by simp)] at h
      cases hw : Sink.write s.sink s.position bs with
      | mk result sink =>
          rw [hw] at h
          cases result with
          | error fault => cases h
          | ok u =>
              cases h
              have hheld : held sink = held s.sink ++ bs := by
                rw [held_write (Nat.le_of_eq hs) hw, hs, patch_length]
              refine ⟨?_, hheld, rfl, rfl, rfl⟩
              rw [AtEnd, hheld, List.length_append, hs]

/-! ## States -/

/-- A session that owes nothing to its items: it holds `itemBytes`, and lists what is `placed`. -/
structure Settled (items : List Item) (s : Session σ) : Prop where
  atEnd : AtEnd s
  held_eq : held s.sink = itemBytes items
  listed : s.listed = (placed 0 items).reverse
  stage : s.stage = .settled

/-- A session that owes the end of its last item, of which `early` bytes were written, and the
measured fields of its header. -/
structure Owing (items : List Item) (last : Item) (early : Nat) (s : Session σ) : Prop where
  atEnd : AtEnd s
  held_eq : held s.sink
    = itemBytes items ++ (last.blank.localBytes ++ last.packed.take early)
  listed : s.listed = (last.blank, (itemBytes items).length) :: (placed 0 items).reverse
  content : s.content =
    { start := (itemBytes items).length + last.blank.localBytes.length, size := last.data.length
      crc := crc32 last.data }
  stage : s.stage = .pending (last.packed.drop early)

theorem Settled.position_eq (h : Settled items s) : s.position = (itemBytes items).length := by
  rw [h.atEnd, h.held_eq]

theorem Settled.listed_reverse (h : Settled items s) : s.listed.reverse = placed 0 items := by
  rw [h.listed, List.reverse_reverse]

theorem placed_concat (items : List Item) (last : Item) :
    (placed 0 (items ++ [last])).reverse
      = (last.header, (itemBytes items).length) :: (placed 0 items).reverse := by
  rw [placed_append, List.reverse_append, Nat.zero_add]
  rfl

theorem itemBytes_concat (items : List Item) (last : Item) :
    itemBytes (items ++ [last]) = itemBytes items ++ (last.header.localBytes ++ last.packed) := by
  rw [itemBytes_append, itemBytes_cons, Item.bytes]
  simp only [itemBytes, List.flatMap_nil, List.append_nil]

/-- The content of the last item is all there, and `measureLast` gives its header the measured
fields. -/
theorem settled_of_measureLast (hs : AtEnd s)
    (hheld : held s.sink = itemBytes items ++ (i.blank.localBytes ++ i.packed))
    (hlisted : s.listed = (i.blank, (itemBytes items).length) :: (placed 0 items).reverse)
    (hcontent : s.content =
      { start := (itemBytes items).length + i.blank.localBytes.length, size := i.data.length
        crc := crc32 i.data })
    (hm : s.measureLast = (.ok (), s')) : Settled (items ++ [i]) s' := by
  have hsize : s.position - s.content.start = i.packed.length := by
    rw [hs, hheld, hcontent, List.length_append, List.length_append]
    simp only
    omega
  have hheader : { i.blank with
      crc := s.content.crc, compressedSize := s.position - s.content.start
      size := s.content.size } = i.header := by
    rw [hsize, hcontent]
    rfl
  unfold measureLast at hm
  simp only [hlisted, hheader] at hm
  cases hw : Sink.write s.sink ((itemBytes items).length + Header.measuredOffset)
      i.header.measured with
  | mk result sink =>
      rw [hw] at hm
      cases result with
      | error fault => cases hm
      | ok u =>
          cases hm
          have hwithin : (itemBytes items).length + Header.measuredOffset
              ≤ (held s.sink).length := by
            rw [hheld, List.length_append, List.length_append, Header.length_localBytes]
            simp only [Header.measuredOffset]
            omega
          have hsettled : held sink = itemBytes (items ++ [i]) := by
            rw [held_write hwithin hw, hheld, patch_blank, itemBytes_concat]
          refine ⟨?_, hsettled, (placed_concat items i).symm, rfl⟩
          -- the measured fields take the place of as many blank ones
          rw [AtEnd, hs, hsettled, hheld, itemBytes_concat]
          simp only [List.length_append, Header.length_localBytes]
          rfl

/-- What was owed to the last item is done by `settle`, and the session is `Settled`. -/
theorem Owing.settle {early : Nat} (h : Owing items i early s) (hs : s.settle = (.ok (), s')) :
    Settled (items ++ [i]) s' := by
  unfold Session.settle at hs
  simp only [h.stage] at hs
  cases ha : s.append (i.packed.drop early) with
  | mk result s₁ =>
      rw [ha] at hs
      cases result with
      | error fault => cases hs
      | ok u =>
          obtain ⟨hend, hheld, hlisted, hcontent, -⟩ := append_eq_ok h.atEnd ha
          rw [h.held_eq, List.append_assoc, List.append_assoc, List.take_append_drop] at hheld
          exact settled_of_measureLast (s := { s₁ with stage := .pending [] }) hend hheld
            (hlisted.trans h.listed) (hcontent.trans h.content) hs

/-- What a session has in its account: it is `Settled` with its items, or it is still `Owing` the
last of them. -/
inductive Account (items : List Item) (s : Session σ) : Prop
  | settled (h : Settled items s)
  | owing {init : List Item} {last : Item} {early : Nat} (hi : items = init ++ [last])
      (h : Owing init last early s)

theorem Account.settle (h : Account items s) (hs : s.settle = (.ok (), s')) :
    Settled items s' := by
  cases h with
  | settled h =>
      unfold Session.settle at hs
      simp only [h.stage] at hs
      cases hs
      exact h
  | owing hi h =>
      rw [hi]
      exact h.settle hs

/-! ## Writing -/

/-- A local header that `announce` has written stands at the end, and its entry is listed. -/
theorem Settled.announce (h : Settled items s)
    (ha : s.announce i.name i.method = (.ok (), s')) :
    i.name.length ≤ maxShort ∧ AtEnd s' ∧ held s'.sink = itemBytes items ++ i.blank.localBytes
      ∧ s'.listed = (i.blank, (itemBytes items).length) :: (placed 0 items).reverse := by
  unfold Session.announce at ha
  simp only at ha
  split at ha
  · cases ha
  · next hname =>
    split at ha
    · next s₁ h₁ =>
      obtain ⟨hend, hheld, hlisted, -⟩ := append_eq_ok (by exact h.atEnd) h₁
      obtain ⟨hend', hheld', hlisted', -⟩ := append_eq_ok hend ha
      have hfields : held s₁.sink = itemBytes items ++ i.blank.localFields :=
        hheld.trans (congrArg (· ++ i.blank.localFields) h.held_eq)
      refine ⟨Nat.le_of_not_lt hname, hend', ?_, ?_⟩
      · rw [hheld', hfields, List.append_assoc]
        rfl
      · rw [hlisted', hlisted, ← h.listed, ← h.position_eq]
        rfl
    · next refused => exact absurd ha (refused s')

/-- Content that `fill` has taken is at the end but for what is held back, and it is measured. -/
theorem fill_eq_ok (hs : AtEnd s) (hf : s.fill i.method i.data i.packed = (.ok (), s')) :
    ∃ early, AtEnd s' ∧ held s'.sink = held s.sink ++ i.packed.take early
      ∧ s'.listed = s.listed
      ∧ s'.content = { start := s.position, size := i.data.length, crc := crc32 i.data }
      ∧ s'.stage = .pending (i.packed.drop early) := by
  unfold Session.fill at hf
  simp only at hf
  split at hf
  · next s₁ h₁ =>
    cases hf
    obtain ⟨hend, hheld, hlisted, hcontent, -⟩ := append_eq_ok (by exact hs) h₁
    refine ⟨_, hend, hheld, hlisted, ?_, rfl⟩
    rw [hcontent]
  · split at hf <;> cases hf

/-- The names that a `Settled` session lists are those of its items. -/
theorem Settled.hasName_eq_false (h : Settled items s) {name : Bytes} :
    s.hasName name = false ↔ name ∉ items.map Item.name := by
  have names : ∀ (items : List Item) (position : Nat),
      (placed position items).map (fun entry => entry.1.name) = items.map Item.name := by
    intro items
    induction items with
    | nil => intro position; rfl
    | cons i items ih =>
        intro position
        rw [placed, List.map_cons, List.map_cons, ih]
        rfl
  rw [← names items 0, hasName, h.listed, List.any_reverse, List.any_eq_false, List.mem_map]
  simp only [beq_iff_eq, not_exists, not_and]

/-- An entry that `write` has taken comes into the account. -/
theorem Account.write (h : Account items s)
    (hw : s.write i.path i.data i.method = (.ok (), s')) :
    Account (items ++ [i]) s' ∧ i.Fits ∧ i.name ∉ items.map Item.name := by
  unfold Session.write at hw
  cases hsettle : s.settle with
  | mk result s₁ =>
      rw [hsettle] at hw
      cases result with
      | error fault => cases hw
      | ok u =>
          have hs := h.settle hsettle
          simp only at hw
          split at hw
          · cases hw
          · next hname =>
            split at hw
            · cases hw
            · next hsize =>
              split at hw
              · cases hw
              · next s₂ hannounce =>
                split at hw
                · cases hw
                · next s₃ hfill =>
                  cases hw
                  obtain ⟨hlength, hend, hheld, hlisted⟩ := hs.announce hannounce
                  obtain ⟨early, hend', hheld', hlisted', hcontent, hstage⟩ :=
                    fill_eq_ok hend hfill
                  have hmax : max i.data.length i.packed.length ≤ maxLong :=
                    Nat.le_of_not_lt hsize
                  refine ⟨.owing rfl ⟨hend', ?_, ?_, ?_, hstage⟩,
                    ⟨hlength, (Nat.max_le.mp hmax).1, (Nat.max_le.mp hmax).2⟩, ?_⟩
                  · rw [hheld', hheld, List.append_assoc]
                  · rw [hlisted', hlisted]
                  · rw [hcontent, hend, hheld, List.length_append]
                  · exact hs.hasName_eq_false.mp (eq_false_of_ne_true hname)

theorem hasRoom_of_mem_placed {position : Nat} (hi : ∀ i ∈ items, i.Fits) {entry : Header × Nat}
    (h : entry ∈ placed position items) : hasRoom entry = true := by
  induction items generalizing position with
  | nil => cases h
  | cons i items ih =>
      obtain ⟨hfit, hfits⟩ := List.forall_mem_cons.mp hi
      rcases List.mem_cons.mp h with rfl | h
      · exact decide_eq_true hfit.name_le
      · exact ih hfits h

theorem takeWhile_placed (hi : ∀ i ∈ items, i.Fits) :
    (placed 0 items).takeWhile hasRoom = placed 0 items :=
  List.takeWhile_eq_self_iff.mpr fun _ => hasRoom_of_mem_placed hi

/-- Behind its items, a `Settled` session has written the directory. -/
theorem Settled.append_directory (h : Settled items s)
    (hd : s.append (directoryOf (placed 0 items)) = (.ok (), s')) :
    AtEnd s' ∧ held s'.sink = itemBytes items ++ directoryBytes items
      ∧ s'.position - (itemBytes items).length = (directoryBytes items).length := by
  obtain ⟨hend, hheld, -⟩ := append_eq_ok h.atEnd hd
  rw [h.held_eq] at hheld
  refine ⟨hend, hheld, ?_⟩
  rw [hend, hheld, List.length_append]
  exact Nat.add_sub_cancel_left _ _

/-- What `finish` has finished is the archive of the items. -/
theorem Account.finish (h : Account items s) (hi : ∀ i ∈ items, i.Fits)
    (hf : s.finish = (.ok (), s')) : held s'.sink = archiveBytes items ∧ Fits items := by
  unfold Session.finish at hf
  cases hsettle : s.settle with
  | mk result s₁ =>
      rw [hsettle] at hf
      cases result with
      | error fault => cases hf
      | ok u =>
          have hs := h.settle hsettle
          simp only [hs.listed_reverse, takeWhile_placed hi, length_placed, hs.position_eq] at hf
          cases hd : s₁.append (directoryOf (placed 0 items)) with
          | mk result s₂ =>
              rw [hd] at hf
              cases result with
              | error fault => cases hf
              | ok u =>
                  obtain ⟨hend, hheld, hsize⟩ := hs.append_directory hd
                  simp only [hsize] at hf
                  split at hf
                  · cases hf
                  · next hlimits =>
                    simp only [not_or, not_not, Nat.not_lt] at hlimits
                    split at hf
                    · next s₃ he =>
                      cases hf
                      obtain ⟨-, hall, -⟩ := append_eq_ok hend he
                      refine ⟨?_, hi, hlimits.2⟩
                      rw [hall, hheld]
                      rfl
                    · cases hf

end Session

end OpenDocument.Zip
