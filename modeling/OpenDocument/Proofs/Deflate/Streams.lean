import OpenDocument.Deflate.Compress
import OpenDocument.Proofs.Deflate.Reading

/-!
# OpenDocument.Proofs.Deflate.Streams

What `compress` writes is a stream that stands for the data, so `inflate` reads it back:
`isStream_compress`, `inflate_compress`.  Both forms of a stream are covered, one block in the fixed
code and stored blocks.  A stream is never much longer than the data: `length_compress_le`.
-/

namespace OpenDocument.Deflate

/-! ## Ranges -/

/-- Ranges that follow one another without a gap up to a limit. -/
def Gapless (limit : Nat) : List (Nat × Nat) → Prop
  | [] => False
  | [r] => limit ≤ r.1 + 2 ^ r.2
  | r :: s :: rest => r.1 < s.1 ∧ s.1 ≤ r.1 + 2 ^ r.2 ∧ Gapless limit (s :: rest)

/-- No range begins in front of the first one. -/
theorem Gapless.le_of_mem {limit : Nat} {r s : Nat × Nat} {rest : List (Nat × Nat)}
    (h : Gapless limit (r :: rest)) (hs : s ∈ r :: rest) : r.1 ≤ s.1 := by
  induction rest generalizing r with
  | nil => exact Nat.le_of_eq (congrArg Prod.fst (List.mem_singleton.mp hs).symm)
  | cons r' rest ih =>
      rcases List.mem_cons.mp hs with rfl | hs
      · exact Nat.le_refl _
      · exact Nat.le_trans (Nat.le_of_lt h.1) (ih h.2.2 hs)

/-- A value below the limit is in the last range that begins at or below it. -/
theorem Gapless.exists_range {limit v : Nat} {r : Nat × Nat} {rest : List (Nat × Nat)}
    (h : Gapless limit (r :: rest)) (hr : r.1 ≤ v) (hv : v < limit) :
    ∃ i least extra, ((r :: rest).filter fun r => r.1 ≤ v).length = i + 1
      ∧ (r :: rest)[i]? = some (least, extra) ∧ least ≤ v ∧ v < least + 2 ^ extra := by
  induction rest generalizing r with
  | nil => exact ⟨0, r.1, r.2, by simp [hr], rfl, hr, Nat.lt_of_lt_of_le hv h⟩
  | cons s rest ih =>
      by_cases hs : s.1 ≤ v
      · obtain ⟨i, least, extra, hi, hget, hle, hlt⟩ := ih h.2.2 hs
        refine ⟨i + 1, least, extra, ?_, hget, hle, hlt⟩
        rw [List.filter_cons_of_pos (by simpa using hr), List.length_cons, hi]
      · have hnone : ((s :: rest).filter fun r => r.1 ≤ v) = [] := by
          rw [List.filter_eq_nil_iff]
          intro t ht
          have := h.2.2.le_of_mem ht
          simp only [decide_eq_true_eq]
          omega
        refine ⟨0, r.1, r.2, ?_, rfl, hr, ?_⟩
        · rw [List.filter_cons_of_pos (by simpa using hr), hnone]
          rfl
        · have := h.2.1
          omega

/-- Ranges for the values from `least` on and below `limit`, without a gap (`Gapless`). -/
def Covers (least limit : Nat) (ranges : List (Nat × Nat)) : Prop :=
  ∃ extra rest, ranges = (least, extra) :: rest ∧ Gapless limit ranges

/-- `rangeOf` finds the range of a value that the ranges cover. -/
theorem Covers.rangeOf_eq {least limit v : Nat} {ranges : List (Nat × Nat)}
    (h : Covers least limit ranges) (hr : least ≤ v) (hv : v < limit) :
    ∃ k first extra, rangeOf ranges v = (k, Bits.field extra (v - first))
      ∧ ranges[k]? = some (first, extra) ∧ first ≤ v ∧ v < first + 2 ^ extra := by
  obtain ⟨extra, rest, hranges, hg⟩ := h
  have hrange : ∃ k first extra, (ranges.filter fun r => r.1 ≤ v).length = k + 1
      ∧ ranges[k]? = some (first, extra) ∧ first ≤ v ∧ v < first + 2 ^ extra := by
    rw [hranges] at hg ⊢
    exact hg.exists_range hr hv
  obtain ⟨k, first, extra, hk, hget, hle, hlt⟩ := hrange
  refine ⟨k, first, extra, ?_, hget, hle, hlt⟩
  rw [rangeOf, hk, Nat.add_sub_cancel, List.getD_eq_getElem?_getD, hget]
  rfl

/-- What `rangeOf` gives for a value that the ranges cover is its symbol, and its extra bits. -/
theorem Covers.inRange {least limit v : Nat} {ranges : List (Nat × Nat)}
    (h : Covers least limit ranges) (hr : least ≤ v) (hv : v < limit) :
    InRange ranges v (rangeOf ranges v).1 (rangeOf ranges v).2 := by
  obtain ⟨k, first, extra, heq, hget, hle, hlt⟩ := h.rangeOf_eq hr hv
  rw [heq]
  exact ⟨first, extra, hget, hle, hlt, rfl⟩

theorem InRange.lt_length {ranges : List (Nat × Nat)} {value symbol : Nat} {bits : Bits}
    (h : InRange ranges value symbol bits) : symbol < ranges.length := by
  obtain ⟨least, extra, hget, -⟩ := h
  exact (List.getElem?_eq_some_iff.mp hget).1

theorem covers_lengthRanges : Covers minCopy (maxCopy + 1) lengthRanges := by
  refine ⟨0, _, rfl, ?_⟩
  simp only [lengthRanges, Gapless, maxCopy]
  decide

theorem covers_distanceRanges : Covers 1 (maxDistance + 1) distanceRanges := by
  refine ⟨0, _, rfl, ?_⟩
  simp only [distanceRanges, Gapless, maxDistance]
  decide

/-! ## The fixed code -/

/-- Every symbol has a word in a code without zero lengths. -/
theorem spells_getD {lengths : List Nat} (h : ∀ l ∈ lengths, l ≠ 0 ∧ l ≤ maxLength) {s : Nat}
    (hs : s < lengths.length) :
    Spells (codeWords lengths) s ((codeWords lengths).toArray.getD s []) := by
  have hmax : ∀ l ∈ lengths, l ≤ maxLength := fun l hl => (h l hl).2
  have hspells := (spells_codeWords_iff hmax).mpr
    ⟨lengths[s], List.getElem?_eq_getElem hs, (h _ (List.getElem_mem hs)).1, rfl⟩
  rwa [Array.getD_eq_getD_getElem?, List.getElem?_toArray, hspells.1, Option.getD_some]

theorem spells_fixedWords {s : Nat} (h : s < 288) :
    Spells fixedCodes.literals s (fixedWords.getD s []) := by
  rw [literals_fixedCodes]
  exact spells_getD (by decide +kernel) (Nat.lt_of_lt_of_eq h (by decide +kernel))

theorem spells_fixedDistanceWords {s : Nat} (h : s < 32) :
    Spells fixedCodes.distances s (fixedDistanceWords.getD s []) := by
  rw [distances_fixedCodes]
  exact spells_getD (by decide +kernel) (Nat.lt_of_lt_of_eq h (by decide +kernel))

/-- `Token.fixedBits` are the bits of a token in the fixed code. -/
theorem Token.Expressible.writes {t : Token} (ht : t.Expressible) :
    fixedCodes.Writes t t.fixedBits := by
  cases t with
  | literal b => exact .literal (spells_fixedWords (Nat.lt_trans b.toNat_lt (by decide)))
  | copy length distance =>
      obtain ⟨⟨hmin, hmax⟩, hpos, hfar⟩ := ht
      have hlength := covers_lengthRanges.inRange hmin (Nat.lt_succ_of_le hmax)
      have hdistance := covers_distanceRanges.inRange hpos (Nat.lt_succ_of_le hfar)
      have hsymbol : firstCopySymbol + (rangeOf lengthRanges length).1 < 288 := by
        have hlt := hlength.lt_length
        rw [show lengthRanges.length = 29 from rfl] at hlt
        simp only [firstCopySymbol]
        omega
      simp only [Token.fixedBits, List.append_assoc]
      exact .copy (spells_fixedWords hsymbol) hlength
        (spells_fixedDistanceWords (Nat.lt_trans hdistance.lt_length (by decide))) hdistance

/-- The `fixedBits` of tokens, and of the end behind them. -/
theorem writesAll_foldr {ts : List Token} (ht : ∀ t ∈ ts, t.Expressible) :
    fixedCodes.WritesAll ts
      (ts.foldr (fun t rest => t.fixedBits ++ rest) (fixedWords.getD endSymbol [])) := by
  induction ts with
  | nil =>
      have hend := spells_fixedWords (show endSymbol < 288 by decide)
      rw [List.foldr_nil]
      exact .stop hend
  | cons t ts ih =>
      obtain ⟨ht, hts⟩ := List.forall_mem_cons.mp ht
      exact .cons ht.writes (ih hts)

/-- `fixedBlock` is a stream of one block in the fixed code. -/
theorem isStream_fixedBlock {ts : List Token} (ht : ∀ t ∈ ts, t.Expressible) {content : Bytes}
    (hcontent : Expands ts #[] content.toArray) :
    IsStream (Bits.toBytes (fixedBlock ts)) content := by
  obtain ⟨fill, hfill, hbits⟩ := Bits.ofBytes_toBytes (fixedBlock ts)
  exact ⟨fixedBlock ts, fill, .last (.fixed (writesAll_foldr ht) hcontent), hfill, hbits⟩

/-! ## Stored blocks -/

theorem length_storedBlock (final : Bool) (data : Bytes) :
    (storedBlock final data).length = data.length + 5 := by
  rw [storedBlock]
  simp only [List.cons_append, List.length_cons, List.length_append, Bytes.length_littleEndian]
  omega

/-- The bits of a `storedBlock`, which begins with a whole byte. -/
theorem ofBytes_storedBlock (final : Bool) (data : Bytes) :
    Bits.ofBytes (storedBlock final data) = [final, false, false] ++ (List.replicate 5 false
      ++ (Bits.field 16 data.length ++ (Bits.field 16 (65535 - data.length)
        ++ Bits.ofBytes data))) := by
  have hhead : Bits.ofBytes [if final then 1 else 0]
      = [final, false, false] ++ List.replicate 5 false := by
    cases final <;> rfl
  rw [storedBlock, ← List.singleton_append, List.append_assoc, List.append_assoc,
    Bits.ofBytes_append, hhead, Bits.ofBytes_append, Bits.ofBytes_littleEndian,
    Bits.ofBytes_append, Bits.ofBytes_littleEndian, List.append_assoc]
  rfl

theorem block_storedBlock {position : Nat} (hposition : 8 ∣ position) (final : Bool)
    (out : Array UInt8) {data : Bytes} (h : data.length ≤ maxStored) :
    Block position final out (out ++ data) (Bits.ofBytes (storedBlock final data)) := by
  rw [ofBytes_storedBlock]
  refine .stored h (by decide) ?_
  rw [List.length_replicate]
  omega

/-- `storedBlocks` put the data behind the output. -/
theorem blocks_storedBlocks (data : Bytes) {position : Nat} (hposition : 8 ∣ position)
    (out : Array UInt8) :
    Blocks position out (out ++ data) (Bits.ofBytes (storedBlocks data)) := by
  induction data using storedBlocks.induct generalizing position out with
  | case1 data h =>
      rw [storedBlocks, if_pos h]
      exact .last (block_storedBlock hposition true out h)
  | case2 data h ih =>
      have hsplit : out ++ data.take maxStored ++ data.drop maxStored = out ++ data := by
        simp [← Array.toList_inj]
      rw [storedBlocks, if_neg h, Bits.ofBytes_append, ← hsplit]
      refine .cons (block_storedBlock hposition false out (List.length_take_le ..)) (ih ?_ _)
      rw [Bits.length_ofBytes]
      omega

theorem isStream_storedBlocks (data : Bytes) : IsStream (storedBlocks data) data := by
  refine ⟨_, [], ?_, by decide, (List.append_nil _).symm⟩
  have hblocks := blocks_storedBlocks data (Nat.dvd_zero 8) #[]
  simpa using hblocks

/-! ## The compressor -/

/-- **The compressor writes a stream that stands for the data**: an `IsStream`. -/
theorem isStream_compress (data : Bytes) : IsStream (compress data) data := by
  rw [compress]
  split
  · exact isStream_storedBlocks data
  · obtain ⟨hcontent, ht⟩ := expands_tokens data
    exact isStream_fixedBlock ht hcontent

/-- **What `compress` has compressed, `inflate` gives back.** -/
theorem inflate_compress (data : Bytes) : inflate (compress data) = .ok (data, []) := by
  have hread := inflate_of_isStream (isStream_compress data) []
  rwa [List.append_nil] at hread

/-- A stream stands for one content only. -/
theorem IsStream.content_unique {stream content content' : Bytes} (h : IsStream stream content)
    (h' : IsStream stream content') : content = content' := by
  have hread := (inflate_of_isStream h []).symm.trans (inflate_of_isStream h' [])
  rw [Except.ok.injEq, Prod.mk.injEq] at hread
  exact hread.1

/-- **Compression loses nothing.**  For every byte string the compressor answers one complete
stream, which stands for the byte string and for nothing else and is read to its end, whatever is
behind it.  Any other choice of blocks, codes and copies would do as well: every stream that stands
for the byte string is read in the same way. -/
theorem compress_lossless (data : Bytes) :
    (∀ content, IsStream (compress data) content ↔ content = data)
      ∧ (∀ rest, inflate (compress data ++ rest) = .ok (data, rest))
      ∧ ∀ stream, IsStream stream data → ∀ rest, inflate (stream ++ rest) = .ok (data, rest) := by
  refine ⟨fun content => ⟨fun h => h.content_unique (isStream_compress data), ?_⟩,
    inflate_of_isStream (isStream_compress data), fun stream h => inflate_of_isStream h⟩
  rintro rfl
  exact isStream_compress content

/-! ## Sizes -/

theorem length_storedBlocks_le (data : Bytes) :
    (storedBlocks data).length ≤ data.length + 5 * (data.length / maxStored + 1) := by
  induction data using storedBlocks.induct with
  | case1 data h =>
      rw [storedBlocks, if_pos h, length_storedBlock]
      simp only [maxStored]
      omega
  | case2 data h ih =>
      rw [storedBlocks, if_neg h, List.length_append, length_storedBlock]
      rw [List.length_drop] at ih
      rw [List.length_take]
      simp only [maxStored] at h ih ⊢
      omega

/-- A compressed text is never much longer than the text. -/
theorem length_compress_le (data : Bytes) :
    (compress data).length ≤ data.length + 5 * (data.length / maxStored + 1) := by
  have hle := length_storedBlocks_le data
  rw [compress]
  split
  · exact hle
  · omega

end OpenDocument.Deflate
