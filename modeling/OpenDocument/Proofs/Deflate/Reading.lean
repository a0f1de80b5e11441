import OpenDocument.Proofs.Deflate.Codes

/-!
# OpenDocument.Proofs.Deflate.Reading

The reader answers what a stream stands for, whoever wrote it: `inflate_of_isStream`.  There is a
lemma for every construct of the format.  It says that the bits of the construct are taken from the
front of an input, whatever follows them.
-/

namespace OpenDocument.Deflate

variable {i j : Input}

/-! ## Tokens -/

theorem readField_field {width n : Nat} (hn : n < 2 ^ width)
    (hi : i.toBits = Bits.field width n ++ j.toBits) : readField width i = .ok (n, j) := by
  rw [readField, Input.takeField_field hn hi]

/-- A value that is `InRange` of a symbol is read from its extra bits by `readRange`. -/
theorem InRange.readRange {ranges : List (Nat × Nat)} {value symbol : Nat} {bits : Bits}
    (h : InRange ranges value symbol bits) (hi : i.toBits = bits ++ j.toBits) :
    readRange ranges symbol i = .ok (value, j) := by
  obtain ⟨least, extra, hrange, hle, hlt, rfl⟩ := h
  have hfit : value - least < 2 ^ extra := by omega
  simp only [Deflate.readRange, hrange, Input.takeField_field hfit hi, Nat.add_sub_cancel' hle]

section Tokens

variable {c : Codes} {literals distances : Tree} (hliterals : literals.Reads c.literals)
  (hdistances : distances.Reads c.distances)

include hliterals

theorem readToken_end {bits : Bits} (h : Spells c.literals endSymbol bits)
    (hi : i.toBits = bits ++ j.toBits) : readToken literals distances i = .ok (none, j) := by
  have hword := Tree.decode_word (hliterals _ _ h) hi
  simp only [readToken, hword, bind, Except.bind, Nat.lt_irrefl, if_false, if_true, pure,
    Except.pure]

include hdistances

/-- `readToken` reads a token from its bits. -/
theorem Codes.Writes.readToken {t : Token} {bits : Bits} (h : c.Writes t bits)
    (hi : i.toBits = bits ++ j.toBits) : readToken literals distances i = .ok (some t, j) := by
  cases h with
  | @literal b _ h =>
      have hb : b.toNat < endSymbol := b.toNat_lt
      have hword := Tree.decode_word (hliterals _ _ h) hi
      simp only [Deflate.readToken, hword, bind, Except.bind, if_pos hb, pure, Except.pure,
        UInt8.ofNat_toNat]
  | @copy length distance k _ _ _ _ _ hlengthWord hlength hdistanceWord hdistance =>
      simp only [List.append_assoc] at hi
      obtain ⟨i1, h1, hi⟩ := Input.exists_behind hi
      obtain ⟨i2, h2, hi⟩ := Input.exists_behind hi
      obtain ⟨i3, h3, h4⟩ := Input.exists_behind hi
      have hge : ¬ firstCopySymbol + k < endSymbol := by
        simp only [firstCopySymbol, endSymbol]
        omega
      have hne : ¬ firstCopySymbol + k = endSymbol := by
        simp only [firstCopySymbol, endSymbol]
        omega
      simp only [Deflate.readToken, Tree.decode_word (hliterals _ _ hlengthWord) h1, bind,
        Except.bind, if_neg hge, if_neg hne, Nat.add_sub_cancel_left, hlength.readRange h2,
        Tree.decode_word (hdistances _ _ hdistanceWord) h3, hdistance.readRange h4, pure,
        Except.pure]

/-- `readTokens` reads tokens up to the end behind them, and answers what they make of the
output. -/
theorem Codes.WritesAll.readTokens {ts : List Token} {bits : Bits} (h : c.WritesAll ts bits)
    {out content : Array UInt8} (hcontent : Expands ts out content) {fuel : Nat}
    (hfuel : ts.length < fuel) (hi : i.toBits = bits ++ j.toBits) :
    readTokens literals distances fuel out i = .ok (content, j) := by
  induction h generalizing out fuel i with
  | stop h =>
      obtain ⟨fuel, rfl⟩ := Nat.exists_eq_succ_of_ne_zero (Nat.ne_zero_of_lt hfuel)
      cases hcontent
      rw [Deflate.readTokens, readToken_end hliterals h hi]
  | cons h _ ih =>
      obtain ⟨fuel, rfl⟩ := Nat.exists_eq_succ_of_ne_zero (Nat.ne_zero_of_lt hfuel)
      rw [List.append_assoc] at hi
      obtain ⟨r, hr, hi⟩ := Input.exists_behind hi
      rw [Deflate.readTokens, h.readToken hliterals hdistances hr]
      have hrest := Nat.lt_of_succ_lt_succ hfuel
      cases hcontent with
      | literal hcontent => exact ih hcontent hrest hi
      | copy hlength hpos hinside hpiece hcontent =>
          simp only [Token.apply_copy hlength hpos hinside hpiece]
          exact ih hcontent hrest hi

end Tokens

/-! ## Described codes -/

theorem readFields_flatMap {width : Nat} {ns : List Nat} (hns : ∀ n ∈ ns, n < 2 ^ width)
    (hi : i.toBits = ns.flatMap (Bits.field width) ++ j.toBits) :
    readFields width ns.length i = .ok (ns, j) := by
  induction ns generalizing i with
  | nil =>
      rw [Input.ext_toBits hi]
      rfl
  | cons n ns ih =>
      obtain ⟨hn, hns⟩ := List.forall_mem_cons.mp hns
      rw [List.flatMap_cons, List.append_assoc] at hi
      obtain ⟨r, hr, hi⟩ := Input.exists_behind hi
      simp only [List.length_cons, readFields, readField_field hn hr, ih hns hi, bind, Except.bind,
        pure, Except.pure]

theorem Adds.length_pos {words : List Bits} {done more : List Nat} {bits : Bits}
    (h : Adds words done more bits) : 0 < more.length := by
  cases h <;> simp only [List.length_singleton, List.length_replicate] <;> omega

theorem Lists.length_le {words : List Bits} {all done : List Nat} {bits : Bits}
    (h : Lists words all done bits) : done.length ≤ all.length := by
  induction h with
  | stop => exact Nat.le_refl _
  | cons _ _ ih => exact Nat.le_trans (by simp) ih

/-- `readLengths` puts the next lengths in front of those read so far, last one first. -/
theorem Adds.readLengths {code : Tree} {words : List Bits} (hcode : code.Reads words)
    {done more : List Nat} {bits : Bits} (h : Adds words done more bits) {total fuel : Nat}
    (hmissing : done.length < total) (hi : i.toBits = bits ++ j.toBits) :
    readLengths code total (fuel + 1) done.reverse i
      = readLengths code total fuel (done ++ more).reverse j := by
  have hne : ¬ done.reverse.length = total := by
    rw [List.length_reverse]
    exact Nat.ne_of_lt hmissing
  have hlt : ¬ total < done.reverse.length := by
    rw [List.length_reverse]
    exact Nat.lt_asymm hmissing
  rw [Deflate.readLengths, if_neg hne, if_neg hlt]
  cases h with
  | length hl h =>
      simp only [Tree.decode_word (hcode _ _ h) hi, bind, Except.bind, if_pos hl,
        List.reverse_append, List.reverse_singleton, List.singleton_append]
  | again hn h | zeros hn h | manyZeros hn h =>
      rw [List.append_assoc] at hi
      obtain ⟨r, hr, hi⟩ := Input.exists_behind hi
      simp [Tree.decode_word (hcode _ _ h) hr, readField_field hn hi, bind, Except.bind]

/-- `readLengths` reads lengths up to the last one, and has them in order. -/
theorem Lists.readLengths {code : Tree} {words : List Bits} (hcode : code.Reads words)
    {all done : List Nat} {bits : Bits} (h : Lists words all done bits) {fuel : Nat}
    (hfuel : all.length < fuel + done.length) (hi : i.toBits = bits ++ j.toBits) :
    readLengths code all.length fuel done.reverse i = .ok (all, j) := by
  induction h generalizing fuel i with
  | stop =>
      obtain ⟨fuel, rfl⟩ := Nat.exists_eq_succ_of_ne_zero (show fuel ≠ 0 by omega)
      rw [Input.ext_toBits hi]
      simp only [Deflate.readLengths, List.length_reverse, if_true, List.reverse_reverse, pure,
        Except.pure]
  | cons h hrest ih =>
      have hpos := h.length_pos
      have hle := hrest.length_le
      rw [List.length_append] at hle
      obtain ⟨fuel, rfl⟩ := Nat.exists_eq_succ_of_ne_zero (show fuel ≠ 0 by omega)
      rw [List.append_assoc] at hi
      obtain ⟨r, hr, hi⟩ := Input.exists_behind hi
      rw [h.readLengths hcode (by omega) hr]
      exact ih (by rw [List.length_append]; omega) hi

/-- The end, `endSymbol`, has a word in the code of every block. -/
theorem Codes.WritesAll.getD_endSymbol_ne_zero {literals : List Nat} {distances : List Bits}
    {ts : List Token} {bits : Bits} (h : Codes.WritesAll ⟨codeWords literals, distances⟩ ts bits)
    (hmax : ∀ l ∈ literals, l ≤ maxLength) : literals.getD endSymbol 0 ≠ 0 := by
  induction h with
  | stop h =>
      obtain ⟨l, hget, hl, -⟩ := (spells_codeWords_iff hmax).mp h
      rwa [List.getD_eq_getElem?_getD, hget]
  | cons _ _ ih => exact ih

/-- The lengths of the words for lengths are read in their own order, `lengthOrder`. -/
theorem readFields_lengthOrder {own : List Nat} {count : Nat} (hshort : ∀ l ∈ own, l < 8)
    (hcount : count ≤ lengthOrder.length)
    (hi : i.toBits = (lengthOrder.take count).flatMap (fun s => Bits.field 3 (own.getD s 0))
      ++ j.toBits) :
    readFields 3 count i = .ok ((lengthOrder.take count).map (fun s => own.getD s 0), j) := by
  have hlength : ((lengthOrder.take count).map (fun s => own.getD s 0)).length = count := by
    rw [List.length_map, List.length_take, Nat.min_eq_left hcount]
  have hfit : ∀ n ∈ (lengthOrder.take count).map (fun s => own.getD s 0), n < 2 ^ 3 := by
    intro n hn
    obtain ⟨s, -, rfl⟩ := List.mem_map.mp hn
    rw [List.getD_eq_getElem?_getD]
    cases hs : own[s]? with
    | none => decide
    | some l => exact hshort l (List.mem_of_getElem? hs)
  have hread := readFields_flatMap hfit (by rwa [List.flatMap_map])
  rwa [hlength] at hread

/-- A value that is listed for the first keys is looked up under these. -/
theorem lookup_zip_map (keys : List Nat) (f : Nat → Nat) (count s : Nat) :
    (keys.zip ((keys.take count).map f)).lookup s
      = if s ∈ keys.take count then some (f s) else none := by
  induction keys generalizing count with
  | nil => simp
  | cons k keys ih =>
      cases count with
      | zero => simp
      | succ count =>
          rw [List.take_succ_cons, List.map_cons, List.zip_cons_cons, List.lookup_cons, ih]
          by_cases hs : s = k
          · simp [hs]
          · simp [hs, beq_false_of_ne hs]

/-- The lengths of the words for lengths, out of the order in which they are given. -/
theorem map_lookup_eq {own : List Nat} {count : Nat} (hown : own.length = lengthOrder.length)
    (hrest : ∀ s ∈ lengthOrder.drop count, own.getD s 0 = 0) :
    ((List.range 19).map fun s => ((lengthOrder.zip
      ((lengthOrder.take count).map fun s => own.getD s 0)).lookup s).getD 0) = own := by
  have hall : ∀ s < 19, s ∈ lengthOrder := by decide
  refine List.ext_getElem (by rw [List.length_map, List.length_range, hown]; rfl) fun s hs hs' => ?_
  rw [List.getElem_map, List.getElem_range, lookup_zip_map]
  have hvalue : own.getD s 0 = own[s] := by
    rw [List.getD_eq_getElem?_getD, List.getElem?_eq_getElem hs', Option.getD_some]
  by_cases hmem : s ∈ lengthOrder.take count
  · rw [if_pos hmem, Option.getD_some, hvalue]
  · have hs19 : s < 19 := by simpa using hs
    have happend := hall s hs19
    rw [← List.take_append_drop count lengthOrder, List.mem_append] at happend
    rw [if_neg hmem, Option.getD_none, ← hvalue, hrest s (happend.resolve_left hmem)]

/-- `readCodes` makes of the description of two codes the trees that read their words. -/
theorem Describes.readCodes {literals distances : List Nat} {bits : Bits}
    (h : Describes literals distances bits) (hliterals : Usable literals)
    (hdistances : Usable distances) (hend : literals.getD endSymbol 0 ≠ 0)
    (hi : i.toBits = bits ++ j.toBits) :
    ∃ t u, readCodes i = .ok ((t, u), j) ∧ t.Reads (codeWords literals)
      ∧ u.Reads (codeWords distances) := by
  obtain ⟨t, ht, hreads⟩ := hliterals.exists_treeOf
  obtain ⟨u, hu, hreads'⟩ := hdistances.exists_treeOf
  refine ⟨t, u, ?_, hreads, hreads'⟩
  obtain @⟨own, count, bits, hl, hd, hown, hcount, hshort, hrest, hcomplete, hlists⟩ := h
  obtain ⟨code, hcode, hreadsCode⟩ := hcomplete.exists_lengthTree
  simp only [List.append_assoc] at hi
  obtain ⟨i1, h1, hi⟩ := Input.exists_behind hi
  obtain ⟨i2, h2, hi⟩ := Input.exists_behind hi
  obtain ⟨i3, h3, hi⟩ := Input.exists_behind hi
  obtain ⟨i4, h4, h5⟩ := Input.exists_behind hi
  have hfields := readFields_lengthOrder hshort hcount.2 h4
  have htotal : literals.length - 257 + (distances.length - 1) + 258
      = (literals ++ distances).length := by
    rw [List.length_append]
    omega
  have hlengths : readLengths code (literals ++ distances).length
      ((literals ++ distances).length + 1) [] i4 = .ok (literals ++ distances, j) :=
    hlists.readLengths hreadsCode (Nat.lt_succ_self _) h5
  have hsplit : (literals ++ distances).splitAt (literals.length - 257 + 257)
      = (literals, distances) := by
    rw [Nat.sub_add_cancel hl.1, List.splitAt_eq, List.take_left, List.drop_left]
  have hfew : count - 4 < 2 ^ 4 := by
    have hle := hcount.2
    rw [show lengthOrder.length = 19 from rfl] at hle
    omega
  have hbound : ¬ (29 < literals.length - 257 ∨ 29 < distances.length - 1) := by omega
  simp only [Deflate.readCodes, readField_field (show literals.length - 257 < 2 ^ 5 by omega) h1,
    readField_field (show distances.length - 1 < 2 ^ 5 by omega) h2, readField_field hfew h3, bind,
    Except.bind, if_neg hbound, Nat.sub_add_cancel hcount.1, hfields, map_lookup_eq hown hrest,
    hcode, htotal, hlengths, hsplit, if_neg hend, ht, hu, pure, Except.pure]

/-! ## Blocks -/

/-- `takeBytes` takes bytes from an input of whole bytes. -/
theorem takeBytes_ofBytes {content : Bytes} (hwhole : 8 ∣ i.toBits.length)
    (hi : i.toBits = Bits.ofBytes content ++ j.toBits) :
    i.takeBytes content.length = some (content, j) := by
  have hj : 8 ∣ j.toBits.length := by
    rw [hi, List.length_append, Bits.length_ofBytes] at hwhole
    exact (Nat.dvd_add_right (Nat.dvd_mul_right 8 _)).mp hwhole
  have hbytes : i.bytes = content ++ j.bytes := by
    rw [Input.eq_ofBytes_of_dvd hwhole, Input.eq_ofBytes_of_dvd hj, Input.toBits_ofBytes,
      Input.toBits_ofBytes, ← Bits.ofBytes_append] at hi
    exact Bits.ofBytes_inj hi
  rw [Input.takeBytes, hbytes, List.take_left, List.drop_left, if_pos rfl,
    ← Input.eq_ofBytes_of_dvd hj]

/-- `align` skips the rest of a byte that was begun. -/
theorem toBits_align {fill bits : Bits} (hi : i.toBits = fill ++ bits) (hfill : fill.length < 8)
    (hwhole : 8 ∣ bits.length) : i.align.toBits = bits := by
  have hlength := congrArg List.length hi
  rw [Input.length_toBits, List.length_append] at hlength
  have hlt := i.length_bits_lt
  exact (List.append_inj hi (by omega)).2

/-- `readStored` puts the content of a stored block behind the output. -/
theorem readStored_ofBytes {data : Bytes} {fill : Bits} (hdata : data.length ≤ 65535)
    (hfill : fill.length < 8) (hwhole : 8 ∣ j.toBits.length) (out : Array UInt8)
    (hi : i.toBits = fill ++ (Bits.field 16 data.length ++ (Bits.field 16 (65535 - data.length)
      ++ (Bits.ofBytes data ++ j.toBits)))) :
    readStored out i = .ok (out ++ data, j) := by
  have halign := toBits_align hi hfill (by
    simp only [List.length_append, Bits.length_field, Bits.length_ofBytes]
    omega)
  obtain ⟨i1, h1, hi⟩ := Input.exists_behind halign
  obtain ⟨i2, h2, h3⟩ := Input.exists_behind hi
  have hwhole' : 8 ∣ i2.toBits.length := by
    rw [h3, List.length_append, Bits.length_ofBytes]
    omega
  have hcheck : ¬ data.length + (65535 - data.length) ≠ 65535 := by omega
  simp only [readStored, readField_field (show data.length < 2 ^ 16 by omega) h1,
    readField_field (show 65535 - data.length < 2 ^ 16 by omega) h2, if_neg hcheck,
    takeBytes_ofBytes hwhole' h3, bind, Except.bind, pure, Except.pure]

/-- The head of a block is its mark and its kind. -/
theorem exists_behind_head {final : Bool} {kind : Nat} (hkind : kind < 4) {bits : Bits}
    (hi : i.toBits = final :: (Bits.field 2 kind ++ bits)) :
    ∃ i1 i2, readField 1 i = .ok (final.toNat, i1) ∧ readField 2 i1 = .ok (kind, i2)
      ∧ i2.toBits = bits := by
  have hsplit : i.toBits = Bits.field 1 final.toNat ++ (Bits.field 2 kind ++ bits) := by
    rw [hi]
    cases final <;> rfl
  obtain ⟨i1, h1, hi⟩ := Input.exists_behind hsplit
  obtain ⟨i2, h2, hi⟩ := Input.exists_behind hi
  exact ⟨i1, i2, readField_field (Bool.toNat_lt final) h1, readField_field hkind h2, hi⟩

/-- `readBlock` reads a `Block` from its bits. -/
theorem Block.readBlock {position : Nat} {final : Bool} {out content : Array UInt8} {bits : Bits}
    (h : Block position final out content bits) {fuel : Nat} (hfuel : bits.length ≤ fuel)
    (hwhole : 8 ∣ position + i.toBits.length) (hi : i.toBits = bits ++ j.toBits) :
    readBlock fuel out i = .ok (final, content, j) := by
  have hfinal : (final.toNat == 1) = final := by cases final <;> rfl
  cases h with
  | stored hdata hfill hposition =>
      have hj : 8 ∣ j.toBits.length := by
        rw [hi] at hwhole
        simp only [List.length_append, List.length_cons, List.length_nil, Bits.length_field,
          Bits.length_ofBytes] at hwhole
        omega
      simp only [List.append_assoc] at hi
      obtain ⟨i1, i2, h1, h2, hi⟩ := exists_behind_head (show 0 < 4 by decide) hi
      simp only [Deflate.readBlock, h1, h2, readStored_ofBytes hdata hfill hj out hi, bind,
        Except.bind, pure, Except.pure, hfinal]
  | fixed hbits hcontent =>
      have hlt := hbits.length_lt
      rw [List.length_append] at hfuel
      rw [List.append_assoc] at hi
      obtain ⟨i1, i2, h1, h2, hi⟩ := exists_behind_head (show 1 < 4 by decide) hi
      have htokens := hbits.readTokens reads_fixedTree reads_fixedDistanceTree hcontent
        (Nat.lt_of_lt_of_le hlt (Nat.le_trans (Nat.le_add_left ..) hfuel)) hi
      simp only [Deflate.readBlock, h1, h2, htokens, bind, Except.bind, pure, Except.pure, hfinal]
  | described hdescribes hliterals hdistances hbits hcontent =>
      have hlt := hbits.length_lt
      simp only [List.length_append] at hfuel
      simp only [List.append_assoc] at hi
      obtain ⟨i1, i2, h1, h2, hi⟩ := exists_behind_head (show 2 < 4 by decide) hi
      obtain ⟨i3, h3, hi⟩ := Input.exists_behind hi
      obtain ⟨t, u, hcodes, ht, hu⟩ := hdescribes.readCodes hliterals hdistances
        (hbits.getD_endSymbol_ne_zero hliterals.le_maxLength) h3
      have htokens := hbits.readTokens ht hu hcontent (show _ < fuel by omega) hi
      simp only [Deflate.readBlock, h1, h2, hcodes, htokens, bind, Except.bind, pure, Except.pure,
        hfinal]

/-- `readBlocks` reads `Blocks` up to the last one. -/
theorem Blocks.readBlocks {position : Nat} {out content : Array UInt8} {bits : Bits}
    (h : Blocks position out content bits) {fuel : Nat} (hfuel : bits.length < fuel)
    (hwhole : 8 ∣ position + i.toBits.length) (hi : i.toBits = bits ++ j.toBits) :
    readBlocks fuel out i = .ok (content, j) := by
  induction h generalizing fuel i with
  | last h =>
      obtain ⟨fuel, rfl⟩ := Nat.exists_eq_succ_of_ne_zero (Nat.ne_zero_of_lt hfuel)
      rw [Deflate.readBlocks, h.readBlock (Nat.le_of_lt_succ hfuel) hwhole hi]
  | cons h _ ih =>
      obtain ⟨fuel, rfl⟩ := Nat.exists_eq_succ_of_ne_zero (Nat.ne_zero_of_lt hfuel)
      rw [List.append_assoc] at hi
      obtain ⟨r, hr, hrest⟩ := Input.exists_behind hi
      have hpos := h.length_pos
      rw [List.length_append] at hfuel
      rw [Deflate.readBlocks, h.readBlock (by omega) hwhole hr]
      refine ih (by omega) ?_ hrest
      rwa [hr, List.length_append, ← Nat.add_assoc] at hwhole

/-- **The reader answers what a stream stands for**: `inflate` gives its content and the bytes
behind it. -/
theorem inflate_of_isStream {stream content : Bytes} (h : IsStream stream content) (rest : Bytes) :
    inflate (stream ++ rest) = .ok (content, rest) := by
  obtain ⟨bits, fill, hblocks, hfill, hstream⟩ := h
  have hi : (Input.ofBytes (stream ++ rest)).toBits = bits ++ (fill ++ Bits.ofBytes rest) := by
    rw [Input.toBits_ofBytes, Bits.ofBytes_append, hstream, List.append_assoc]
  have hlength : 8 * stream.length = bits.length + fill.length := by
    rw [← Bits.length_ofBytes, hstream, List.length_append]
  obtain ⟨j, hj, hbehind⟩ := Input.exists_behind hi
  have hread : readBlocks (8 * (stream ++ rest).length + 1) #[] (.ofBytes (stream ++ rest))
      = .ok (content.toArray, j) := by
    refine hblocks.readBlocks ?_ ?_ hj
    · rw [List.length_append]
      omega
    · rw [Input.toBits_ofBytes, Bits.length_ofBytes, Nat.zero_add]
      exact Nat.dvd_mul_right 8 _
  have hrest : j.bytes = rest := by
    have hwhole : 8 ∣ (Bits.ofBytes rest).length := by
      rw [Bits.length_ofBytes]
      exact Nat.dvd_mul_right 8 _
    exact Bits.ofBytes_inj (toBits_align hbehind hfill hwhole)
  rw [inflate, hread]
  simp only [hrest]

end OpenDocument.Deflate
