import OpenDocument.Text.Base64
import OpenDocument.Text.Decimal

/-!
# OpenDocument.Proofs.Text

Numbers and byte strings read back from their texts: `readDecimal?_decimal`,
`Base64.decode_encode`, and the bytes of a text of ASCII characters.
-/

namespace OpenDocument

namespace Text

/-! ## Decimal numbers -/

theorem isDigit_of_mem_decimal {n : Nat} {c : Char} (h : c ∈ decimal n) : c.isDigit = true :=
  Nat.isDigit_of_mem_toDigits (by decide) (by decide) h

/-- A printable ASCII character is not blank. -/
theorem isBlank_eq_false {c : Char} (hmin : 32 < c.toNat) (hmax : c.toNat < 127) :
    isBlank c = false := by
  rw [isBlank, List.any_eq_false]
  intro r hr hin
  simp only [Bool.and_eq_true, decide_eq_true_eq] at hin
  simp only [blankRanges, List.mem_cons, List.not_mem_nil, or_false] at hr
  rcases hr with rfl | rfl | rfl | rfl | rfl | rfl | rfl | rfl | rfl | rfl <;>
    simp only at hin <;> omega

theorem isBlank_of_isDigit {c : Char} (h : c.isDigit = true) : isBlank c = false := by
  have hrange : 48 ≤ c.toNat ∧ c.toNat ≤ 57 := by
    simp only [Char.isDigit, Bool.and_eq_true, decide_eq_true_eq] at h
    exact h
  exact isBlank_eq_false (by omega) (by omega)

/-- **A number is read back from its digits**: `readDecimal?` is a left inverse of `decimal`. -/
theorem readDecimal?_decimal {bound n : Nat} (h : n < bound) :
    readDecimal? bound (decimal n) = some n := by
  have hblank : ∀ c ∈ decimal n, isBlank c = false := fun c hc =>
    isBlank_of_isDigit (isDigit_of_mem_decimal hc)
  have htrim : trim (decimal n) = decimal n :=
    trim_eq_self (fun c hc => hblank c (List.mem_of_head? hc))
      (fun c hc => hblank c (List.mem_of_getLast? hc))
  have hplus : dropPlus (decimal n) = decimal n := by
    unfold dropPlus
    split
    · next r hr =>
        have hdigit := isDigit_of_mem_decimal (hr ▸ List.mem_cons_self .. : '+' ∈ decimal n)
        cases hdigit
    · rfl
  have hdigits : ofDigits? (decimal n) = some n := by
    have hempty : (decimal n).isEmpty = false := by
      rw [List.isEmpty_eq_false_iff]
      exact Nat.toDigits_ne_nil
    have hall : (decimal n).all Char.isDigit = true :=
      List.all_eq_true.mpr fun c hc => isDigit_of_mem_decimal hc
    have hvalue := @Nat.ofDigitChars_ten_toDigits n
    rw [Nat.ofDigitChars_eq_foldl] at hvalue
    rw [ofDigits?, hempty, hall, if_neg (by decide)]
    exact congrArg some hvalue
  rw [readDecimal?_eq, htrim, hplus, hdigits]
  simp [Option.filter, h]

end Text

/-! ## Bytes of ASCII texts -/

theorem byteArray_toList_loop (bs : ByteArray) (i : Nat) (done : Bytes) :
    ByteArray.toList.loop bs i done = done.reverse ++ bs.data.toList.drop i := by
  fun_induction ByteArray.toList.loop bs i done with
  | case1 i done h ih =>
      have hlt : i < bs.data.toList.length := h
      have hget : bs.get! i = bs.data.toList[i] := by
        rw [Array.getElem_toList]
        exact getElem!_pos bs.data i h
      rw [ih, List.reverse_cons, List.append_assoc, List.drop_eq_getElem_cons hlt, hget]
      rfl
  | case2 i done h =>
      have hge : bs.data.toList.length ≤ i := Nat.le_of_not_lt h
      rw [List.drop_eq_nil_of_le hge, List.append_nil]

theorem byteArray_toList (bs : ByteArray) : bs.toList = bs.data.toList := by
  rw [ByteArray.toList, byteArray_toList_loop]
  rfl

theorem toByteArray_toList (bs : ByteArray) : bs.toList.toByteArray = bs := by
  refine ByteArray.ext (Array.toList_inj.mp ?_)
  rw [List.toList_data_toByteArray, byteArray_toList]

/-- `String.fromUTF8?` reads a text back from its bytes. -/
theorem fromUTF8?_toUTF8 (text : String) :
    String.fromUTF8? text.toUTF8.toList.toByteArray = some text := by
  rw [toByteArray_toList]
  exact dif_pos text.isValidUTF8

theorem toNat_ofNat {n : Nat} (h : n < 128) : (Char.ofNat n).toNat = n := by
  have hvalid : n.isValidChar := .inl (by omega)
  rw [Char.ofNat, dif_pos hvalid]
  rfl

/-- The bytes of a text of ASCII characters are their codes. -/
theorem toList_toUTF8_ofList {bs : Bytes} (h : ∀ b ∈ bs, b.toNat < 128) :
    (String.ofList (bs.map fun b => Char.ofNat b.toNat)).toUTF8.toList = bs := by
  rw [byteArray_toList, String.toUTF8, String.toByteArray_ofList, List.utf8Encode,
    List.toList_data_toByteArray, List.flatMap_map]
  induction bs with
  | nil => rfl
  | cons b bs ih =>
      obtain ⟨hb, hbs⟩ := List.forall_mem_cons.mp h
      have hval : (Char.ofNat b.toNat).val.toNat = b.toNat := toNat_ofNat hb
      have hchar : String.utf8EncodeChar (Char.ofNat b.toNat) = [b] := by
        simp only [String.utf8EncodeChar, hval]
        rw [if_pos (by omega), UInt8.ofNat_toNat]
      rw [List.flatMap_cons, hchar, ih hbs, List.singleton_append]

/-! ## Base64 -/

namespace Base64

/-- The symbols that `encode` gives are those of six-bit values, and padding. -/
theorem mem_encode {bs : Bytes} {b : UInt8} (h : b ∈ encode bs) :
    (∃ v < 64, b = symbol v) ∨ b = padSymbol := by
  fun_induction encode bs with
  | case1 x y z rest ih =>
      have hx := x.toNat_lt
      have hy := y.toNat_lt
      have hz := z.toNat_lt
      simp only [List.mem_cons] at h
      rcases h with rfl | rfl | rfl | rfl | h
      · exact .inl ⟨_, by omega, rfl⟩
      · exact .inl ⟨_, by omega, rfl⟩
      · exact .inl ⟨_, by omega, rfl⟩
      · exact .inl ⟨_, by omega, rfl⟩
      · exact ih h
  | case2 x y =>
      have hx := x.toNat_lt
      have hy := y.toNat_lt
      simp only [List.mem_cons, List.not_mem_nil, or_false] at h
      rcases h with rfl | rfl | rfl | rfl
      · exact .inl ⟨_, by omega, rfl⟩
      · exact .inl ⟨_, by omega, rfl⟩
      · exact .inl ⟨_, by omega, rfl⟩
      · exact .inr rfl
  | case3 x =>
      have hx := x.toNat_lt
      simp only [List.mem_cons, List.not_mem_nil, or_false] at h
      rcases h with rfl | rfl | rfl | rfl
      · exact .inl ⟨_, by omega, rfl⟩
      · exact .inl ⟨_, by omega, rfl⟩
      · exact .inr rfl
      · exact .inr rfl
  | case4 => cases h

/-- The bytes that `encode` gives are printable. -/
theorem mem_encode_printable {bs : Bytes} {b : UInt8} (h : b ∈ encode bs) :
    32 < b.toNat ∧ b.toNat < 127 := by
  have table : ∀ v < 64, 32 < (symbol v).toNat ∧ (symbol v).toNat < 127 := by decide
  rcases mem_encode h with ⟨v, hv, rfl⟩ | rfl
  · exact table v hv
  · decide

theorem length_encode_mod (bs : Bytes) : (encode bs).length % 4 = 0 := by
  fun_induction encode bs with
  | case1 x y z rest ih =>
      simp only [List.length_cons]
      omega
  | case2 x y => exact Nat.mod_self 4
  | case3 x => exact Nat.mod_self 4
  | case4 => rfl

/-- A whole number behind the last byte does not change it. -/
theorem ofNat_eq_of_mod {n : Nat} {b : UInt8} (h : n % 256 = b.toNat) : UInt8.ofNat n = b := by
  rw [← UInt8.toNat_inj, UInt8.toNat_ofNat', h]

theorem valueAt_symbol {v : Nat} (h : v < 64) (offset : Nat) :
    valueAt offset (symbol v) = .ok v := by
  rw [valueAt, value?_symbol v h]

/-- The last group, without padding. -/
theorem decodeLast_four (start : Nat) {v w x y : Nat} (hv : v < 64) (hw : w < 64) (hx : x < 64)
    (hy : y < 64) : decodeLast start [symbol v, symbol w, symbol x, symbol y]
      = .ok [UInt8.ofNat (v * 4 + w / 16), UInt8.ofNat (w * 16 + x / 4),
          UInt8.ofNat (x * 64 + y)] := by
  have hsplit : splitLast start 0 none [symbol v, symbol w, symbol x, symbol y]
      = .ok ([v, w, x, y], 0) := by
    simp [splitLast, symbol_ne_padSymbol, hv, hw, hx, hy, valueAt_symbol, bind, Except.bind, pure,
      Except.pure]
  simp [decodeLast, hsplit, bind, Except.bind, pure, Except.pure]

/-- The last group, with one padding symbol. -/
theorem decodeLast_three (start : Nat) {v w x : Nat} (hv : v < 64) (hw : w < 64) (hx : x < 64)
    (hspare : x % 4 = 0) : decodeLast start [symbol v, symbol w, symbol x, padSymbol]
      = .ok [UInt8.ofNat (v * 4 + w / 16), UInt8.ofNat (w * 16 + x / 4)] := by
  have hsplit : splitLast start 0 none [symbol v, symbol w, symbol x, padSymbol]
      = .ok ([v, w, x], 1) := by
    simp [splitLast, symbol_ne_padSymbol, hv, hw, hx, valueAt_symbol, bind, Except.bind, pure,
      Except.pure]
  simp [decodeLast, hsplit, hspare, bind, Except.bind, pure, Except.pure]

/-- The last group, with two padding symbols. -/
theorem decodeLast_two (start : Nat) {v w : Nat} (hv : v < 64) (hw : w < 64)
    (hspare : w % 16 = 0) : decodeLast start [symbol v, symbol w, padSymbol, padSymbol]
      = .ok [UInt8.ofNat (v * 4 + w / 16)] := by
  have hsplit : splitLast start 0 none [symbol v, symbol w, padSymbol, padSymbol]
      = .ok ([v, w], 2) := by
    simp [splitLast, symbol_ne_padSymbol, hv, hw, valueAt_symbol, bind, Except.bind, pure,
      Except.pure]
  simp [decodeLast, hsplit, hspare, bind, Except.bind, pure, Except.pure]

/-- A group in front of others. -/
theorem decodeFrom_cons (start : Nat) {v w x y : Nat} (hv : v < 64) (hw : w < 64) (hx : x < 64)
    (hy : y < 64) {rest tail : Bytes} (hne : rest ≠ [])
    (hrest : decodeFrom (start + 4) rest = .ok tail) :
    decodeFrom start (symbol v :: symbol w :: symbol x :: symbol y :: rest)
      = .ok (UInt8.ofNat (v * 4 + w / 16) :: UInt8.ofNat (w * 16 + x / 4)
          :: UInt8.ofNat (x * 64 + y) :: tail) := by
  obtain ⟨e, rest, rfl⟩ := List.exists_cons_of_ne_nil hne
  simp only [decodeFrom, valueAt_symbol hv, valueAt_symbol hw, valueAt_symbol hx,
    valueAt_symbol hy, hrest, bind, Except.bind, pure, Except.pure]

theorem decodeFrom_four (start : Nat) (a b c d : UInt8) :
    decodeFrom start [a, b, c, d] = decodeLast start [a, b, c, d] := by
  rw [decodeFrom] <;> simp

theorem decodeFrom_encode (start : Nat) (bs : Bytes) : decodeFrom start (encode bs) = .ok bs := by
  induction bs using encode.induct generalizing start with
  | case1 a b c rest ih =>
      have ha := a.toNat_lt
      have hb := b.toNat_lt
      have hc := c.toNat_lt
      have h1 : UInt8.ofNat (a.toNat / 4 * 4 + (a.toNat % 4 * 16 + b.toNat / 16) / 16) = a :=
        ofNat_eq_of_mod (by omega)
      have h2 : UInt8.ofNat ((a.toNat % 4 * 16 + b.toNat / 16) * 16
          + (b.toNat % 16 * 4 + c.toNat / 64) / 4) = b := ofNat_eq_of_mod (by omega)
      have h3 : UInt8.ofNat ((b.toNat % 16 * 4 + c.toNat / 64) * 64 + c.toNat % 64) = c :=
        ofNat_eq_of_mod (by omega)
      rw [encode]
      by_cases hrest : encode rest = []
      · have hnil : rest = [] := by
          have := ih start
          rw [hrest] at this
          cases this
          rfl
        rw [hrest, hnil, decodeFrom_four, decodeLast_four start (by omega) (by omega) (by omega)
          (by omega), h1, h2, h3]
      · rw [decodeFrom_cons start (by omega) (by omega) (by omega) (by omega) hrest (ih (start + 4)),
          h1, h2, h3]
  | case2 a b =>
      have ha := a.toNat_lt
      have hb := b.toNat_lt
      have h1 : UInt8.ofNat (a.toNat / 4 * 4 + (a.toNat % 4 * 16 + b.toNat / 16) / 16) = a :=
        ofNat_eq_of_mod (by omega)
      have h2 : UInt8.ofNat ((a.toNat % 4 * 16 + b.toNat / 16) * 16 + b.toNat % 16 * 4 / 4) = b :=
        ofNat_eq_of_mod (by omega)
      rw [encode, decodeFrom_four, decodeLast_three start (by omega) (by omega) (by omega) (by omega),
        h1, h2]
  | case3 a =>
      have ha := a.toNat_lt
      have h1 : UInt8.ofNat (a.toNat / 4 * 4 + a.toNat % 4 * 16 / 16) = a :=
        ofNat_eq_of_mod (by omega)
      rw [encode, decodeFrom_four, decodeLast_two start (by omega) (by omega) (by omega), h1]
  | case4 => rfl

/-- **An encoded byte string is decoded again**: `decode` is a left inverse of `encode`. -/
theorem decode_encode (bs : Bytes) : decode (encode bs) = .ok bs := by
  have hmod := length_encode_mod bs
  have hfrom := decodeFrom_encode 0 bs
  rw [decode]
  cases hlast : (encode bs).getLast? with
  | none =>
      rw [List.getLast?_eq_none_iff] at hlast
      rw [hlast] at hfrom
      cases hfrom
      rfl
  | some b =>
      have hne : ¬((encode bs).length % 4 = 1 ∧ b ≠ padSymbol ∧ value? b = none) := by
        rw [hmod]
        simp
      simp only
      rw [if_neg hne, hfrom]

end Base64

end OpenDocument
