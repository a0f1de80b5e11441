import OpenDocument.Cipher.Chaining

/-!
# OpenDocument.Proofs.Cipher

Decryption undoes encryption: each step of a round has its inverse, so have the rounds in reverse
order, the chain of blocks, and the bytes of a text that fills whole blocks.  Nothing here looks at
the key schedule; the round keys may be any.
-/

namespace OpenDocument.Cipher

/-! ## Substitution -/

/-- The table of `unsubstitute` inverts that of `substitute`. -/
theorem unsubstitute_substitute (b : UInt8) : unsubstitute (substitute b) = b := by
  have table : ∀ n < 256,
      preimages.toList.getD (substitutes.toList.getD n 0).toNat 0 = UInt8.ofNat n := by
    decide +kernel
  have h := table b.toNat b.toNat_lt
  rw [UInt8.ofNat_toNat] at h
  simpa only [unsubstitute, substitute, Array.getD_eq_getD_getElem?, List.getD_eq_getElem?_getD,
    Array.getElem?_toList] using h

/-! ## The field -/

/-- The top bit of a byte, moved down. -/
theorem shiftRight_seven (b : UInt8) : b >>> 7 = 0 ∨ b >>> 7 = 1 := by
  have table : ∀ n : Fin 256, UInt8.ofFin n >>> 7 = 0 ∨ UInt8.ofFin n >>> 7 = 1 := by
    decide +kernel
  exact table b.toFin

theorem xor_left_comm (a b c : UInt8) : a ^^^ (b ^^^ c) = b ^^^ (a ^^^ c) := by
  rw [← UInt8.xor_assoc, UInt8.xor_comm a b, UInt8.xor_assoc]

theorem xor_xor_cancel (a b : UInt8) : a ^^^ (a ^^^ b) = b := by
  rw [← UInt8.xor_assoc, UInt8.xor_self, UInt8.zero_xor]

/-- Doubling by `double` is linear. -/
theorem double_xor (a b : UInt8) : double (a ^^^ b) = double a ^^^ double b := by
  -- whether the constant is added depends on the two top bits alone
  have carry : ((a ^^^ b) >>> 7 : UInt8) * (0x1B : UInt8)
      = (a >>> 7) * (0x1B : UInt8) ^^^ (b >>> 7) * (0x1B : UInt8) := by
    rw [UInt8.shiftRight_xor]
    rcases shiftRight_seven a with ha | ha <;> rcases shiftRight_seven b with hb | hb <;>
      rw [ha, hb] <;> rfl
  simp only [double, UInt8.shiftLeft_xor, carry]
  simp only [UInt8.xor_assoc, xor_left_comm]

/-! ## The steps of a round -/

theorem Column.add_add (x y : Column) : (x.add y).add y = x := by
  simp only [Column.add, UInt8.xor_assoc, UInt8.xor_self, UInt8.xor_zero]

/-- One row of `Column.unmix_mix`. -/
theorem Column.unmixRow_mix (a b c d : UInt8) :
    unmixRow (double a ^^^ (double b ^^^ b) ^^^ c ^^^ d) (a ^^^ double b ^^^ (double c ^^^ c) ^^^ d)
      (a ^^^ b ^^^ double c ^^^ (double d ^^^ d)) ((double a ^^^ a) ^^^ b ^^^ c ^^^ double d) = a := by
  simp only [unmixRow, double_xor]
  simp only [UInt8.xor_assoc, xor_left_comm, UInt8.xor_comm, xor_xor_cancel, UInt8.xor_self,
    UInt8.xor_zero, UInt8.zero_xor]

/-- The two circulant matrices are inverse to each other.  This holds already for polynomials, so
linearity of doubling is all that is needed of the field. -/
theorem Column.unmix_mix (x : Column) : x.mix.unmix = x := by
  obtain ⟨a, b, c, d⟩ := x
  -- the rows of the matrices are the first ones turned
  have h1 := unmixRow_mix b c d a
  have h2 := unmixRow_mix c d a b
  have h3 := unmixRow_mix d a b c
  simp only [UInt8.xor_assoc, xor_left_comm, UInt8.xor_comm] at h1 h2 h3
  simp only [mix, unmix, unmixRow_mix, Column.mk.injEq, true_and]
  simp only [UInt8.xor_assoc, xor_left_comm, UInt8.xor_comm]
  exact ⟨h1, h2, h3⟩

/-- Four bytes are a column. -/
theorem Column.exists_append {n : Nat} {bs : Bytes} (h : n + 4 ≤ bs.length) :
    ∃ (x : Column) (rest : Bytes), bs = x.toBytes ++ rest ∧ n ≤ rest.length := by
  match bs, h with
  | a :: b :: c :: d :: rest, h =>
      simp only [List.length_cons] at h
      exact ⟨⟨a, b, c, d⟩, rest, rfl, by omega⟩
  | [], h | [_], h | [_, _], h | [_, _, _], h =>
      simp only [List.length_cons, List.length_nil] at h
      omega

namespace State

theorem add_add (x y : State) : (x.add y).add y = x := by
  simp only [add, Column.add_add]

theorem unsubstitute_substitute (x : State) : x.substitute.unsubstitute = x := by
  simp only [substitute, unsubstitute, map, Column.map, Cipher.unsubstitute_substitute]

theorem unshiftRows_shiftRows (x : State) : x.shiftRows.unshiftRows = x := rfl

theorem unmix_mix (x : State) : (x.map Column.mix).map Column.unmix = x := by
  simp only [map, Column.unmix_mix]

/-! ## Blocks -/

theorem blocks_toBytes_append (x : State) (bs : Bytes) :
    blocks (x.toBytes ++ bs) = x :: blocks bs := rfl

/-- The bytes of states fill whole `blocks`. -/
theorem blocks_flatMap_toBytes (xs : List State) : blocks (xs.flatMap toBytes) = xs := by
  induction xs with
  | nil => rfl
  | cons x xs ih => rw [List.flatMap_cons, blocks_toBytes_append, ih]

theorem length_flatMap_toBytes (xs : List State) : (xs.flatMap toBytes).length = 16 * xs.length := by
  induction xs with
  | nil => rfl
  | cons x xs ih =>
      rw [List.flatMap_cons, List.length_append, length_toBytes, ih, List.length_cons]
      omega

/-- Sixteen bytes are a state. -/
theorem exists_append {bs : Bytes} (h : 16 ≤ bs.length) :
    ∃ (x : State) (rest : Bytes), bs = x.toBytes ++ rest := by
  obtain ⟨c0, rest, rfl, h0⟩ := Column.exists_append (n := 12) h
  obtain ⟨c1, rest, rfl, h1⟩ := Column.exists_append (n := 8) h0
  obtain ⟨c2, rest, rfl, h2⟩ := Column.exists_append (n := 4) h1
  obtain ⟨c3, rest, rfl, -⟩ := Column.exists_append (n := 0) h2
  exact ⟨⟨c0, c1, c2, c3⟩, rest, by simp only [toBytes, List.append_assoc]⟩

/-- A text that fills whole `blocks` is its blocks. -/
theorem flatMap_blocks (bs : Bytes) (h : bs.length % 16 = 0) :
    (blocks bs).flatMap toBytes = bs := by
  induction hn : bs.length / 16 generalizing bs with
  | zero =>
      have hnil : bs = [] := List.length_eq_zero_iff.mp (by omega)
      rw [hnil]
      rfl
  | succ n ih =>
      obtain ⟨x, rest, rfl⟩ := exists_append (show 16 ≤ bs.length by omega)
      rw [List.length_append, length_toBytes] at h hn
      rw [blocks_toBytes_append, List.flatMap_cons, ih rest (by omega) (by omega)]

end State

/-! ## Rounds -/

namespace RoundKeys

/-- `RoundKeys.decrypt` undoes `encrypt` on a block, round by round. -/
theorem decrypt_encrypt (k : RoundKeys) (x : State) : k.decrypt (k.encrypt x) = x := by
  have rounds : ∀ (keys : List State) (s : State),
      keys.foldr (fun key s => (((s.add key).map Column.unmix).unshiftRows).unsubstitute)
        (keys.foldl (fun s key => ((s.substitute.shiftRows).map Column.mix).add key) s) = s := by
    intro keys
    induction keys with
    | nil => intro s; rfl
    | cons key keys ih =>
        intro s
        rw [List.foldl_cons, List.foldr_cons, ih, State.add_add, State.unmix_mix,
          State.unshiftRows_shiftRows, State.unsubstitute_substitute]
  simp only [decrypt, encrypt, State.add_add, State.unshiftRows_shiftRows,
    State.unsubstitute_substitute, rounds]

theorem decryptChain_encryptChain (k : RoundKeys) (previous : State) (bs : List State) :
    k.decryptChain previous (k.encryptChain previous bs) = bs := by
  induction bs generalizing previous with
  | nil => rfl
  | cons b bs ih => simp only [encryptChain, decryptChain, decrypt_encrypt, State.add_add, ih]

theorem length_encryptChain (k : RoundKeys) (previous : State) (bs : List State) :
    (k.encryptChain previous bs).length = bs.length := by
  induction bs generalizing previous with
  | nil => rfl
  | cons b bs ih => simp only [encryptChain, List.length_cons, ih]

end RoundKeys

/-- `encryptBytes` keeps the length of a text that fills whole blocks, whatever the key. -/
theorem length_encryptBytes (k : RoundKeys) (iv plain : Bytes) (h : plain.length % 16 = 0) :
    (encryptBytes k iv plain).length = plain.length := by
  rw [encryptBytes, State.length_flatMap_toBytes, RoundKeys.length_encryptChain,
    ← State.length_flatMap_toBytes, State.flatMap_blocks plain h]

/-- `decryptBytes` gives back a text that fills whole blocks. -/
theorem decryptBytes_encryptBytes (k : RoundKeys) (iv plain : Bytes)
    (h : plain.length % 16 = 0) : decryptBytes k iv (encryptBytes k iv plain) = plain := by
  rw [decryptBytes, encryptBytes, State.blocks_flatMap_toBytes,
    RoundKeys.decryptChain_encryptChain, State.flatMap_blocks plain h]

/-- A text that `pad` has padded is decrypted to the text, by `unpad` of what `decryptBytes`
gives. -/
theorem unpad_decryptBytes (k : RoundKeys) (iv : Bytes) {plain filler : Bytes}
    (h : filler.length = padLength plain.length - 1) :
    unpad (decryptBytes k iv (encryptBytes k iv (pad plain filler))) = plain := by
  have hlen := length_pad h
  have hmax := padLength_le plain.length
  rw [decryptBytes_encryptBytes k iv _ (by omega), unpad_pad (by omega)]

end OpenDocument.Cipher
