import OpenDocument.Bytes

/-!
# OpenDocument.Deflate.Bits

Bit strings in the order in which DEFLATE packs them: the lowest bit of each byte first, and the
lowest bit of a number first. A byte string is a bit string whose length is a multiple of eight;
the other way round, the last byte is filled up with zeros.
-/

namespace OpenDocument.Deflate

/-- A bit string. -/
abbrev Bits := List Bool

namespace Bits

/-- The `width` low bits of a number, lowest first. -/
def field : Nat → Nat → Bits
  | 0, _ => []
  | width + 1, n => (n % 2 == 1) :: field width (n / 2)

/-- The number whose bits, lowest first, are given. -/
def value (bits : Bits) : Nat :=
  bits.foldr (fun b n => b.toNat + 2 * n) 0

@[simp] theorem length_field (width n : Nat) : (field width n).length = width := by
  induction width generalizing n with
  | zero => rfl
  | succ w ih => simp [field, ih]

/-- A field reads back as the number it was made from, if that fits. -/
theorem value_field (width n : Nat) (h : n < Nat.pow 2 width) : value (field width n) = n := by
  induction width generalizing n with
  | zero => simp [Nat.pow] at h; simp [field, value, h]
  | succ w ih =>
    have hq : n / 2 < Nat.pow 2 w := Nat.div_lt_of_lt_mul (Nat.mul_comm _ 2 ▸ h)
    have := ih (n / 2) hq
    simp only [value, field, List.foldr_cons] at this ⊢
    rw [this]
    rcases Nat.mod_two_eq_zero_or_one n with hm | hm <;> simp [hm] <;> omega

/-- The bits of a byte string. -/
def ofBytes (bs : Bytes) : Bits :=
  bs.flatMap fun b => field 8 b.toNat

/-- The bytes of a bit string, behind the bytes `done` in reverse. -/
def packOnto (done : Bytes) : Bits → Bytes
  | a :: b :: c :: d :: e :: f :: g :: h :: rest =>
    packOnto (UInt8.ofNat (value [a, b, c, d, e, f, g, h]) :: done) rest
  | [] => done.reverse
  | rest => (UInt8.ofNat (value rest) :: done).reverse

/-- The bytes of a bit string by `packOnto`, the last one filled up with zeros. -/
def toBytes (bits : Bits) : Bytes :=
  packOnto [] bits

/-! ## Bytes as bits -/

@[simp] theorem length_ofBytes (bs : Bytes) : (ofBytes bs).length = 8 * bs.length := by
  induction bs with
  | nil => rfl
  | cons b bs ih =>
    simp only [ofBytes, List.flatMap_cons, List.length_append, length_field, List.length_cons]
      at ih ⊢
    omega

/-- Different byte strings have different bits. -/
theorem ofBytes_inj {bs cs : Bytes} (h : ofBytes bs = ofBytes cs) : bs = cs := by
  induction bs generalizing cs with
  | nil => cases cs with
    | nil => rfl
    | cons c cs => simp [ofBytes, field] at h
  | cons b bs ih => cases cs with
    | nil => simp [ofBytes, field] at h
    | cons c cs =>
      simp only [ofBytes, List.flatMap_cons] at h
      obtain ⟨hb, hbs⟩ := List.append_inj h (by simp)
      have hv := congrArg value hb
      rw [value_field 8 _ b.toNat_lt, value_field 8 _ c.toNat_lt] at hv
      rw [UInt8.toNat_inj.mp hv, ih hbs]

end Bits

end OpenDocument.Deflate
