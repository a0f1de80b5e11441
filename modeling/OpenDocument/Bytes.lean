/-!
# OpenDocument.Bytes

Byte strings as lists, the fixed-width integer fields of archives and digests, and the
bytewise exclusive or that cipher chaining and key derivation share.
-/

namespace OpenDocument

/-- A byte string. -/
abbrev Bytes := List UInt8

/-- A byte string of exactly `n` bytes. -/
abbrev SizedBytes (n : Nat) := { bs : Bytes // bs.length = n }

namespace Bytes

/-! ## Integer fields -/

/-- The `width` low bytes of `n`, least significant first. -/
def littleEndian : Nat → Nat → Bytes
  | 0, _ => []
  | width + 1, n => UInt8.ofNat n :: littleEndian width (n / 256)

/-- The `width` low bytes of `n`, most significant first. -/
def bigEndian (width n : Nat) : Bytes :=
  (littleEndian width n).reverse

/-- The number whose bytes, least significant first, are given. -/
def ofLittleEndian (bs : Bytes) : Nat :=
  bs.foldr (fun b n => b.toNat + 256 * n) 0

@[simp] theorem length_littleEndian (width n : Nat) : (littleEndian width n).length = width := by
  induction width generalizing n with
  | zero => rfl
  | succ w ih => simp [littleEndian, ih]

@[simp] theorem length_bigEndian (width n : Nat) : (bigEndian width n).length = width := by
  simp [bigEndian]

/-- A field of `width` bytes reads back as the number it was made from, if that fits. -/
theorem ofLittleEndian_littleEndian (width n : Nat) (h : n < Nat.pow 256 width) :
    ofLittleEndian (littleEndian width n) = n := by
  induction width generalizing n with
  | zero => simp [Nat.pow] at h; simp [littleEndian, ofLittleEndian, h]
  | succ w ih =>
    have hq : n / 256 < Nat.pow 256 w := Nat.div_lt_of_lt_mul (Nat.mul_comm _ 256 ▸ h)
    have := ih (n / 256) hq
    simp only [littleEndian, ofLittleEndian, List.foldr_cons] at this ⊢
    rw [this, UInt8.toNat_ofNat']
    omega

/-! ## Exclusive or -/

/-- Bytewise exclusive or, as long as the shorter of the two. -/
def xor (a b : Bytes) : Bytes :=
  List.zipWith (· ^^^ ·) a b

@[simp] theorem length_xor (a b : Bytes) : (xor a b).length = min a.length b.length := by
  simp [xor]

end Bytes

end OpenDocument
