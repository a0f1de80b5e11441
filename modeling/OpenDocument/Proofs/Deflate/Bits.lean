import Mathlib.Algebra.Group.Nat.Defs
import OpenDocument.Deflate.Input

/-!
# OpenDocument.Proofs.Deflate.Bits

Bits in bytes: fields one after the other, numbers of several bytes, and what becomes of a bit
string that does not fill its last byte.
-/

namespace OpenDocument.Deflate

/-! ## Bits in bytes -/

namespace Bits

/-- A `field` of the value of bits is the bits, filled up with zeros. -/
theorem field_value {width : Nat} {bits : Bits} (h : bits.length ≤ width) :
    field width (value bits) = bits ++ List.replicate (width - bits.length) false := by
  induction width generalizing bits with
  | zero =>
      rw [List.length_eq_zero_iff.mp (Nat.le_zero.mp h)]
      rfl
  | succ w ih =>
      cases bits with
      | nil =>
          have h0 := @ih [] (Nat.zero_le w)
          simp only [value, List.foldr_nil, List.nil_append, List.length_nil, Nat.sub_zero] at h0
          simp [field, value, h0, List.replicate_succ]
      | cons b bits =>
          have hb : (b.toNat + 2 * value bits) / 2 = value bits := by
            have := Bool.toNat_le b
            omega
          have hm : ((b.toNat + 2 * value bits) % 2 == 1) = b := by
            cases b <;> simp
          rw [show value (b :: bits) = b.toNat + 2 * value bits from rfl, field, hb, hm,
            ih (Nat.le_of_succ_le_succ h), List.cons_append, List.length_cons, Nat.add_sub_add_right]

/-- Only the low bits of a number are in a `field`. -/
theorem field_mod (width n : Nat) : field width (n % 2 ^ width) = field width n := by
  induction width generalizing n with
  | zero => rfl
  | succ w ih =>
      have hm : n % 2 ^ (w + 1) % 2 = n % 2 := by
        rw [Nat.pow_succ, Nat.mul_comm, Nat.mod_mul_right_mod]
      have hd : n % 2 ^ (w + 1) / 2 = n / 2 % 2 ^ w := by
        rw [Nat.pow_succ, Nat.mul_comm, Nat.mod_mul_right_div_self]
      rw [field, field, hm, hd, ih]

/-- A `field` of many bits is one of few bits in front of one of the others. -/
theorem field_add (v w n : Nat) : field (v + w) n = field v n ++ field w (n / 2 ^ v) := by
  induction v generalizing n with
  | zero => simp [field]
  | succ v ih =>
      rw [Nat.add_right_comm, field, ih, field, Nat.div_div_eq_div_mul, ← Nat.pow_succ',
        List.cons_append]

theorem ofBytes_append (bs cs : Bytes) : ofBytes (bs ++ cs) = ofBytes bs ++ ofBytes cs :=
  List.flatMap_append

@[simp] theorem field_toNat_ofNat (n : Nat) : field 8 (UInt8.ofNat n).toNat = field 8 n := by
  rw [UInt8.toNat_ofNat', field_mod]

/-- A number in bytes is the number in bits. -/
theorem ofBytes_littleEndian (width n : Nat) :
    ofBytes (Bytes.littleEndian width n) = field (8 * width) n := by
  induction width generalizing n with
  | zero => rfl
  | succ w ih =>
      rw [show 8 * (w + 1) = 8 + 8 * w by omega, field_add, ← field_toNat_ofNat,
        show 2 ^ 8 = 256 from rfl, ← ih, Bytes.littleEndian]
      rfl

/-- One more byte of bits, behind the bits of the bytes in `done`. -/
theorem ofBytes_reverse_cons (done : Bytes) {bits : Bits} (h : bits.length ≤ 8) :
    ofBytes (UInt8.ofNat (value bits) :: done).reverse
      = ofBytes done.reverse ++ bits ++ List.replicate (8 - bits.length) false := by
  rw [List.reverse_cons, ofBytes_append, List.append_assoc, ← field_value h, ← field_toNat_ofNat]
  simp [ofBytes]

/-- The bits that `packOnto` packs into bytes, filled up with zeros to a whole byte. -/
theorem ofBytes_packOnto (done : Bytes) (bits : Bits) :
    ∃ fill : Bits, fill.length < 8
      ∧ ofBytes (packOnto done bits) = ofBytes done.reverse ++ bits ++ fill := by
  match bits with
  | a :: b :: c :: d :: e :: f :: g :: h :: rest =>
      obtain ⟨fill, hf, hp⟩ := ofBytes_packOnto (UInt8.ofNat (value [a, b, c, d, e, f, g, h]) :: done)
        rest
      refine ⟨fill, hf, ?_⟩
      rw [packOnto, hp, ofBytes_reverse_cons _ (by simp)]
      simp
  | [] => exact ⟨[], by decide, by simp [packOnto]⟩
  | [a] | [a, b] | [a, b, c] | [a, b, c, d] | [a, b, c, d, e] | [a, b, c, d, e, f]
  | [a, b, c, d, e, f, g] =>
      exact ⟨_, by simp, ofBytes_reverse_cons done (by simp)⟩

/-- **The bits of a bit string in bytes** by `toBytes` are the bit string and less than a byte of
filling. -/
theorem ofBytes_toBytes (bits : Bits) :
    ∃ fill : Bits, fill.length < 8 ∧ ofBytes (toBytes bits) = bits ++ fill := by
  obtain ⟨fill, hf, hp⟩ := ofBytes_packOnto [] bits
  exact ⟨fill, hf, hp⟩

end Bits

namespace Input

/-- What is behind some bits of an `Input` is an `Input`. -/
theorem exists_behind {i : Input} {front back : Bits} (h : i.toBits = front ++ back) :
    ∃ r : Input, i.toBits = front ++ r.toBits ∧ r.toBits = back := by
  induction front generalizing i with
  | nil => exact ⟨i, rfl, h⟩
  | cons b front ih =>
      obtain ⟨r, -, hr⟩ := exists_next? h
      obtain ⟨j, hj, hback⟩ := ih hr
      exact ⟨j, by rw [h, hback], hback⟩

/-- An `Input` of whole bytes is one in which no byte was begun. -/
theorem eq_ofBytes_of_dvd {i : Input} (h : 8 ∣ i.toBits.length) : i = ofBytes i.bytes := by
  obtain ⟨bits, bytes, hlt⟩ := i
  rw [length_toBits] at h
  have hbits : bits = [] := List.length_eq_zero_iff.mp (by simp only at h; omega)
  subst hbits
  rfl

end Input

end OpenDocument.Deflate
