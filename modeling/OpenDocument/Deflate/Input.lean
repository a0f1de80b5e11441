import OpenDocument.Deflate.Bits

/-!
# OpenDocument.Deflate.Input

What is left of a stream while it is read: the bits of the byte that was begun, and the bytes
behind it. Some parts of a stream are read by bits and some by whole bytes, which begin where the
byte that was begun ends.

Main statements:

* `Input.ext_toBits`: an input is determined by the bits that it stands for;
* `Input.takeField_field`: a field is taken whole, whatever follows it.
-/

namespace OpenDocument.Deflate

/-- What is left of a stream. -/
structure Input where
  /-- What is left of the byte that was begun. -/
  bits : Bits
  /-- The bytes behind that byte. -/
  bytes : Bytes
  length_bits_lt : bits.length < 8

namespace Input

/-- A whole byte string as input. -/
def ofBytes (bs : Bytes) : Input :=
  ⟨[], bs, by decide⟩

/-- The bits that an input stands for. -/
def toBits (i : Input) : Bits :=
  i.bits ++ Bits.ofBytes i.bytes

/-- The first bit, and the input behind it. -/
def next? : Input → Option (Bool × Input)
  | ⟨b :: bits, bytes, h⟩ => some (b, ⟨bits, bytes, Nat.lt_of_succ_lt h⟩)
  | ⟨[], b :: bytes, _⟩ =>
    some (b.toNat % 2 == 1, ⟨Bits.field 7 (b.toNat / 2), bytes, by simp⟩)
  | ⟨[], [], _⟩ => none

/-- The number in the first `width` bits, and the input behind them. -/
def takeField : Nat → Input → Option (Nat × Input)
  | 0, i => some (0, i)
  | width + 1, i => do
    let (b, i) ← i.next?
    let (n, i) ← takeField width i
    return (b.toNat + 2 * n, i)

/-- The input from the next whole byte on. -/
def align (i : Input) : Input :=
  ofBytes i.bytes

/-- The next `n` whole bytes, and the input behind them. -/
def takeBytes (n : Nat) (i : Input) : Option (Bytes × Input) :=
  let head := i.bytes.take n
  if head.length = n then some (head, ofBytes (i.bytes.drop n)) else none

/-! ## The bits of an input -/

@[simp] theorem toBits_ofBytes (bs : Bytes) : (ofBytes bs).toBits = Bits.ofBytes bs := rfl

theorem length_toBits (i : Input) : i.toBits.length = i.bits.length + 8 * i.bytes.length := by
  simp [toBits]

/-- An input is determined by its bits: how many of them belong to the byte that was begun shows in
their number. -/
theorem ext_toBits {i j : Input} (h : i.toBits = j.toBits) : i = j := by
  have hi := i.length_bits_lt
  have hj := j.length_bits_lt
  have hl := congrArg List.length h
  rw [length_toBits, length_toBits] at hl
  obtain ⟨hbits, hbytes⟩ := List.append_inj h (by omega)
  have := Bits.ofBytes_inj hbytes
  cases i; cases j; simp_all

/-- `next?` takes the bit that it reads away from the front. -/
theorem toBits_of_next? {i r : Input} {b : Bool} (h : i.next? = some (b, r)) :
    i.toBits = b :: r.toBits := by
  obtain ⟨bits, bytes, hlt⟩ := i
  cases bits with
  | cons c bits =>
    simp only [next?, Option.some.injEq, Prod.mk.injEq] at h
    obtain ⟨rfl, rfl⟩ := h; rfl
  | nil =>
    cases bytes with
    | nil => simp [next?] at h
    | cons c bytes =>
      simp only [next?, Option.some.injEq, Prod.mk.injEq] at h
      obtain ⟨rfl, rfl⟩ := h; rfl

theorem next?_eq_none_iff (i : Input) : i.next? = none ↔ i.toBits = [] := by
  obtain ⟨bits, bytes, hlt⟩ := i
  cases bits with
  | cons c bits => simp [next?, toBits]
  | nil => cases bytes <;> simp [next?, toBits, Bits.ofBytes, Bits.field]

/-- A bit of the bits is read, and what follows it is an input. -/
theorem exists_next? {i : Input} {b : Bool} {bits : Bits} (h : i.toBits = b :: bits) :
    ∃ r, i.next? = some (b, r) ∧ r.toBits = bits := by
  match hn : i.next? with
  | none => rw [next?_eq_none_iff] at hn; simp [hn] at h
  | some (c, r) =>
    have := toBits_of_next? hn
    rw [h] at this
    obtain ⟨rfl, hr⟩ := List.cons.inj this
    exact ⟨r, rfl, hr.symm⟩

/-- `takeField` takes a field whole, whatever follows it. -/
theorem takeField_field {width n : Nat} (hn : n < Nat.pow 2 width) {i rest : Input}
    (h : i.toBits = Bits.field width n ++ rest.toBits) : i.takeField width = some (n, rest) := by
  induction width generalizing n i with
  | zero =>
    simp only [Nat.pow, Nat.lt_one_iff] at hn
    rw [hn, ext_toBits h]; rfl
  | succ w ih =>
    obtain ⟨r, hr, hbits⟩ := exists_next? h
    have hq : n / 2 < Nat.pow 2 w := Nat.div_lt_of_lt_mul (Nat.mul_comm _ 2 ▸ hn)
    have hn2 : (n % 2 == 1).toNat + 2 * (n / 2) = n := by
      rcases Nat.mod_two_eq_zero_or_one n with hm | hm <;> simp [hm] <;> omega
    simp [takeField, hr, ih hq hbits, hn2]

end Input

end OpenDocument.Deflate
