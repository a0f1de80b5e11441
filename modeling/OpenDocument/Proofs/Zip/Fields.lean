import OpenDocument.Zip.Field

/-!
# OpenDocument.Proofs.Zip.Fields

What was put together is taken apart again: fields and pieces at the front of a byte string, and
the places where a signature occurs.  A signature also occurs by accident, in contents and across
the borders of records, so nothing is said of the places in front of a record and behind it but
where they are (`exists_occurrences`).
-/

namespace OpenDocument.Zip

/-! ## Fields -/

/-- `takeNumber` takes bytes in front as a number, whatever follows. -/
theorem takeNumber_append {width : Nat} {bs : Bytes} (h : bs.length = width) (rest : Bytes) :
    takeNumber width (bs ++ rest) = some (Bytes.ofLittleEndian bs, rest) := by
  subst h
  simp [takeNumber]

/-- A field that `Bytes.littleEndian` writes reads back, whatever follows. -/
theorem takeNumber_littleEndian {width n : Nat} (h : n < Nat.pow 256 width) (rest : Bytes) :
    takeNumber width (Bytes.littleEndian width n ++ rest) = some (n, rest) := by
  rw [takeNumber_append (Bytes.length_littleEndian width n),
    Bytes.ofLittleEndian_littleEndian width n h]

/-- Too few bytes are no number. -/
theorem takeNumber_eq_none {width : Nat} {bs : Bytes} (h : bs.length < width) :
    takeNumber width bs = none := by
  have hne : ¬(bs.take width).length = width := by
    rw [List.length_take]
    omega
  simp only [takeNumber, hne, if_false]

/-- What is left behind a number is shorter by its width. -/
theorem length_of_takeNumber {width n : Nat} {bs rest : Bytes}
    (h : takeNumber width bs = some (n, rest)) : rest.length + width = bs.length := by
  by_cases hl : bs.length < width
  · rw [takeNumber_eq_none hl] at h
    cases h
  · have htake : (bs.take width).length = width := by
      rw [List.length_take]
      omega
    simp only [takeNumber, htake, if_true, Option.some.injEq, Prod.mk.injEq] at h
    rw [← h.2, List.length_drop]
    omega

/-- `takeBytes` takes a piece in front, whatever follows. -/
theorem takeBytes_append (bs rest : Bytes) :
    takeBytes bs.length (bs ++ rest) = some (bs, rest) := by
  simp [takeBytes]

@[simp] theorem takeBytes_zero (bs : Bytes) : takeBytes 0 bs = some ([], bs) := rfl

/-! ## Occurrences -/

section

variable (signature : Bytes)

/-- Of the bytes in front, the search finds places among them, and goes on behind them. -/
theorem occurrencesOnto_append (found : List (Nat × Bytes)) (position : Nat)
    (front back : Bytes) :
    ∃ earlier, occurrencesOnto signature found position (front ++ back)
        = occurrencesOnto signature (earlier ++ found) (position + front.length) back
      ∧ ∀ x ∈ earlier, x.1 < position + front.length := by
  induction front generalizing found position with
  | nil => exact ⟨[], rfl, by simp⟩
  | cons b front ih =>
      rw [List.cons_append, occurrencesOnto]
      split
      · obtain ⟨earlier, he, hp⟩ := ih
          ((position, (b :: (front ++ back)).drop signature.length) :: found) (position + 1)
        refine ⟨earlier ++ [(position, (b :: (front ++ back)).drop signature.length)], ?_, ?_⟩
        · rw [he, List.append_assoc, List.singleton_append, List.length_cons,
            Nat.add_right_comm, Nat.add_assoc]
        · intro x hx
          rw [List.length_cons]
          rcases List.mem_append.mp hx with hx | hx
          · have := hp x hx
            omega
          · rw [List.mem_singleton] at hx
            subst hx
            simp only
            omega
      · obtain ⟨earlier, he, hp⟩ := ih found (position + 1)
        refine ⟨earlier, ?_, ?_⟩
        · rw [he, List.length_cons, Nat.add_right_comm, Nat.add_assoc]
        · intro x hx
          have := hp x hx
          rw [List.length_cons]
          omega

/-- All places that `occurrencesOnto` still finds are among the bytes that are left, and so is what
lies behind the signature there. -/
theorem occurrencesOnto_later (found : List (Nat × Bytes)) (position : Nat) (bs : Bytes) :
    ∃ later, occurrencesOnto signature found position bs = later ++ found
      ∧ ∀ x ∈ later, position ≤ x.1 ∧ x.2.length + signature.length ≤ bs.length := by
  induction bs generalizing found position with
  | nil => exact ⟨[], rfl, by simp⟩
  | cons b bs ih =>
      rw [occurrencesOnto]
      split
      · next hprefix =>
        have hlen := (List.isPrefixOf_iff_prefix.mp hprefix).length_le
        obtain ⟨later, hl, hp⟩ := ih ((position, (b :: bs).drop signature.length) :: found)
          (position + 1)
        refine ⟨later ++ [(position, (b :: bs).drop signature.length)], ?_, ?_⟩
        · rw [hl, List.append_assoc, List.singleton_append]
        · intro x hx
          rcases List.mem_append.mp hx with hx | hx
          · have := hp x hx
            rw [List.length_cons]
            omega
          · rw [List.mem_singleton] at hx
            subst hx
            rw [List.length_drop]
            omega
      · obtain ⟨later, hl, hp⟩ := ih found (position + 1)
        refine ⟨later, hl, ?_⟩
        intro x hx
        have := hp x hx
        rw [List.length_cons]
        omega

end

/-- A signature that was put somewhere is among the `occurrences`.  Other places lie in front of it,
or behind it with less bytes behind them. -/
theorem exists_occurrences (signature : Nat) (front rest : Bytes) :
    ∃ earlier later, occurrences signature (front ++ (Bytes.littleEndian 4 signature ++ rest))
        = later ++ (front.length, rest) :: earlier
      ∧ (∀ x ∈ earlier, x.1 < front.length)
      ∧ ∀ x ∈ later, front.length < x.1 ∧ x.2.length < rest.length := by
  obtain ⟨b, signed, hs⟩ : ∃ b signed, Bytes.littleEndian 4 signature = b :: signed := ⟨_, _, rfl⟩
  have hlen : (b :: signed).length = 4 := by
    rw [← hs, Bytes.length_littleEndian]
  have hsigned : signed.length = 3 := Nat.succ.inj hlen
  obtain ⟨earlier, he, hearlier⟩ := occurrencesOnto_append (b :: signed) [] 0 front
    (b :: signed ++ rest)
  obtain ⟨later, hl, hlater⟩ := occurrencesOnto_later (b :: signed)
    ((front.length, rest) :: earlier) (front.length + 1) (signed ++ rest)
  have hprefix : (b :: signed).isPrefixOf (b :: (signed ++ rest)) = true :=
    List.isPrefixOf_iff_prefix.mpr ⟨rest, rfl⟩
  refine ⟨earlier, later, ?_, ?_, ?_⟩
  · rw [occurrences, hs, he, List.append_nil, Nat.zero_add, List.cons_append, occurrencesOnto,
      if_pos hprefix, ← hl]
    rw [hlen, ← List.cons_append, List.drop_left' hlen]
  · intro x hx
    have := hearlier x hx
    omega
  · intro x hx
    have := hlater x hx
    rw [List.length_append, hsigned, hlen] at this
    omega

end OpenDocument.Zip
