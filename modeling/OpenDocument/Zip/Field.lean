import OpenDocument.Bytes

/-!
# OpenDocument.Zip.Field

Taking the records of an archive apart: numbers and pieces at the front of a byte string, and the
places where a signature occurs.
-/

namespace OpenDocument.Zip

/-- The number in the first `width` bytes, and the bytes behind them. -/
def takeNumber (width : Nat) (bs : Bytes) : Option (Nat × Bytes) :=
  let head := bs.take width
  if head.length = width then some (Bytes.ofLittleEndian head, bs.drop width) else none

/-- The first `n` bytes, and the bytes behind them. -/
def takeBytes (n : Nat) (bs : Bytes) : Option (Bytes × Bytes) :=
  let head := bs.take n
  if head.length = n then some (head, bs.drop n) else none

/-- The byte strings in `found`, and then a byte string from its first, second and every further
position on; the last one is empty. -/
def suffixesOnto (found : Array Bytes) : Bytes → Array Bytes
  | [] => found.push []
  | b :: bs => suffixesOnto (found.push (b :: bs)) bs

theorem toList_suffixesOnto (found : Array Bytes) (bs : Bytes) :
    (suffixesOnto found bs).toList =
      found.toList ++ (List.range (bs.length + 1)).map fun p => bs.drop p := by
  induction bs generalizing found with
  | nil => simp [suffixesOnto]
  | cons b bs ih =>
    rw [suffixesOnto, ih, List.length_cons, List.range_succ_eq_map (n := bs.length + 1)]
    simp [Function.comp_def]

/-- The suffix at a position is what is left without the bytes in front of it. -/
theorem getD_suffixesOnto (bs : Bytes) (p : Nat) :
    (suffixesOnto #[] bs).getD p [] = bs.drop p := by
  rw [Array.getD_eq_getD_getElem?, ← Array.getElem?_toList, toList_suffixesOnto]
  by_cases h : p < bs.length + 1
  · simp [h]
  · simp [h, List.drop_eq_nil_of_le (by omega : bs.length ≤ p)]

/-- The positions where a signature occurs, last one first and before those in
`found`, each with the bytes behind the signature. The bytes given begin at `position`. -/
def occurrencesOnto (signature : Bytes) (found : List (Nat × Bytes)) (position : Nat) :
    Bytes → List (Nat × Bytes)
  | [] => found
  | b :: bs =>
    occurrencesOnto signature
      (if signature.isPrefixOf (b :: bs) then (position, (b :: bs).drop signature.length) :: found
        else found)
      (position + 1) bs

/-- The positions where a signature occurs, last one first, each with the bytes behind the
signature. -/
def occurrences (signature : Nat) (bs : Bytes) : List (Nat × Bytes) :=
  occurrencesOnto (Bytes.littleEndian 4 signature) [] 0 bs

end OpenDocument.Zip
