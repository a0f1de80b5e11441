import OpenDocument.Bytes

/-!
# OpenDocument.Text.Repair

UTF-8 out of bytes that need not be UTF-8. Every character that is begun and not completed becomes
one replacement character, however much of it is there, and so does every byte that begins none.
What is UTF-8 already is left as it is.
-/

namespace OpenDocument.Text

/-- What a first byte calls for: how many bytes follow, and the range of the first of those. All
further ones are continuation bytes of any value. -/
structure Sequel where
  length : Nat
  least : UInt8
  greatest : UInt8
  deriving DecidableEq, Repr

/-- The least continuation byte. -/
def leastContinuation : UInt8 := 0x80

/-- The greatest continuation byte. -/
def greatestContinuation : UInt8 := 0xBF

/-- The sequel of a byte that begins a character of more than one byte. Sequences that are longer
than need be, surrogates and what lies beyond the last code point have none. -/
def Sequel.ofFirst? (b : UInt8) : Option Sequel :=
  if b < 0xC2 then none
  else if b < 0xE0 then some ⟨1, leastContinuation, greatestContinuation⟩
  else if b = 0xE0 then some ⟨2, 0xA0, greatestContinuation⟩
  else if b = 0xED then some ⟨2, leastContinuation, 0x9F⟩
  else if b < 0xF0 then some ⟨2, leastContinuation, greatestContinuation⟩
  else if b = 0xF0 then some ⟨3, 0x90, greatestContinuation⟩
  else if b < 0xF4 then some ⟨3, leastContinuation, greatestContinuation⟩
  else if b = 0xF4 then some ⟨3, leastContinuation, 0x8F⟩
  else none

/-- How many of the next bytes carry a character on, of `n` that it calls for. -/
def carriedOn (least greatest : UInt8) : Nat → Bytes → Nat
  | n + 1, b :: bs =>
    if least ≤ b ∧ b ≤ greatest then carriedOn leastContinuation greatestContinuation n bs + 1
    else 0
  | _, _ => 0

/-- The replacement character. -/
def replacement : Bytes := [0xEF, 0xBF, 0xBD]

/-- A byte string with a `replacement` for each stretch of it that is not UTF-8. -/
def repair (bs : Bytes) : Bytes :=
  match bs with
  | [] => []
  | b :: rest =>
    if b < leastContinuation then b :: repair rest
    else
      match Sequel.ofFirst? b with
      | none => replacement ++ repair rest
      | some s =>
        let n := carriedOn s.least s.greatest s.length rest
        (if n = s.length then b :: rest.take n else replacement) ++ repair (rest.drop n)
termination_by bs.length
decreasing_by
  all_goals simp only [List.length_drop, List.length_cons]; omega

/-- ASCII is left as it is. -/
theorem repair_of_ascii {bs : Bytes} (h : ∀ b ∈ bs, b < leastContinuation) : repair bs = bs := by
  induction bs with
  | nil => rw [repair]
  | cons b rest ih =>
    rw [repair, if_pos (h b (by simp)), ih fun c hc => h c (by simp [hc])]

end OpenDocument.Text
