import OpenDocument.Text.Blank

/-!
# OpenDocument.Text.Decimal

Natural numbers in decimal: written with the digits alone, read with blanks around them and an
optional plus sign in front.
-/

namespace OpenDocument.Text

/-- The decimal digits of `n`, without leading zeros. -/
def decimal (n : Nat) : List Char :=
  Nat.toDigits 10 n

/-- The number that a non-empty run of ASCII digits denotes. -/
def ofDigits? (cs : List Char) : Option Nat :=
  if cs.isEmpty || !cs.all Char.isDigit then none
  else some (cs.foldl (fun n c => 10 * n + (c.toNat - '0'.toNat)) 0)

/-- The text without one leading plus sign. -/
def dropPlus : List Char → List Char
  | '+' :: r => r
  | cs => cs

/-- The number below `bound` that digits behind the number `n` denote. It is given up as soon as it
reaches the bound, since further digits only make it greater. -/
def digitsBelow? (bound n : Nat) : List Char → Option Nat
  | [] => if n < bound then some n else none
  | c :: cs =>
    if c.isDigit ∧ n < bound then digitsBelow? bound (10 * n + (c.toNat - '0'.toNat)) cs else none

/-- The number below `bound` that a text denotes: blanks at the ends do not count, and one plus
sign may precede the digits. -/
def readDecimal? (bound : Nat) (cs : List Char) : Option Nat :=
  match dropPlus (trim cs) with
  | [] => none
  | digits => digitsBelow? bound 0 digits

/-! ## What is read -/

/-- More digits never make a number smaller. -/
theorem le_foldl_digits (cs : List Char) (n : Nat) :
    n ≤ cs.foldl (fun n c => 10 * n + (c.toNat - '0'.toNat)) n := by
  induction cs generalizing n with
  | nil => exact Nat.le_refl n
  | cons c cs ih =>
    have := ih (10 * n + (c.toNat - '0'.toNat))
    simp only [List.foldl_cons]; omega

theorem digitsBelow?_eq (bound : Nat) (cs : List Char) (n : Nat) :
    digitsBelow? bound n cs =
      if cs.all Char.isDigit then
        (some (cs.foldl (fun n c => 10 * n + (c.toNat - '0'.toNat)) n)).filter (· < bound)
      else none := by
  induction cs generalizing n with
  | nil => by_cases hn : n < bound <;> simp [digitsBelow?, Option.filter, hn]
  | cons c cs ih =>
    simp only [digitsBelow?, ih, List.all_cons, List.foldl_cons]
    have := le_foldl_digits cs (10 * n + (c.toNat - '0'.toNat))
    by_cases hd : c.isDigit
    · by_cases hn : n < bound
      · simp [hd, hn]
      · rw [if_neg (fun h => hn h.2), Option.filter, decide_eq_false (by omega)]
        simp
    · simp [hd]

/-- What is read is the number of the digits, if it is below the bound. -/
theorem readDecimal?_eq (bound : Nat) (cs : List Char) :
    readDecimal? bound cs = (ofDigits? (dropPlus (trim cs))).filter (· < bound) := by
  cases h : dropPlus (trim cs) with
  | nil => simp [readDecimal?, h, ofDigits?]
  | cons c r =>
    simp only [readDecimal?, h, digitsBelow?_eq, ofDigits?, List.isEmpty_cons, Bool.false_or]
    cases (c :: r).all Char.isDigit <;> rfl

end OpenDocument.Text
