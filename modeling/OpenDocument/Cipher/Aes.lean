import OpenDocument.Cipher.Substitution

/-!
# OpenDocument.Cipher.Aes

The block cipher AES with keys of 16, 24 and 32 bytes, in both directions. A block is a state of
four columns; each round substitutes the bytes, shifts the rows, mixes the columns and adds a
round key, and the last round does not mix. Decryption undoes the steps in reverse order with
the same round keys.
-/

namespace OpenDocument.Cipher

/-! ## Columns and states -/

/-- Four bytes of a state, which are also the unit of the key schedule. -/
structure Column where
  r0 : UInt8
  r1 : UInt8
  r2 : UInt8
  r3 : UInt8
  deriving DecidableEq, Repr, Inhabited

/-- A block of sixteen bytes as four columns. -/
structure State where
  c0 : Column
  c1 : Column
  c2 : Column
  c3 : Column
  deriving DecidableEq, Repr, Inhabited

namespace Column

/-- Exclusive or of two columns. -/
def add (x y : Column) : Column :=
  ⟨x.r0 ^^^ y.r0, x.r1 ^^^ y.r1, x.r2 ^^^ y.r2, x.r3 ^^^ y.r3⟩

/-- Apply a function to every byte. -/
@[inline] def map (f : UInt8 → UInt8) (x : Column) : Column :=
  ⟨f x.r0, f x.r1, f x.r2, f x.r3⟩

/-- The column turned up by one byte. -/
def rotate (x : Column) : Column :=
  ⟨x.r1, x.r2, x.r3, x.r0⟩

/-- The bytes of a column. -/
def toBytes (x : Column) : Bytes :=
  [x.r0, x.r1, x.r2, x.r3]

end Column

namespace State

/-- Exclusive or of two states. -/
def add (x y : State) : State :=
  ⟨x.c0.add y.c0, x.c1.add y.c1, x.c2.add y.c2, x.c3.add y.c3⟩

/-- Apply a function to every column. -/
@[inline] def map (f : Column → Column) (x : State) : State :=
  ⟨f x.c0, f x.c1, f x.c2, f x.c3⟩

/-- The bytes of a state. -/
def toBytes (x : State) : Bytes :=
  x.c0.toBytes ++ x.c1.toBytes ++ x.c2.toBytes ++ x.c3.toBytes

theorem length_toBytes (x : State) : x.toBytes.length = 16 := rfl

/-- The states of the complete blocks of a byte string. -/
def blocks : Bytes → List State
  | a0 :: a1 :: a2 :: a3 :: b0 :: b1 :: b2 :: b3 :: c0 :: c1 :: c2 :: c3 :: d0 :: d1 :: d2 :: d3
      :: rest =>
    ⟨⟨a0, a1, a2, a3⟩, ⟨b0, b1, b2, b3⟩, ⟨c0, c1, c2, c3⟩, ⟨d0, d1, d2, d3⟩⟩ :: blocks rest
  | _ => []

/-! ## The steps of a round -/

/-- Substitute every byte by `substitute`. -/
def substitute (x : State) : State :=
  x.map (·.map Cipher.substitute)

/-- Undo `substitute`. -/
def unsubstitute (x : State) : State :=
  x.map (·.map Cipher.unsubstitute)

/-- Turn row `i` left by `i` columns. -/
def shiftRows (x : State) : State :=
  ⟨⟨x.c0.r0, x.c1.r1, x.c2.r2, x.c3.r3⟩, ⟨x.c1.r0, x.c2.r1, x.c3.r2, x.c0.r3⟩,
   ⟨x.c2.r0, x.c3.r1, x.c0.r2, x.c1.r3⟩, ⟨x.c3.r0, x.c0.r1, x.c1.r2, x.c2.r3⟩⟩

/-- Undo `shiftRows`. -/
def unshiftRows (x : State) : State :=
  ⟨⟨x.c0.r0, x.c3.r1, x.c2.r2, x.c1.r3⟩, ⟨x.c1.r0, x.c0.r1, x.c3.r2, x.c2.r3⟩,
   ⟨x.c2.r0, x.c1.r1, x.c0.r2, x.c3.r3⟩, ⟨x.c3.r0, x.c2.r1, x.c1.r2, x.c0.r3⟩⟩

end State

/-- Twice a byte in the field of 256 elements. -/
@[inline] def double (b : UInt8) : UInt8 :=
  (b <<< 1) ^^^ ((b >>> 7) * 0x1B)

namespace Column

/-- Multiply a column by the circulant matrix of 2, 3, 1, 1, with `double` for 2. -/
def mix (x : Column) : Column :=
  ⟨double x.r0 ^^^ (double x.r1 ^^^ x.r1) ^^^ x.r2 ^^^ x.r3,
   x.r0 ^^^ double x.r1 ^^^ (double x.r2 ^^^ x.r2) ^^^ x.r3,
   x.r0 ^^^ x.r1 ^^^ double x.r2 ^^^ (double x.r3 ^^^ x.r3),
   (double x.r0 ^^^ x.r0) ^^^ x.r1 ^^^ x.r2 ^^^ double x.r3⟩

/-- The combination `14 a + 11 b + 13 c + 9 d` of four bytes. -/
@[inline] def unmixRow (a b c d : UInt8) : UInt8 :=
  double (double (double (a ^^^ b ^^^ c ^^^ d))) ^^^ double (double (a ^^^ c))
    ^^^ double (a ^^^ b) ^^^ b ^^^ c ^^^ d

/-- Undo `mix`: multiply by the circulant matrix of 14, 11, 13, 9. -/
def unmix (x : Column) : Column :=
  ⟨unmixRow x.r0 x.r1 x.r2 x.r3, unmixRow x.r1 x.r2 x.r3 x.r0, unmixRow x.r2 x.r3 x.r0 x.r1,
   unmixRow x.r3 x.r0 x.r1 x.r2⟩

end Column

/-! ## Keys -/

/-- The key sizes of AES. -/
inductive KeySize where
  | aes128
  | aes192
  | aes256
  deriving DecidableEq, Repr

namespace KeySize

/-- The size in columns of the key. -/
def columns : KeySize → Nat
  | .aes128 => 4
  | .aes192 => 6
  | .aes256 => 8

/-- The size in bytes. -/
def bytes (k : KeySize) : Nat :=
  4 * k.columns

/-- The number of rounds. -/
def rounds (k : KeySize) : Nat :=
  k.columns + 6

/-- The key size of so many bytes, if AES has it: the inverse of `bytes`. -/
def ofBytes? (n : Nat) : Option KeySize :=
  if n = 16 then some .aes128
  else if n = 24 then some .aes192
  else if n = 32 then some .aes256
  else none

theorem ofBytes?_bytes (k : KeySize) : ofBytes? k.bytes = some k := by
  cases k <;> rfl

theorem bytes_of_ofBytes? {n : Nat} {k : KeySize} (h : ofBytes? n = some k) : k.bytes = n := by
  unfold ofBytes? at h
  split at h
  · simp at h; subst h; simp_all [bytes, columns]
  · split at h
    · simp at h; subst h; simp_all [bytes, columns]
    · split at h
      · simp at h; subst h; simp_all [bytes, columns]
      · simp at h

end KeySize

/-- The round keys: one added in front of the first round, one for each round that mixes, and one
for the last round. -/
structure RoundKeys where
  first : State
  middle : List State
  last : State
  deriving DecidableEq, Repr

namespace RoundKeys

/-- The columns of a byte string, four bytes each; what is left over is dropped. -/
def columnsOf : Bytes → List Column
  | a :: b :: c :: d :: rest => ⟨a, b, c, d⟩ :: columnsOf rest
  | _ => []

/-- The constant that enters the schedule for the `i`th time, counted from zero. -/
def roundConstant : Nat → UInt8
  | 0 => 1
  | i + 1 => double (roundConstant i)

/-- The schedule of a key of `width` columns with `n` more columns; every `width`th of them takes in
a `roundConstant`. -/
def extend (width : Nat) : Nat → Array Column → Array Column
  | 0, w => w
  | n + 1, w =>
    let i := w.size
    let previous := w.getD (i - 1) default
    let term :=
      if i % width = 0 then
        (previous.rotate.map substitute).add ⟨roundConstant (i / width - 1), 0, 0, 0⟩
      else if 6 < width ∧ i % width = 4 then previous.map substitute
      else previous
    extend width n (w.push ((w.getD (i - width) default).add term))

/-- The states made of every four columns, which are the round keys of a schedule by `extend`. -/
def states : List Column → List State
  | a :: b :: c :: d :: rest => ⟨a, b, c, d⟩ :: states rest
  | _ => []

/-- The round keys of a key of the given size: `extend` for as many columns as the `rounds` need. -/
def ofKey (size : KeySize) (key : Bytes) : RoundKeys :=
  let width := size.columns
  let columns := extend width (4 * (size.rounds + 1) - width) (columnsOf key).toArray
  let keys := states columns.toList
  { first := keys.headD default
    middle := (keys.drop 1).dropLast
    last := keys.getLastD default }

/-- The round keys of a key of 16, 24 or 32 bytes. -/
def ofBytes? (key : Bytes) : Option RoundKeys :=
  (KeySize.ofBytes? key.length).map fun size => ofKey size key

/-- Encrypt one block: all rounds but the last one `mix`. -/
def encrypt (k : RoundKeys) (block : State) : State :=
  let mixed := k.middle.foldl
    (fun s key => ((s.substitute.shiftRows).map Column.mix).add key) (block.add k.first)
  mixed.substitute.shiftRows.add k.last

/-- Decrypt one block, with the rounds of `encrypt` undone from the last one on. -/
def decrypt (k : RoundKeys) (block : State) : State :=
  let mixed := (block.add k.last).unshiftRows.unsubstitute
  let first := k.middle.foldr
    (fun key s => (((s.add key).map Column.unmix).unshiftRows).unsubstitute) mixed
  first.add k.first

end RoundKeys

end OpenDocument.Cipher
