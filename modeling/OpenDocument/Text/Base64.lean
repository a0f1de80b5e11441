import OpenDocument.Bytes

/-!
# OpenDocument.Text.Base64

Base64 with the standard alphabet and mandatory padding. Three bytes are written as four
symbols; a rest of one or two bytes is filled up with `=`. Reading accepts exactly that form,
and a refusal names the first offending byte of the text and its offset.
-/

namespace OpenDocument.Base64

/-! ## The alphabet -/

/-- The padding symbol `=`. -/
def padSymbol : UInt8 := 0x3D

/-- The symbol of a six-bit value. -/
def symbol (v : Nat) : UInt8 :=
  if v < 26 then UInt8.ofNat (0x41 + v)
  else if v < 52 then UInt8.ofNat (0x61 + (v - 26))
  else if v < 62 then UInt8.ofNat (0x30 + (v - 52))
  else if v = 62 then 0x2B
  else 0x2F

/-- The six-bit value of a symbol, as `symbol` writes it. -/
def value? (b : UInt8) : Option Nat :=
  if 0x41 ≤ b && b ≤ 0x5A then some (b.toNat - 0x41)
  else if 0x61 ≤ b && b ≤ 0x7A then some (b.toNat - 0x61 + 26)
  else if 0x30 ≤ b && b ≤ 0x39 then some (b.toNat - 0x30 + 52)
  else if b = 0x2B then some 62
  else if b = 0x2F then some 63
  else none

/-- Every six-bit value is read back from its symbol. -/
theorem value?_symbol : ∀ v < 64, value? (symbol v) = some v := by decide

/-- No value is written as the padding symbol. -/
theorem symbol_ne_padSymbol : ∀ v < 64, symbol v ≠ padSymbol := by decide

/-! ## Writing -/

/-- The text of a byte string, in groups of four symbols with padding by `padSymbol`. -/
def encode : Bytes → Bytes
  | a :: b :: c :: rest =>
    symbol (a.toNat / 4) :: symbol (a.toNat % 4 * 16 + b.toNat / 16)
      :: symbol (b.toNat % 16 * 4 + c.toNat / 64) :: symbol (c.toNat % 64) :: encode rest
  | [a, b] =>
    [symbol (a.toNat / 4), symbol (a.toNat % 4 * 16 + b.toNat / 16), symbol (b.toNat % 16 * 4),
     padSymbol]
  | [a] => [symbol (a.toNat / 4), symbol (a.toNat % 4 * 16), padSymbol, padSymbol]
  | [] => []

/-! ## Reading -/

/-- Why a text is not Base64. -/
inductive Fault where
  /-- A byte that may not stand at this offset. -/
  | symbol (byte : UInt8) (offset : Nat)
  /-- A text that breaks off after so many symbols. -/
  | length (symbols : Nat)
  /-- A last group with too few or too many padding symbols. -/
  | padding
  /-- A last symbol with bits that belong to no byte. -/
  | lastSymbol (byte : UInt8) (offset : Nat)
  deriving DecidableEq, Repr

/-- The wording of a fault. -/
def Fault.message : Fault → String
  | .symbol byte offset => s!"Invalid symbol {byte.toNat}, offset {offset}."
  | .length symbols => s!"Invalid input length: {symbols}"
  | .padding => "Invalid padding"
  | .lastSymbol byte offset => s!"Invalid last symbol {byte.toNat}, offset {offset}."

/-- The value of the symbol at an offset. -/
def valueAt (offset : Nat) (b : UInt8) : Except Fault Nat :=
  match value? b with
  | some v => .ok v
  | none => .error (.symbol b offset)

/-- The symbols in front of the padding of the last group, and the number of padding symbols.
`index` counts the bytes of the group that were read, `padAt` is where its padding began. -/
def splitLast (start : Nat) : (index : Nat) → (padAt : Option Nat) → Bytes →
    Except Fault (List Nat × Nat)
  | _, _, [] => .ok ([], 0)
  | i, padAt, b :: rest =>
    if b = padSymbol then
      if i < 2 then .error (.symbol b (start + i))
      else do
        let (symbols, pads) ← splitLast start (i + 1) (padAt.or (some i)) rest
        return (symbols, pads + 1)
    else
      match padAt with
      | some p => .error (.symbol padSymbol (start + p))
      | none => do
        let v ← valueAt (start + i) b
        let (symbols, pads) ← splitLast start (i + 1) none rest
        return (v :: symbols, pads)

/-- The bytes of the last group, which has one to four bytes of text and begins at `start`. -/
def decodeLast (start : Nat) (group : Bytes) : Except Fault Bytes := do
  let (symbols, pads) ← splitLast start 0 none group
  if symbols.length < 2 then throw (.length (start + symbols.length))
  if symbols.length + pads ≠ 4 then throw .padding
  let last := start + symbols.length - 1
  let spare : Fault := .lastSymbol (group.getD (symbols.length - 1) 0) last
  match symbols with
  | [v, w] => if w % 16 = 0 then return [UInt8.ofNat (v * 4 + w / 16)] else throw spare
  | [v, w, x] =>
    if x % 4 = 0 then return [UInt8.ofNat (v * 4 + w / 16), UInt8.ofNat (w * 16 + x / 4)]
    else throw spare
  | [v, w, x, y] =>
    return [UInt8.ofNat (v * 4 + w / 16), UInt8.ofNat (w * 16 + x / 4), UInt8.ofNat (x * 64 + y)]
  | _ => throw .padding

/-- The bytes of a text whose first byte has offset `start`. A group of four that is not the
last one holds symbols only. -/
def decodeFrom (start : Nat) : Bytes → Except Fault Bytes
  | a :: b :: c :: d :: e :: rest => do
    let v ← valueAt start a
    let w ← valueAt (start + 1) b
    let x ← valueAt (start + 2) c
    let y ← valueAt (start + 3) d
    let tail ← decodeFrom (start + 4) (e :: rest)
    return UInt8.ofNat (v * 4 + w / 16) :: UInt8.ofNat (w * 16 + x / 4)
      :: UInt8.ofNat (x * 64 + y) :: tail
  | [] => .ok []
  | group => decodeLast start group

/-- The bytes that a text encodes, by `decodeFrom`. One byte too many is reported first, if it is no
symbol. -/
def decode (text : Bytes) : Except Fault Bytes :=
  match text.getLast? with
  | some b =>
    if text.length % 4 = 1 ∧ b ≠ padSymbol ∧ value? b = none then
      .error (.symbol b (text.length - 1))
    else decodeFrom 0 text
  | none => .ok []

end OpenDocument.Base64
