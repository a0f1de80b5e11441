import OpenDocument.Deflate.Code

/-!
# OpenDocument.Deflate.Token

What a compressed block says: bytes that stand for themselves, and copies of earlier output. A
copy has a length of 3 to 258 bytes and begins at a distance of 1 to 32768 bytes back; it may
run into its own output.
-/

namespace OpenDocument.Deflate

/-- One item of a compressed block. -/
inductive Token where
  | literal (byte : UInt8)
  | copy (length distance : Nat)
  deriving DecidableEq, Repr

/-! ## Meaning -/

/-- The output with `length` bytes more, each equal to the one `distance` bytes in front of it. -/
def copyBytes (distance : Nat) : Nat → Array UInt8 → Array UInt8
  | 0, out => out
  | n + 1, out => copyBytes distance n (out.push (out.getD (out.size - distance) 0))

/-- The output after a token, if a copy begins inside the output; `copyBytes` makes the copy. -/
def Token.apply (out : Array UInt8) : Token → Option (Array UInt8)
  | literal b => some (out.push b)
  | copy length distance =>
    if 0 < distance ∧ distance ≤ out.size then some (copyBytes distance length out) else none

/-! ## Lengths and distances in codes -/

/-- Least length and number of extra bits of the symbols from 257 on. -/
def lengthRanges : List (Nat × Nat) :=
  [(3, 0), (4, 0), (5, 0), (6, 0), (7, 0), (8, 0), (9, 0), (10, 0), (11, 1), (13, 1), (15, 1),
   (17, 1), (19, 2), (23, 2), (27, 2), (31, 2), (35, 3), (43, 3), (51, 3), (59, 3), (67, 4),
   (83, 4), (99, 4), (115, 4), (131, 5), (163, 5), (195, 5), (227, 5), (258, 0)]

/-- Least distance and number of extra bits of the distance symbols. -/
def distanceRanges : List (Nat × Nat) :=
  [(1, 0), (2, 0), (3, 0), (4, 0), (5, 1), (7, 1), (9, 2), (13, 2), (17, 3), (25, 3), (33, 4),
   (49, 4), (65, 5), (97, 5), (129, 6), (193, 6), (257, 7), (385, 7), (513, 8), (769, 8),
   (1025, 9), (1537, 9), (2049, 10), (3073, 10), (4097, 11), (6145, 11), (8193, 12), (12289, 12),
   (16385, 13), (24577, 13)]

/-- The last range that begins at or below a value: its position, and the extra bits that lead from
its beginning to the value. `readRange` undoes it. -/
def rangeOf (ranges : List (Nat × Nat)) (v : Nat) : Nat × Bits :=
  let i := (ranges.filter fun r => r.1 ≤ v).length - 1
  let r := ranges.getD i (0, 0)
  (i, Bits.field r.2 (v - r.1))

/-- The value that extra bits select in the range of a symbol, and the input behind them. -/
def readRange (ranges : List (Nat × Nat)) (i : Nat) (input : Input) :
    Except Stop (Nat × Input) :=
  match ranges[i]? with
  | none => .error .corrupt
  | some (least, extra) =>
    match input.takeField extra with
    | none => .error .truncated
    | some (n, rest) => .ok (least + n, rest)

/-- The symbol that ends a block. -/
def endSymbol : Nat := 256

/-- The first symbol of a copy. -/
def firstCopySymbol : Nat := 257

/-! ## The fixed code -/

/-- Word lengths of the fixed code for literals and lengths. -/
def fixedLengths : List Nat :=
  List.replicate 144 8 ++ List.replicate 112 9 ++ List.replicate 24 7 ++ List.replicate 8 8

/-- Word lengths of the fixed code for distances. The last two symbols stand for no distance. -/
def fixedDistanceLengths : List Nat :=
  List.replicate 32 5

/-- The words of the fixed code for literals and lengths. -/
def fixedWords : Array Bits :=
  (codeWords fixedLengths).toArray

/-- The words of the fixed code for distances, by `fixedDistanceLengths`. -/
def fixedDistanceWords : Array Bits :=
  (codeWords fixedDistanceLengths).toArray

/-- The bits of a token in the fixed code, with `fixedWords` and `fixedDistanceWords`. -/
def Token.fixedBits : Token → Bits
  | literal b => fixedWords.getD b.toNat []
  | copy length distance =>
    let (i, extra) := rangeOf lengthRanges length
    let (j, extra') := rangeOf distanceRanges distance
    fixedWords.getD (firstCopySymbol + i) [] ++ extra ++ fixedDistanceWords.getD j [] ++ extra'

end OpenDocument.Deflate
