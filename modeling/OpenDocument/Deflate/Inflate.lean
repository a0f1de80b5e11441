import OpenDocument.Deflate.Token

/-!
# OpenDocument.Deflate.Inflate

Reading raw DEFLATE streams with stored blocks and blocks in the fixed or in a described code. The
reader answers the content and the bytes behind the stream.
-/

namespace OpenDocument.Deflate

/-- A field of so many bits. -/
def readField (width : Nat) (input : Input) : Except Stop (Nat × Input) :=
  match input.takeField width with
  | some r => .ok r
  | none => .error .truncated

/-! ## Compressed blocks -/

/-- The `Token` that the input begins with, or `none` for the end of the block. -/
def readToken (literals distances : Tree) (input : Input) : Except Stop (Option Token × Input) := do
  let (s, input) ← literals.decode input
  if s < endSymbol then return (some (.literal (UInt8.ofNat s)), input)
  if s = endSymbol then return (none, input)
  let (length, input) ← readRange lengthRanges (s - firstCopySymbol) input
  let (d, input) ← distances.decode input
  let (distance, input) ← readRange distanceRanges d input
  return (some (.copy length distance), input)

/-- The output after the tokens of a block, of which there are at most `fuel`. -/
def readTokens (literals distances : Tree) : (fuel : Nat) → Array UInt8 → Input →
    Except Stop (Array UInt8 × Input)
  | 0, _, _ => .error .truncated
  | fuel + 1, out, input =>
    match readToken literals distances input with
    | .error s => .error s
    | .ok (none, rest) => .ok (out, rest)
    | .ok (some t, rest) =>
      match t.apply out with
      | none => .error .corrupt
      | some out' => readTokens literals distances fuel out' rest

/-! ## Described codes -/

/-- The symbols of the code for word lengths, in the order in which their own lengths are
given. -/
def lengthOrder : List Nat :=
  [16, 17, 18, 0, 8, 7, 9, 6, 10, 5, 11, 4, 12, 3, 13, 2, 14, 1, 15]

/-- So many fields of `width` bits. -/
def readFields (width : Nat) : Nat → Input → Except Stop (List Nat × Input)
  | 0, input => .ok ([], input)
  | n + 1, input => do
    let (v, input) ← readField width input
    let (vs, input) ← readFields width n input
    return (v :: vs, input)

/-- Word lengths up to a number of `total`, given those read so far, last one first. A symbol from
16 on repeats the last length or zero. -/
def readLengths (code : Tree) (total : Nat) : (fuel : Nat) → List Nat → Input →
    Except Stop (List Nat × Input)
  | 0, _, _ => .error .corrupt
  | fuel + 1, done, input => do
    if done.length = total then return (done.reverse, input)
    if total < done.length then throw .corrupt
    let (s, input) ← code.decode input
    if s < 16 then readLengths code total fuel (s :: done) input
    else if s = 16 then
      let (n, input) ← readField 2 input
      match done with
      | [] => throw .corrupt
      | last :: _ => readLengths code total fuel (List.replicate (3 + n) last ++ done) input
    else if s = 17 then
      let (n, input) ← readField 3 input
      readLengths code total fuel (List.replicate (3 + n) 0 ++ done) input
    else
      let (n, input) ← readField 7 input
      readLengths code total fuel (List.replicate (11 + n) 0 ++ done) input

/-- The tree of a described code, or `corrupt` if `Tree.ofDescription?` has none for it. -/
def treeOf (mayBeSparse : Bool) (lengths : List Nat) : Except Stop Tree :=
  match Tree.ofDescription? mayBeSparse lengths with
  | some t => .ok t
  | none => .error .corrupt

/-- The tree of the code for word lengths. Where it is described without any word, every single
bit is read as the length zero. -/
def lengthTree (lengths : List Nat) : Except Stop Tree :=
  if lengths.all (· == 0) then .ok (.node (.leaf 0) (.leaf 0)) else treeOf false lengths

/-- The two codes that a block describes. -/
def readCodes (input : Input) : Except Stop ((Tree × Tree) × Input) := do
  let (literals, input) ← readField 5 input
  let (distances, input) ← readField 5 input
  let (count, input) ← readField 4 input
  if 29 < literals ∨ 29 < distances then throw .corrupt
  let (own, input) ← readFields 3 (count + 4) input
  let ownLengths := (List.range 19).map fun s =>
    ((lengthOrder.zip own).lookup s).getD 0
  let code ← lengthTree ownLengths
  let total := literals + distances + 258
  let (lengths, input) ← readLengths code total (total + 1) [] input
  let (first, second) := lengths.splitAt (literals + 257)
  if first.getD endSymbol 0 = 0 then throw .corrupt
  return ((← treeOf true first, ← treeOf true second), input)

/-! ## Streams -/

/-- The tree of the fixed code for literals and lengths. -/
def fixedTree : Tree :=
  Tree.ofLengths fixedLengths

/-- The tree of the fixed code for distances. -/
def fixedDistanceTree : Tree :=
  Tree.ofLengths fixedDistanceLengths

/-- The output after a stored block, whose bytes begin at the next whole byte. -/
def readStored (out : Array UInt8) (input : Input) : Except Stop (Array UInt8 × Input) := do
  let (length, input) ← readField 16 input.align
  let (check, input) ← readField 16 input
  if length + check ≠ 65535 then throw .corrupt
  match input.takeBytes length with
  | none => throw .truncated
  | some (content, rest) => return (out ++ content, rest)

/-- The output after one block, which has at most `fuel` tokens, and whether the block is the
last. -/
def readBlock (fuel : Nat) (out : Array UInt8) (input : Input) :
    Except Stop (Bool × Array UInt8 × Input) := do
  let (final, input) ← readField 1 input
  let (kind, input) ← readField 2 input
  let (out, input) ← match kind with
    | 0 => readStored out input
    | 1 => readTokens fixedTree fixedDistanceTree fuel out input
    | 2 => do
      let ((literals, distances), input) ← readCodes input
      readTokens literals distances fuel out input
    | _ => throw .corrupt
  return (final == 1, out, input)

/-- The output after the blocks of a stream. There are at most `fuel` of them, and of the tokens of
each: a block and a token take at least a bit, so one unit for every bit left is enough. -/
def readBlocks : (fuel : Nat) → Array UInt8 → Input → Except Stop (Array UInt8 × Input)
  | 0, _, _ => .error .truncated
  | fuel + 1, out, input =>
    match readBlock fuel out input with
    | .error s => .error s
    | .ok (true, out, rest) => .ok (out, rest)
    | .ok (false, out, rest) => readBlocks fuel out rest

/-- The content of a raw DEFLATE stream, and the bytes behind the stream, by `readBlocks`. -/
def inflate (stream : Bytes) : Except Stop (Bytes × Bytes) :=
  match readBlocks (8 * stream.length + 1) #[] (.ofBytes stream) with
  | .error s => .error s
  | .ok (out, rest) => .ok (out.toList, rest.bytes)

end OpenDocument.Deflate
