import OpenDocument.Deflate.Search

/-!
# OpenDocument.Deflate.Compress

Raw DEFLATE streams for byte strings: one block in the fixed code, or stored blocks where these
are shorter. How much of a stream is handed on early is described beside it.
-/

namespace OpenDocument.Deflate

/-- The bits of a final block in the fixed code. -/
def fixedBlock (ts : List Token) : Bits :=
  [true, true, false]
    ++ ts.foldr (fun t rest => t.fixedBits ++ rest) (fixedWords.getD endSymbol [])

/-- The largest number of bytes in a stored block. -/
def maxStored : Nat := 65535

/-- One stored block that begins and ends with a whole byte. -/
def storedBlock (final : Bool) (data : Bytes) : Bytes :=
  (if final then 1 else 0) :: Bytes.littleEndian 2 data.length
    ++ Bytes.littleEndian 2 (maxStored - data.length) ++ data

/-- Stored blocks for a byte string, all of `maxStored` bytes but the last. -/
def storedBlocks (data : Bytes) : Bytes :=
  if data.length ≤ maxStored then storedBlock true data
  else storedBlock false (data.take maxStored) ++ storedBlocks (data.drop maxStored)
termination_by data.length
decreasing_by simp only [List.length_drop, maxStored] at *; omega

/-- A raw DEFLATE stream for a byte string: a `fixedBlock`, or `storedBlocks` where these are
shorter. -/
def compress (data : Bytes) : Bytes :=
  let fixed := Bits.toBytes (fixedBlock (tokens data))
  let stored := storedBlocks data
  if stored.length < fixed.length then stored else fixed

/-! ## Handing on while data is taken

A compressor hands its output on by full buffers. It keeps a window of the data ahead of the
position that it has reached, so the last buffers are full only after all data was taken.
-/

/-- Number of bytes in a buffer. -/
def bufferSize : Nat := 32768

/-- How much data is taken before the compressor gets beyond a position: whole half windows, so
many that a longest copy with the bytes behind it is in view, and at least two. -/
def taken (position : Nat) : Nat :=
  max (2 * maxDistance) ((position + maxCopy + 4 + (maxDistance - 1)) / maxDistance * maxDistance)

/-- How much of a stream is handed on before all data was taken: the buffers of `bufferSize` bytes
that are full at positions, in proportion to their bytes, for which not all data is needed. -/
def handedOn (size streamSize : Nat) : Nat :=
  let early := (List.range (streamSize / bufferSize)).takeWhile fun i =>
    taken ((bufferSize * (i + 1) * size + (streamSize - 1)) / streamSize) < size
  bufferSize * early.length

end OpenDocument.Deflate
