import OpenDocument.Bytes

/-!
# OpenDocument.Hash.Block

Hash functions that fold a compression function over blocks of 64 bytes, as the SHA family does.
A message is taken in byte by byte, so what was taken in so far is a value that can be kept and
continued more than once; a keyed hash starts from such a value.
-/

namespace OpenDocument.Hash

/-- A hash function over 64-byte blocks with chaining value `σ`. -/
structure BlockHash (σ : Type) where
  initial : σ
  /-- The chaining value after one more block. -/
  compress : σ → Array UInt8 → σ
  output : σ → Bytes

/-- The state in the middle of a message: the chaining value of its complete blocks, and the
bytes behind them. -/
structure Absorbed (σ : Type) where
  chain : σ
  pending : Array UInt8

variable {σ : Type}

/-- The state in front of a message. -/
def BlockHash.start (h : BlockHash σ) : Absorbed σ :=
  ⟨h.initial, #[]⟩

/-- Take in one byte. -/
@[inline] def BlockHash.push (h : BlockHash σ) (a : Absorbed σ) (b : UInt8) : Absorbed σ :=
  let block := a.pending.push b
  if block.size < 64 then ⟨a.chain, block⟩ else ⟨h.compress a.chain block, #[]⟩

/-- Take in a byte string, byte by byte with `push`. -/
@[inline] def BlockHash.absorb (h : BlockHash σ) (a : Absorbed σ) (bs : Bytes) : Absorbed σ :=
  bs.foldl h.push a

/-- What follows a message of `n` bytes: a byte `0x80`, zeros up to eight bytes below the end of
a block, and the length in bits. -/
def padding (n : Nat) : Bytes :=
  0x80 :: (List.replicate ((119 - n % 64) % 64) 0 ++ Bytes.bigEndian 8 (8 * n))

/-- The digest of a message of `n` bytes that has been taken in: the `padding` comes behind it. -/
@[inline] def BlockHash.finish (h : BlockHash σ) (a : Absorbed σ) (n : Nat) : Bytes :=
  h.output (h.absorb a (padding n)).chain

/-- The digest of a message, which `absorb` takes in from `start` on. -/
@[inline] def BlockHash.digest (h : BlockHash σ) (message : Bytes) : Bytes :=
  h.finish (h.absorb h.start message) message.length

/-- By `absorb`, taking in two pieces one after the other is taking in both together. -/
theorem BlockHash.absorb_append (h : BlockHash σ) (a : Absorbed σ) (bs cs : Bytes) :
    h.absorb a (bs ++ cs) = h.absorb (h.absorb a bs) cs :=
  List.foldl_append

/-- A message with its `padding` fills whole blocks. -/
theorem length_padding (n : Nat) : (n + (padding n).length) % 64 = 0 := by
  simp only [padding, List.length_cons, List.length_append, List.length_replicate,
    Bytes.length_bigEndian]
  omega

/-- The big-endian word that the block holds at a byte offset. -/
@[inline] def wordAt (block : Array UInt8) (offset : Nat) : UInt32 :=
  ((block.getD offset 0).toUInt32 <<< 24) ||| ((block.getD (offset + 1) 0).toUInt32 <<< 16)
    ||| ((block.getD (offset + 2) 0).toUInt32 <<< 8) ||| (block.getD (offset + 3) 0).toUInt32

/-- The sixteen words of a block. -/
def blockWords (block : Array UInt8) : Array UInt32 :=
  (Array.range 16).map fun i => wordAt block (4 * i)

/-- The four bytes of a word, most significant first. -/
def wordBytes (w : UInt32) : Bytes :=
  [(w >>> 24).toUInt8, (w >>> 16).toUInt8, (w >>> 8).toUInt8, w.toUInt8]

/-- A word turned left by `n` bits, for `0 < n < 32`. -/
@[inline] def rotateLeft (w n : UInt32) : UInt32 :=
  (w <<< n) ||| (w >>> (32 - n))

/-- A word turned right by `n` bits, for `0 < n < 32`. -/
@[inline] def rotateRight (w n : UInt32) : UInt32 :=
  (w >>> n) ||| (w <<< (32 - n))

end OpenDocument.Hash
