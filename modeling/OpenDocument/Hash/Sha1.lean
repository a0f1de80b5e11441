import OpenDocument.Hash.Block

/-!
# OpenDocument.Hash.Sha1

SHA-1: five words of chaining value and eighty rounds over a schedule of eighty words.
-/

namespace OpenDocument.Hash.Sha1

/-- The five words of the chaining value. -/
structure State where
  a : UInt32
  b : UInt32
  c : UInt32
  d : UInt32
  e : UInt32
  deriving DecidableEq, Repr

/-- The chaining value in front of the first block. -/
def initial : State :=
  ⟨0x67452301, 0xEFCDAB89, 0x98BADCFE, 0x10325476, 0xC3D2E1F0⟩

/-- The schedule with `n` more words: each is the exclusive or of four earlier ones, turned left
by one bit. -/
def extend : Nat → Array UInt32 → Array UInt32
  | 0, w => w
  | n + 1, w =>
    let t := w.size
    extend n (w.push (rotateLeft
      (w.getD (t - 3) 0 ^^^ w.getD (t - 8) 0 ^^^ w.getD (t - 14) 0 ^^^ w.getD (t - 16) 0) 1))

/-- The schedule of a block: its sixteen words, and sixty-four more by `extend`. -/
def schedule (block : Array UInt8) : Array UInt32 :=
  extend 64 (blockWords block)

/-- The function and constant of round `t` on the words `b`, `c` and `d`. -/
@[inline] def roundTerm (t : Nat) (b c d : UInt32) : UInt32 :=
  if t < 20 then ((b &&& c) ||| ((~~~b) &&& d)) + 0x5A827999
  else if t < 40 then (b ^^^ c ^^^ d) + 0x6ED9EBA1
  else if t < 60 then ((b &&& c) ||| (b &&& d) ||| (c &&& d)) + 0x8F1BBCDC
  else (b ^^^ c ^^^ d) + 0xCA62C1D6

/-- The last `n` of the eighty rounds. -/
def rounds (w : Array UInt32) : Nat → UInt32 → UInt32 → UInt32 → UInt32 → UInt32 → State
  | 0, a, b, c, d, e => ⟨a, b, c, d, e⟩
  | n + 1, a, b, c, d, e =>
    let t := 79 - n
    rounds w n (rotateLeft a 5 + roundTerm t b c d + e + w.getD t 0) a (rotateLeft b 30) c d

/-- The chaining value after a block, whose `schedule` all eighty `rounds` go through. -/
def compress (s : State) (block : Array UInt8) : State :=
  let r := rounds (schedule block) 80 s.a s.b s.c s.d s.e
  ⟨s.a + r.a, s.b + r.b, s.c + r.c, s.d + r.d, s.e + r.e⟩

/-- The twenty bytes of a chaining value. -/
def output (s : State) : Bytes :=
  wordBytes s.a ++ wordBytes s.b ++ wordBytes s.c ++ wordBytes s.d ++ wordBytes s.e

theorem length_output (s : State) : (output s).length = 20 := by
  simp [output, wordBytes]

end OpenDocument.Hash.Sha1

namespace OpenDocument.Hash

/-- SHA-1 as a hash over blocks. -/
def sha1Blocks : BlockHash Sha1.State where
  initial := Sha1.initial
  compress := Sha1.compress
  output := Sha1.output

/-- The SHA-1 digest of a message. -/
def sha1 (message : Bytes) : Bytes :=
  sha1Blocks.digest message

@[simp] theorem length_sha1 (message : Bytes) : (sha1 message).length = 20 :=
  Sha1.length_output _

end OpenDocument.Hash
