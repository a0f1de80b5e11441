import OpenDocument.Hash.Block

/-!
# OpenDocument.Hash.Sha256

SHA-256: eight words of chaining value and sixty-four rounds over a schedule of sixty-four
words.
-/

namespace OpenDocument.Hash.Sha256

/-- The eight words of the chaining value. -/
structure State where
  a : UInt32
  b : UInt32
  c : UInt32
  d : UInt32
  e : UInt32
  f : UInt32
  g : UInt32
  h : UInt32
  deriving DecidableEq, Repr

/-- The chaining value in front of the first block. -/
def initial : State :=
  ⟨0x6A09E667, 0xBB67AE85, 0x3C6EF372, 0xA54FF53A, 0x510E527F, 0x9B05688C, 0x1F83D9AB,
   0x5BE0CD19⟩

/-- The constants of the rounds. -/
def constants : Array UInt32 :=
  #[0x428A2F98, 0x71374491, 0xB5C0FBCF, 0xE9B5DBA5, 0x3956C25B, 0x59F111F1, 0x923F82A4, 0xAB1C5ED5,
    0xD807AA98, 0x12835B01, 0x243185BE, 0x550C7DC3, 0x72BE5D74, 0x80DEB1FE, 0x9BDC06A7, 0xC19BF174,
    0xE49B69C1, 0xEFBE4786, 0x0FC19DC6, 0x240CA1CC, 0x2DE92C6F, 0x4A7484AA, 0x5CB0A9DC, 0x76F988DA,
    0x983E5152, 0xA831C66D, 0xB00327C8, 0xBF597FC7, 0xC6E00BF3, 0xD5A79147, 0x06CA6351, 0x14292967,
    0x27B70A85, 0x2E1B2138, 0x4D2C6DFC, 0x53380D13, 0x650A7354, 0x766A0ABB, 0x81C2C92E, 0x92722C85,
    0xA2BFE8A1, 0xA81A664B, 0xC24B8B70, 0xC76C51A3, 0xD192E819, 0xD6990624, 0xF40E3585, 0x106AA070,
    0x19A4C116, 0x1E376C08, 0x2748774C, 0x34B0BCB5, 0x391C0CB3, 0x4ED8AA4A, 0x5B9CCA4F, 0x682E6FF3,
    0x748F82EE, 0x78A5636F, 0x84C87814, 0x8CC70208, 0x90BEFFFA, 0xA4506CEB, 0xBEF9A3F7, 0xC67178F2]

/-- The schedule with `n` more words, each from four earlier ones. -/
def extend : Nat → Array UInt32 → Array UInt32
  | 0, w => w
  | n + 1, w =>
    let t := w.size
    let x := w.getD (t - 15) 0
    let y := w.getD (t - 2) 0
    let s₀ := rotateRight x 7 ^^^ rotateRight x 18 ^^^ (x >>> 3)
    let s₁ := rotateRight y 17 ^^^ rotateRight y 19 ^^^ (y >>> 10)
    extend n (w.push (s₁ + w.getD (t - 7) 0 + s₀ + w.getD (t - 16) 0))

/-- The schedule of a block: its sixteen words, and forty-eight more by `extend`. -/
def schedule (block : Array UInt8) : Array UInt32 :=
  extend 48 (blockWords block)

/-- The last `n` of the sixty-four rounds. -/
def rounds (w : Array UInt32) : Nat → UInt32 → UInt32 → UInt32 → UInt32 → UInt32 → UInt32 →
    UInt32 → UInt32 → State
  | 0, a, b, c, d, e, f, g, h => ⟨a, b, c, d, e, f, g, h⟩
  | n + 1, a, b, c, d, e, f, g, h =>
    let t := 63 - n
    let s₁ := rotateRight e 6 ^^^ rotateRight e 11 ^^^ rotateRight e 25
    let choice := (e &&& f) ^^^ ((~~~e) &&& g)
    let x := h + s₁ + choice + constants.getD t 0 + w.getD t 0
    let s₀ := rotateRight a 2 ^^^ rotateRight a 13 ^^^ rotateRight a 22
    let majority := (a &&& b) ^^^ (a &&& c) ^^^ (b &&& c)
    rounds w n (x + s₀ + majority) a b c (d + x) e f g

/-- The chaining value after a block, whose `schedule` all sixty-four `rounds` go through. -/
def compress (s : State) (block : Array UInt8) : State :=
  let r := rounds (schedule block) 64 s.a s.b s.c s.d s.e s.f s.g s.h
  ⟨s.a + r.a, s.b + r.b, s.c + r.c, s.d + r.d, s.e + r.e, s.f + r.f, s.g + r.g, s.h + r.h⟩

/-- The thirty-two bytes of a chaining value. -/
def output (s : State) : Bytes :=
  wordBytes s.a ++ wordBytes s.b ++ wordBytes s.c ++ wordBytes s.d ++ wordBytes s.e
    ++ wordBytes s.f ++ wordBytes s.g ++ wordBytes s.h

theorem length_output (s : State) : (output s).length = 32 := by
  simp [output, wordBytes]

end OpenDocument.Hash.Sha256

namespace OpenDocument.Hash

/-- SHA-256 as a hash over blocks. -/
def sha256Blocks : BlockHash Sha256.State where
  initial := Sha256.initial
  compress := Sha256.compress
  output := Sha256.output

/-- The SHA-256 digest of a message. -/
def sha256 (message : Bytes) : Bytes :=
  sha256Blocks.digest message

@[simp] theorem length_sha256 (message : Bytes) : (sha256 message).length = 32 :=
  Sha256.length_output _

end OpenDocument.Hash
