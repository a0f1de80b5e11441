import OpenDocument.Cipher.Aes

/-!
# OpenDocument.Cipher.Chaining

Cipher block chaining, and the padding that fills the last block. Each block is combined with
the ciphertext of the one before it, the first with the initialisation vector. Padding is always
added: one to sixteen bytes, arbitrary but for the last, which holds their number.
-/

namespace OpenDocument.Cipher

/-- The size of a block, and of an initialisation vector, in bytes. -/
def blockSize : Nat := 16

/-! ## Chaining -/

/-- Encrypt blocks, the first of them chained to `previous`. -/
def RoundKeys.encryptChain (k : RoundKeys) (previous : State) : List State → List State
  | [] => []
  | b :: bs =>
    let c := k.encrypt (b.add previous)
    c :: k.encryptChain c bs

/-- Decrypt blocks, the first of them chained to `previous`. -/
def RoundKeys.decryptChain (k : RoundKeys) (previous : State) : List State → List State
  | [] => []
  | c :: cs => (k.decrypt c).add previous :: k.decryptChain c cs

/-- The first block of a byte string. -/
def firstBlock (bs : Bytes) : State :=
  (State.blocks bs).headD default

/-- Encrypt the complete blocks of a byte string with `encryptChain`, the first of them chained to
`iv`. -/
def encryptBytes (k : RoundKeys) (iv plain : Bytes) : Bytes :=
  (k.encryptChain (firstBlock iv) (State.blocks plain)).flatMap State.toBytes

/-- Decrypt the complete blocks of a byte string with `decryptChain`. -/
def decryptBytes (k : RoundKeys) (iv cipher : Bytes) : Bytes :=
  (k.decryptChain (firstBlock iv) (State.blocks cipher)).flatMap State.toBytes

/-! ## Padding -/

/-- The number of padding bytes behind a text of `n` bytes. -/
def padLength (n : Nat) : Nat :=
  blockSize - n % blockSize

/-- A text with its padding, of which `filler` is all but the last byte. -/
def pad (plain filler : Bytes) : Bytes :=
  plain ++ filler ++ [UInt8.ofNat (filler.length + 1)]

/-- A padded text without its padding: as many bytes less as its last byte says. It undoes `pad`. -/
def unpad (padded : Bytes) : Bytes :=
  padded.take (padded.length - (padded.getLastD 0).toNat)

theorem padLength_pos (n : Nat) : 0 < padLength n := by
  simp only [padLength, blockSize]; omega

theorem padLength_le (n : Nat) : padLength n ≤ 16 := by
  simp only [padLength, blockSize]; omega

/-- A padded text fills whole blocks, and one more than the text does. -/
theorem length_pad {plain filler : Bytes} (h : filler.length = padLength plain.length - 1) :
    (pad plain filler).length = 16 * (plain.length / 16 + 1) := by
  simp only [pad, List.length_append, List.length_singleton, h, padLength, blockSize]
  omega

/-- Removing the padding gives the text back. -/
theorem unpad_pad {plain filler : Bytes} (h : filler.length < 255) :
    unpad (pad plain filler) = plain := by
  have hlast : ((pad plain filler).getLastD 0).toNat = filler.length + 1 := by
    simp only [pad, List.getLastD_eq_getLast?, List.getLast?_append, List.getLast?_singleton,
      Option.some_or, Option.getD_some, UInt8.toNat_ofNat']
    omega
  have hlen : (pad plain filler).length = plain.length + filler.length + 1 := by
    simp [pad, Nat.add_assoc]
  rw [unpad, hlast, hlen, show plain.length + filler.length + 1 - (filler.length + 1)
    = plain.length by omega, pad, List.append_assoc, List.take_left]

end OpenDocument.Cipher
