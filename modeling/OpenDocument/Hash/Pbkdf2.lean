import OpenDocument.Hash.Hmac

/-!
# OpenDocument.Hash.Pbkdf2

Keys derived from a password with HMAC-SHA1. The key is the beginning of a sequence of blocks of
twenty bytes; a block is the exclusive or of a chain of authentication codes, each the code of the
one before, and the first the code of the salt and the number of the block.
-/

namespace OpenDocument.Hash

/-- `sum` combined with the `n` codes that follow `code` in its chain. -/
def chainSum (k : Hmac.Key) : Nat → (code sum : Bytes) → Bytes
  | 0, _, sum => sum
  | n + 1, code, sum =>
    let next := k.code code
    chainSum k n next (Bytes.xor sum next)

/-- Block `i` of a derived key, counted from one: `count` codes combined. -/
def keyBlock (k : Hmac.Key) (salt : Bytes) (count i : Nat) : Bytes :=
  let first := k.code (salt ++ Bytes.bigEndian 4 i)
  chainSum k (count - 1) first first

theorem length_chainSum (k : Hmac.Key) (n : Nat) {code sum : Bytes} (h : sum.length = 20) :
    (chainSum k n code sum).length = 20 := by
  induction n generalizing code sum with
  | zero => exact h
  | succ n ih =>
      have hx : (Bytes.xor sum (k.code code)).length = 20 := by
        rw [Bytes.length_xor, h, Hmac.Key.length_code, Nat.min_self]
      exact ih hx

theorem length_keyBlock (k : Hmac.Key) (salt : Bytes) (count i : Nat) :
    (keyBlock k salt count i).length = 20 :=
  length_chainSum k _ (Hmac.Key.length_code k _)

/-- The first `length` bytes of the key sequence of a password, block by block with `keyBlock`. -/
def pbkdf2 (password salt : Bytes) (count length : Nat) : Bytes :=
  let k := Hmac.Key.ofBytes password
  ((List.range ((length + 19) / 20)).flatMap fun i => keyBlock k salt count (i + 1)).take length

/-- A derived key is as long as it was asked for. -/
theorem length_pbkdf2 (password salt : Bytes) (count length : Nat) :
    (pbkdf2 password salt count length).length = length := by
  have blocks : ∀ n, ((List.range n).flatMap fun i =>
      keyBlock (Hmac.Key.ofBytes password) salt count (i + 1)).length = n * 20 := by
    intro n
    simp only [List.length_flatMap, length_keyBlock, List.map_const', List.length_range,
      List.sum_replicate_nat]
  rw [pbkdf2, List.length_take, blocks]
  omega

end OpenDocument.Hash
