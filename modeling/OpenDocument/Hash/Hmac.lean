import OpenDocument.Hash.Sha1

/-!
# OpenDocument.Hash.Hmac

HMAC with SHA-1. A key is prepared once: the two hash computations of every code begin with a
block that depends on the key alone, and the states behind these blocks are kept. Main statement:
`Key.code_ofBytes`, the code is the nested hash of the definition.
-/

namespace OpenDocument.Hash.Hmac

/-- A key as one block: a long key is hashed first, then zeros fill up 64 bytes. -/
def keyBlock (key : Bytes) : Bytes :=
  let short := if key.length ≤ 64 then key else sha1 key
  short ++ List.replicate (64 - short.length) 0

theorem length_keyBlock (key : Bytes) : (keyBlock key).length = 64 := by
  simp only [keyBlock, List.length_append, List.length_replicate]
  split
  · omega
  · rw [length_sha1]

/-- A prepared key: the states behind the inner and the outer key block. -/
structure Key where
  inner : Absorbed Sha1.State
  outer : Absorbed Sha1.State

/-- The key block with every byte combined with `mask`. -/
def masked (mask : UInt8) (key : Bytes) : Bytes :=
  (keyBlock key).map (· ^^^ mask)

theorem length_masked (mask : UInt8) (key : Bytes) : (masked mask key).length = 64 := by
  rw [masked, List.length_map, length_keyBlock]

/-- Prepare a key: take in its `keyBlock`, masked for the inner and for the outer hash. -/
def Key.ofBytes (key : Bytes) : Key where
  inner := sha1Blocks.absorb sha1Blocks.start (masked 0x36 key)
  outer := sha1Blocks.absorb sha1Blocks.start (masked 0x5C key)

/-- The authentication code of a message under a prepared key. -/
def Key.code (k : Key) (message : Bytes) : Bytes :=
  let inside := sha1Blocks.finish (sha1Blocks.absorb k.inner message) (64 + message.length)
  sha1Blocks.finish (sha1Blocks.absorb k.outer inside) 84

theorem Key.length_code (k : Key) (message : Bytes) : (k.code message).length = 20 :=
  Sha1.length_output _

/-- The authentication code of a message under a key: the hash of the outer key block and the hash
of the inner key block and the message. -/
def hmac (key message : Bytes) : Bytes :=
  sha1 (masked 0x5C key ++ sha1 (masked 0x36 key ++ message))

/-- A prepared key gives the same codes as the key itself. -/
theorem Key.code_ofBytes (key message : Bytes) :
    (Key.ofBytes key).code message = hmac key message := by
  have inside : sha1Blocks.finish (sha1Blocks.absorb (Key.ofBytes key).inner message)
      (64 + message.length) = sha1 (masked 0x36 key ++ message) := by
    rw [sha1, BlockHash.digest, BlockHash.absorb_append, List.length_append, length_masked]
    rfl
  rw [Key.code, inside, hmac]
  conv => rhs; rw [sha1, BlockHash.digest, BlockHash.absorb_append, List.length_append,
    length_masked, length_sha1]
  rfl

end OpenDocument.Hash.Hmac
