import Mathlib.Algebra.Group.Nat.Defs
import Mathlib.Data.List.Basic
import OpenDocument.Protection.Key

/-!
# OpenDocument.Proofs.Hash.Derivation

A derived key is the one that the definition of PBKDF2 gives, down to the compression function of
SHA-1.  A digest is the compression function over the blocks of the padded message
(`BlockHash.digest_eq_output`), an authentication code is the nested hash `Hmac.hmac`, and a key is
the beginning of the sequence of combined codes (`Derived`).  Neither the prepared states of a key
nor the running sum of a chain is visible there.

Main statement: `deriveKey_standard`.
-/

namespace OpenDocument.Hash

variable {σ : Type}

/-! ## Digests block by block -/

/-- Block `i` of a padded message. -/
def blockAt (padded : Bytes) (i : Nat) : Array UInt8 :=
  ((padded.drop (64 * i)).take 64).toArray

/-- What a message is filled up to: a byte `0x80`, as few zeros as make whole blocks, and the
length of the message in bits as a number of eight bytes. -/
def IsPadded (message padded : Bytes) : Prop :=
  ∃ zeros < 64, padded = message ++ 0x80 :: (List.replicate zeros 0
      ++ Bytes.bigEndian 8 (8 * message.length))
    ∧ 64 ∣ padded.length

/-- The compression function `compress` over the first `n` blocks of a padded message. -/
def BlockHash.chainOver (h : BlockHash σ) (padded : Bytes) (n : Nat) : σ :=
  (List.range n).foldl (fun chain i => h.compress chain (blockAt padded i)) h.initial

theorem isPadded_padding (message : Bytes) :
    IsPadded message (message ++ padding message.length) := by
  refine ⟨_, Nat.mod_lt (119 - message.length % 64) (by decide), rfl, ?_⟩
  rw [List.length_append]
  exact Nat.dvd_of_mod_eq_zero (length_padding message.length)

/-- Bytes that do not fill the block are kept by `absorb`. -/
theorem BlockHash.absorb_pending (h : BlockHash σ) (a : Absorbed σ) {bs : Bytes}
    (hbs : a.pending.size + bs.length < 64) : h.absorb a bs = ⟨a.chain, a.pending ++ bs⟩ := by
  induction bs generalizing a with
  | nil => simp [absorb]
  | cons b bs ih =>
      rw [List.length_cons] at hbs
      have hpush : h.push a b = ⟨a.chain, a.pending.push b⟩ := by
        rw [push, if_pos (by rw [Array.size_push]; omega)]
      have hrest := ih (h.push a b) (by rw [hpush, Array.size_push]; omega)
      rw [absorb, List.foldl_cons, ← absorb, hrest, hpush]
      simp

/-- A block that `absorb` takes in at its beginning is compressed. -/
theorem BlockHash.absorb_block (h : BlockHash σ) (chain : σ) {bs : Bytes} (hbs : bs.length = 64) :
    h.absorb ⟨chain, #[]⟩ bs = ⟨h.compress chain bs.toArray, #[]⟩ := by
  have hne : bs ≠ [] := by
    rintro rfl
    cases hbs
  have hinit : bs.dropLast.length = 63 := by rw [List.length_dropLast, hbs]
  have hsplit : bs.dropLast ++ [bs.getLast hne] = bs := List.dropLast_append_getLast hne
  have hpending : h.absorb ⟨chain, #[]⟩ bs.dropLast = ⟨chain, #[] ++ bs.dropLast⟩ :=
    h.absorb_pending ⟨chain, #[]⟩ (by simp [hinit])
  have hblock : ((#[] : Array UInt8) ++ bs.dropLast).push (bs.getLast hne) = bs.toArray := by
    rw [← Array.toList_inj]
    simpa using hsplit
  rw [← hsplit, absorb_append, hpending, absorb, List.foldl_cons, List.foldl_nil, push, hblock,
    if_neg (by simp [hbs]), hsplit]

theorem BlockHash.absorb_blocks (h : BlockHash σ) (padded : Bytes) {n : Nat}
    (hn : 64 * n ≤ padded.length) :
    h.absorb h.start (padded.take (64 * n)) = ⟨h.chainOver padded n, #[]⟩ := by
  induction n with
  | zero => rfl
  | succ n ih =>
      have hblock : ((padded.drop (64 * n)).take 64).length = 64 := by
        rw [List.length_take, List.length_drop]
        omega
      rw [Nat.mul_succ, List.take_add, absorb_append, ih (by omega), absorb_block h _ hblock,
        chainOver, chainOver, List.range_succ, List.foldl_append]
      rfl

/-- **A digest is the compression function over the blocks of the padded message.** -/
theorem BlockHash.digest_eq_output (h : BlockHash σ) (message : Bytes) :
    ∃ padded, IsPadded message padded
      ∧ h.digest message = h.output (h.chainOver padded (padded.length / 64)) := by
  refine ⟨_, isPadded_padding message, ?_⟩
  have hwhole : 64 * ((message ++ padding message.length).length / 64)
      = (message ++ padding message.length).length :=
    Nat.mul_div_cancel' (isPadded_padding message).choose_spec.2.2
  have hblocks := h.absorb_blocks (message ++ padding message.length) (Nat.le_of_eq hwhole)
  rw [hwhole, List.take_length] at hblocks
  rw [digest, finish, ← absorb_append, hblocks]

/-! ## Keys -/

/-- Link `j` of the chain of a block, counted from zero: the `hmac` of the salt and the number of
the block, and from there on that of the link before. -/
def link (password salt : Bytes) (i : Nat) : Nat → Bytes
  | 0 => Hmac.hmac password (salt ++ Bytes.bigEndian 4 i)
  | j + 1 => Hmac.hmac password (link password salt i j)

/-- Block `i` of the key sequence: the exclusive or of the first `count` links of its chain
(`link`). -/
def combined (password salt : Bytes) (count i : Nat) : Bytes :=
  ((List.range count).map (link password salt i)).foldl Bytes.xor (List.replicate 20 0)

/-- The first `n` blocks of the key sequence, each of them `combined`. -/
def sequence (password salt : Bytes) (count n : Nat) : Bytes :=
  (List.range n).flatMap fun i => combined password salt count (i + 1)

/-- A key of so many bytes from the beginning of the key `sequence`.  The number of every block that
is in it stands for itself in its four bytes. -/
structure Derived (password salt : Bytes) (count length : Nat) (key : Bytes) : Prop where
  length_eq : key.length = length
  begins : ∀ n, length ≤ 20 * n → key <+: sequence password salt count n
  numbered : ∀ i, 20 * i < length → Bytes.ofLittleEndian (Bytes.bigEndian 4 (i + 1)).reverse = i + 1

theorem length_link (password salt : Bytes) (i j : Nat) : (link password salt i j).length = 20 := by
  cases j <;> rw [link, Hmac.hmac, length_sha1]

theorem xor_zeros {bs : Bytes} (h : bs.length = n) : Bytes.xor (List.replicate n 0) bs = bs := by
  induction bs generalizing n with
  | nil => simp [Bytes.xor]
  | cons b bs ih =>
      subst h
      rw [List.length_cons, List.replicate_succ, Bytes.xor, List.zipWith_cons_cons, UInt8.zero_xor,
        ← Bytes.xor, ih rfl]

/-- The running sum `chainSum` of a chain is the exclusive or of its links. -/
theorem chainSum_eq_foldl (password salt : Bytes) (i n j : Nat) (sum : Bytes) :
    chainSum (Hmac.Key.ofBytes password) n (link password salt i j) sum
      = ((List.range' (j + 1) n).map (link password salt i)).foldl Bytes.xor sum := by
  induction n generalizing j sum with
  | zero => rfl
  | succ n ih =>
      rw [chainSum, List.range'_succ, List.map_cons, List.foldl_cons, ← ih (j + 1),
        Hmac.Key.code_ofBytes]
      rfl

/-- What `keyBlock` gives is a block of the key sequence. -/
theorem keyBlock_eq_combined (password salt : Bytes) {count : Nat} (hcount : count ≠ 0) (i : Nat) :
    keyBlock (Hmac.Key.ofBytes password) salt count i = combined password salt count i := by
  obtain ⟨n, rfl⟩ := Nat.exists_eq_succ_of_ne_zero hcount
  have hfirst : (Hmac.Key.ofBytes password).code (salt ++ Bytes.bigEndian 4 i)
      = link password salt i 0 := Hmac.Key.code_ofBytes _ _
  rw [keyBlock, hfirst, Nat.succ_sub_one, chainSum_eq_foldl, combined, List.range_eq_range',
    List.range'_succ, List.map_cons, List.foldl_cons, xor_zeros (length_link ..)]

theorem pbkdf2_eq_take (password salt : Bytes) {count : Nat} (hcount : count ≠ 0) (length : Nat) :
    pbkdf2 password salt count length
      = (sequence password salt count ((length + 19) / 20)).take length := by
  simp only [pbkdf2, keyBlock_eq_combined password salt hcount, sequence]

/-- More blocks go on where fewer end. -/
theorem sequence_add (password salt : Bytes) (count m n : Nat) :
    sequence password salt count m <+: sequence password salt count (m + n) := by
  rw [sequence, sequence, List.range_add, List.flatMap_append]
  exact List.prefix_append _ _

/-- **A derived key is the beginning of the key sequence**: what `pbkdf2` gives is `Derived`. -/
theorem derived_pbkdf2 (password salt : Bytes) {count length : Nat} (hcount : count ≠ 0)
    (hlength : length ≤ 20 * (2 ^ 32 - 1)) :
    Derived password salt count length (pbkdf2 password salt count length) where
  length_eq := length_pbkdf2 password salt count length
  begins n hn := by
    rw [pbkdf2_eq_take password salt hcount]
    have hblocks := sequence_add password salt count ((length + 19) / 20) (n - (length + 19) / 20)
    rw [Nat.add_sub_cancel' (by omega)] at hblocks
    exact (List.take_prefix _ _).trans hblocks
  numbered i hi := by
    rw [Bytes.bigEndian, List.reverse_reverse]
    exact Bytes.ofLittleEndian_littleEndian 4 (i + 1) (by
      rw [show Nat.pow 256 4 = 2 ^ 32 from rfl]
      omega)

end OpenDocument.Hash

namespace OpenDocument

open Hash (Derived IsPadded sha1 sha1Blocks)

section

variable (digest : PasswordDigest) (salt : Bytes) (iterations : UInt32) (length : Nat)

/-- What no key can be derived with: no iteration, no byte asked for, or no salt. -/
def Underivable : Prop :=
  iterations = 0 ∨ length = 0 ∨ salt = []

variable {salt iterations length}

/-- `deriveKey` refuses to derive a key with such values. -/
theorem deriveKey_of_underivable (h : Underivable salt iterations length) :
    ∃ fault, deriveKey digest salt iterations length = .error (.configuration fault) := by
  unfold deriveKey
  by_cases hiterations : iterations = 0
  · exact ⟨_, if_pos hiterations⟩
  rw [if_neg hiterations]
  by_cases hlength : length = 0
  · exact ⟨_, if_pos hlength⟩
  rw [if_neg hlength]
  have hsalt : salt = [] := (h.resolve_left hiterations).resolve_left hlength
  exact ⟨_, if_pos (by rw [hsalt]; rfl)⟩

/-- With all others `deriveKey` derives a key by `pbkdf2`. -/
theorem deriveKey_of_not_underivable (h : ¬ Underivable salt iterations length) :
    deriveKey digest salt iterations length
      = .ok ⟨Hash.pbkdf2 digest.bytes salt iterations.toNat length⟩ := by
  obtain ⟨hiterations, hlength, hsalt⟩ : iterations ≠ 0 ∧ length ≠ 0 ∧ salt ≠ [] := by
    simpa [Underivable] using h
  rw [deriveKey, if_neg hiterations, if_neg hlength, if_neg (by simpa using hsalt)]

end

end OpenDocument
