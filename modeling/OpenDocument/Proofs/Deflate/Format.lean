import Mathlib.Algebra.GroupWithZero.Nat
import OpenDocument.Deflate.Inflate
import OpenDocument.Proofs.Deflate.Bits
import OpenDocument.Proofs.Deflate.Tokens

/-!
# OpenDocument.Proofs.Deflate.Format

The format of raw DEFLATE streams, from the side of whoever writes one: which bit strings stand for
which content.  Everything that a compressor may choose is left open here, that is where blocks
begin, of which of the three kinds they are, which copies are made, and which codes are described
and how.  `IsStream` is the whole: blocks of which just the last is marked as the last, and less
than a byte of filling behind them.
-/

namespace OpenDocument.Deflate

/-! ## Symbols -/

/-- The bits of a symbol are its word, if it has one. -/
def Spells (words : List Bits) (s : Nat) (bits : Bits) : Prop :=
  words[s]? = some bits ∧ bits ≠ []

/-- A value in the range of a symbol, and the extra bits that lead to it. -/
def InRange (ranges : List (Nat × Nat)) (value symbol : Nat) (bits : Bits) : Prop :=
  ∃ least extra, ranges[symbol]? = some (least, extra) ∧ least ≤ value ∧ value < least + 2 ^ extra
    ∧ bits = Bits.field extra (value - least)

/-- The codes of a compressed block: words for `literals`, lengths and the end, and words for
`distances`. -/
structure Codes where
  literals : List Bits
  distances : List Bits

namespace Codes

/-- The bits of a `Token` in the words of the codes. -/
inductive Writes (c : Codes) : Token → Bits → Prop
  | literal {b : UInt8} {bits : Bits} (h : Spells c.literals b.toNat bits) :
      c.Writes (.literal b) bits
  | copy {length distance i j : Nat} {lengthWord lengthExtra distanceWord distanceExtra : Bits}
      (hlengthWord : Spells c.literals (firstCopySymbol + i) lengthWord)
      (hlength : InRange lengthRanges length i lengthExtra)
      (hdistanceWord : Spells c.distances j distanceWord)
      (hdistance : InRange distanceRanges distance j distanceExtra) :
      c.Writes (.copy length distance)
        (lengthWord ++ (lengthExtra ++ (distanceWord ++ distanceExtra)))

/-- The bits of tokens, and of `endSymbol` behind them. -/
inductive WritesAll (c : Codes) : List Token → Bits → Prop
  | stop {bits : Bits} (h : Spells c.literals endSymbol bits) : c.WritesAll [] bits
  | cons {t : Token} {ts : List Token} {bits rest : Bits} (h : c.Writes t bits)
      (hrest : c.WritesAll ts rest) : c.WritesAll (t :: ts) (bits ++ rest)

end Codes

/-! ## Codes -/

/-- The words of the fixed code for literals and lengths, in its four ranges of symbols. -/
def fixedWord (s : Nat) : Bits :=
  if s < 144 then word 8 (48 + s)
  else if s < 256 then word 9 (400 + (s - 144))
  else if s < 280 then word 7 (s - 256)
  else word 8 (192 + (s - 280))

/-- The fixed codes. -/
def fixedCodes : Codes where
  literals := (List.range 288).map fixedWord
  distances := (List.range 32).map (word 5)

/-- The part of all bit strings of `maxLength` bits that begin with a word of a code. -/
def weight (lengths : List Nat) : Nat :=
  ((lengths.filter (· != 0)).map fun l => 2 ^ (maxLength - l)).sum

/-- Lengths of the words of a code that leaves no bit string without a meaning. -/
structure Complete (lengths : List Nat) : Prop where
  le_maxLength : ∀ l ∈ lengths, l ≤ maxLength
  weight_eq : weight lengths = 2 ^ maxLength

/-- Lengths of the words of a code that a block may have: a `Complete` one, or one of a single word
of one bit, or one without words. -/
def Usable (lengths : List Nat) : Prop :=
  Complete lengths ∨ lengths.filter (· != 0) = [1] ∨ lengths.filter (· != 0) = []

/-- How the next lengths behind the lengths `done` are listed with the words of a code for lengths.
Three symbols stand for several lengths each. -/
inductive Adds (words : List Bits) : (done more : List Nat) → Bits → Prop
  | length {done : List Nat} {l : Nat} {bits : Bits} (hl : l < 16) (h : Spells words l bits) :
      Adds words done [l] bits
  | again {done : List Nat} {last n : Nat} {bits : Bits} (hn : n < 4) (h : Spells words 16 bits) :
      Adds words (done ++ [last]) (List.replicate (3 + n) last) (bits ++ Bits.field 2 n)
  | zeros {done : List Nat} {n : Nat} {bits : Bits} (hn : n < 8) (h : Spells words 17 bits) :
      Adds words done (List.replicate (3 + n) 0) (bits ++ Bits.field 3 n)
  | manyZeros {done : List Nat} {n : Nat} {bits : Bits} (hn : n < 128)
      (h : Spells words 18 bits) :
      Adds words done (List.replicate (11 + n) 0) (bits ++ Bits.field 7 n)

/-- Bits that lead from the lengths `done` to the lengths `all`, by steps of `Adds`. -/
inductive Lists (words : List Bits) (all : List Nat) : (done : List Nat) → Bits → Prop
  | stop : Lists words all all []
  | cons {done more : List Nat} {bits rest : Bits} (h : Adds words done more bits)
      (hrest : Lists words all (done ++ more) rest) : Lists words all done (bits ++ rest)

/-- The description of two codes.  The lengths of the words for lengths come first, `count` of them
in an order of their own, those behind being zero; with these words the lengths of both codes are
listed one after the other.  No lengths are listed for symbols behind those of the last range. -/
inductive Describes (literals distances : List Nat) : Bits → Prop
  | intro {own : List Nat} {count : Nat} {bits : Bits}
      (hliterals : 257 ≤ literals.length ∧ literals.length ≤ 286)
      (hdistances : 1 ≤ distances.length ∧ distances.length ≤ 30)
      (hown : own.length = lengthOrder.length) (hcount : 4 ≤ count ∧ count ≤ lengthOrder.length)
      (hshort : ∀ l ∈ own, l < 8) (hrest : ∀ s ∈ lengthOrder.drop count, own.getD s 0 = 0)
      (hcomplete : Complete own) (hlists : Lists (codeWords own) (literals ++ distances) [] bits) :
      Describes literals distances
        (Bits.field 5 (literals.length - 257) ++ (Bits.field 5 (distances.length - 1)
          ++ (Bits.field 4 (count - 4)
            ++ ((lengthOrder.take count).flatMap (fun s => Bits.field 3 (own.getD s 0)) ++ bits))))

/-! ## Blocks -/

/-- The bits of a block that begins `position` bits behind the beginning of the stream, and what it
makes of the output in front of it.  A stored block goes on at the next whole byte. -/
inductive Block (position : Nat) (final : Bool) :
    (out content : Array UInt8) → Bits → Prop
  | stored {out : Array UInt8} {data : Bytes} {fill : Bits} (hdata : data.length ≤ 65535)
      (hfill : fill.length < 8) (hwhole : 8 ∣ position + 3 + fill.length) :
      Block position final out (out ++ data) ([final, false, false] ++ (fill
        ++ (Bits.field 16 data.length ++ (Bits.field 16 (65535 - data.length)
          ++ Bits.ofBytes data))))
  | fixed {out content : Array UInt8} {ts : List Token} {bits : Bits}
      (hbits : fixedCodes.WritesAll ts bits) (hcontent : Expands ts out content) :
      Block position final out content ([final, true, false] ++ bits)
  | described {out content : Array UInt8} {ts : List Token} {literals distances : List Nat}
      {description bits : Bits} (hdescribes : Describes literals distances description)
      (hliterals : Usable literals) (hdistances : Usable distances)
      (hbits : Codes.WritesAll ⟨codeWords literals, codeWords distances⟩ ts bits)
      (hcontent : Expands ts out content) :
      Block position final out content ([final, false, true] ++ (description ++ bits))

/-- The bits of blocks (`Block`) of which just the last is marked as the last. -/
inductive Blocks : (position : Nat) → (out content : Array UInt8) → Bits → Prop
  | last {position : Nat} {out content : Array UInt8} {bits : Bits}
      (h : Block position true out content bits) : Blocks position out content bits
  | cons {position : Nat} {out between content : Array UInt8} {bits rest : Bits}
      (h : Block position false out between bits)
      (hrest : Blocks (position + bits.length) between content rest) :
      Blocks position out content (bits ++ rest)

/-- A complete stream that stands for a content: nothing is in front of the `Blocks`, and nothing
but the rest of their last byte behind them. -/
def IsStream (stream content : Bytes) : Prop :=
  ∃ bits fill, Blocks 0 #[] content.toArray bits ∧ fill.length < 8
    ∧ Bits.ofBytes stream = bits ++ fill

/-! ## How many bits there are -/

theorem Spells.length_pos {words : List Bits} {s : Nat} {bits : Bits} (h : Spells words s bits) :
    0 < bits.length :=
  List.length_pos_iff.mpr h.2

theorem Codes.Writes.length_pos {c : Codes} {t : Token} {bits : Bits} (h : c.Writes t bits) :
    0 < bits.length := by
  cases h with
  | literal h => exact h.length_pos
  | copy hlengthWord =>
      rw [List.length_append]
      exact Nat.add_pos_left hlengthWord.length_pos _

/-- Every token takes a bit at least, and so does the end. -/
theorem Codes.WritesAll.length_lt {c : Codes} {ts : List Token} {bits : Bits}
    (h : c.WritesAll ts bits) : ts.length < bits.length := by
  induction h with
  | stop h => exact h.length_pos
  | cons h _ ih =>
      have := h.length_pos
      rw [List.length_cons, List.length_append]
      omega

theorem Block.length_pos {position : Nat} {final : Bool} {out content : Array UInt8} {bits : Bits}
    (h : Block position final out content bits) : 3 ≤ bits.length := by
  cases h <;> rw [List.length_append] <;> exact Nat.le_add_right 3 _

end OpenDocument.Deflate
