import OpenDocument.Deflate.Input

/-!
# OpenDocument.Deflate.Code

Prefix codes. A code is given by the length of the word of every symbol, with zero for symbols
that have none; words of one length are consecutive numbers in the order of their symbols, and
shorter words come first. A code is read along a binary tree. Main statement:
`Tree.decode_word`, a word that leads to a symbol's leaf is read as that symbol.
-/

namespace OpenDocument.Deflate

/-- Why a stream cannot be read on. -/
inductive Stop where
  /-- The stream ends too early. -/
  | truncated
  /-- The stream is not in the format. -/
  | corrupt
  deriving DecidableEq, Repr

/-! ## Words -/

/-- A word: the `length` low bits of `number`, highest first. -/
def word (length number : Nat) : Bits :=
  (Bits.field length number).reverse

/-- The number of the first word of a length. -/
def firstNumber (lengths : List Nat) : Nat → Nat
  | 0 => 0
  | l + 1 => 2 * (firstNumber lengths l + if l = 0 then 0 else lengths.count l)

/-- The words of the symbols, in order; `next` holds the next free number of every length. -/
def assignWords (next : Array Nat) : List Nat → List Bits
  | [] => []
  | l :: rest =>
    let n := next.getD l 0
    word l n :: assignWords (next.setIfInBounds l (n + 1)) rest

/-- The longest word that a code may have. -/
def maxLength : Nat := 15

/-- The words of the code with the given lengths, in the order of the symbols; `firstNumber` says
where each length begins. -/
def codeWords (lengths : List Nat) : List Bits :=
  assignWords ((Array.range (maxLength + 1)).map (firstNumber lengths)) lengths

/-! ## Trees -/

/-- A tree whose leaves are symbols; a word leads from the root to a leaf. -/
inductive Tree where
  | empty
  | leaf (symbol : Nat)
  | node (zero one : Tree)
  deriving Repr

namespace Tree

/-- The two subtrees of a tree. -/
def children : Tree → Tree × Tree
  | node z o => (z, o)
  | _ => (empty, empty)

/-- The tree with a symbol at the end of a word. -/
def insert (symbol : Nat) : Bits → Tree → Tree
  | [], _ => leaf symbol
  | b :: bits, t =>
    let (z, o) := t.children
    if b then node z (insert symbol bits o) else node (insert symbol bits z) o

/-- The symbol at the end of a word. -/
def find? : Tree → Bits → Option Nat
  | leaf s, [] => some s
  | node z o, b :: bits => if b then o.find? bits else z.find? bits
  | _, _ => none

/-- The symbol whose word the input begins with, and the input behind the word, along the same way
as `find?`. -/
def decode : Tree → Input → Except Stop (Nat × Input)
  | leaf s, i => .ok (s, i)
  | empty, _ => .error .corrupt
  | node z o, i =>
    match i.next? with
    | none => .error .truncated
    | some (b, i) => if b then o.decode i else z.decode i

/-- A word that `find?` leads to a leaf is read as its symbol by `decode`, whatever follows it. -/
theorem decode_word {t : Tree} {w : Bits} {s : Nat} (h : t.find? w = some s) {i rest : Input}
    (hi : i.toBits = w ++ rest.toBits) : t.decode i = .ok (s, rest) := by
  induction w generalizing t i with
  | nil =>
    cases t with
    | leaf s' =>
      simp only [find?, Option.some.injEq] at h
      rw [h, Input.ext_toBits hi]; rfl
    | empty => simp [find?] at h
    | node z o => simp [find?] at h
  | cons b w ih =>
    cases t with
    | leaf s' => simp [find?] at h
    | empty => simp [find?] at h
    | node z o =>
      obtain ⟨r, hr, hbits⟩ := Input.exists_next? hi
      simp only [find?] at h
      cases b with
      | true => simpa [decode, hr] using ih h hbits
      | false => simpa [decode, hr] using ih h hbits

/-- The tree of the code with the given lengths, into which `insert` has put its words. -/
def ofLengths (lengths : List Nat) : Tree :=
  ((codeWords lengths).zipIdx).foldl (fun t (w, s) => if w.isEmpty then t else t.insert s w) empty

/-- How much of the bit strings of the greatest length begin with a word of one of the lengths. -/
def coverage (lengths : List Nat) : Nat :=
  lengths.foldr (fun l total => 1 <<< (maxLength - l) + total) 0

/-- The tree of a code that a stream describes. The words must leave no bit string without a
meaning, except that a code may consist of a single word of one bit, or of none at all;
`mayBeSparse` permits these two. In a code without words one bit is read before it is refused. -/
def ofDescription? (mayBeSparse : Bool) (lengths : List Nat) : Option Tree :=
  let used := lengths.filter (· != 0)
  let all := 1 <<< maxLength
  if mayBeSparse = true ∧ used.isEmpty = true then some (node empty empty)
  else if coverage used = all then some (ofLengths lengths)
  else if mayBeSparse = true ∧ coverage used < all ∧ used.all (· == 1) = true then
    some (ofLengths lengths)
  else none

end Tree

end OpenDocument.Deflate
