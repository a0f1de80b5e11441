import Std.Data.HashMap
import OpenDocument.Deflate.Token

/-!
# OpenDocument.Deflate.Search

Tokens for a byte string, found from left to right. Where three bytes were seen before, their
last position is proposed for a copy. A proposal decides only where to look: the bytes are
compared again and the distance is checked, so the tokens stand for the data whatever is proposed.
-/

namespace OpenDocument.Deflate

/-- The last position of every three bytes seen so far. -/
abbrev History := Std.HashMap Nat Nat

/-- The longest copy. -/
def maxCopy : Nat := 258

/-- The shortest copy. -/
def minCopy : Nat := 3

/-- The largest distance. -/
def maxDistance : Nat := 32768

/-- The three bytes at a position as one number, if there are three. -/
def key? (data : Array UInt8) (p : Nat) : Option Nat :=
  match data[p]?, data[p + 1]?, data[p + 2]? with
  | some a, some b, some c => some (a.toNat * 65536 + b.toNat * 256 + c.toNat)
  | _, _, _ => none

/-- How many of the next `n` bytes at `q` and at `p` are equal before the first that differ. -/
def commonLength (data : Array UInt8) (q p : Nat) : Nat → Nat
  | 0 => 0
  | n + 1 =>
    if data.getD q 0 = data.getD p 0 then commonLength data (q + 1) (p + 1) n + 1 else 0

theorem commonLength_le (data : Array UInt8) (q p n : Nat) : commonLength data q p n ≤ n := by
  induction n generalizing q p with
  | zero => simp [commonLength]
  | succ n ih =>
    simp only [commonLength]
    split
    · have := ih (q + 1) (p + 1); omega
    · omega

/-- The copy at `p` from `q`, if it is long enough and not too far away: its length. -/
def copyLength? (data : Array UInt8) (q p : Nat) : Option Nat :=
  if q < p ∧ p - q ≤ maxDistance then
    let n := commonLength data q p (min maxCopy (data.size - p))
    if minCopy ≤ n then some n else none
  else none

theorem copyLength?_pos {data : Array UInt8} {q p n : Nat} (h : copyLength? data q p = some n) :
    0 < n := by
  simp only [copyLength?] at h
  split at h
  · rw [Option.ite_none_right_eq_some, Option.some.injEq] at h
    obtain ⟨hle, rfl⟩ := h
    exact Nat.lt_of_lt_of_le (by decide) hle
  · simp at h

namespace History

/-- Remember the three bytes at a position. -/
def note (h : History) (data : Array UInt8) (p : Nat) : History :=
  match key? data p with
  | some k => h.insert k p
  | none => h

/-- Remember the three bytes at each of `n` positions from `p` on. -/
def noteRun (h : History) (data : Array UInt8) (p : Nat) : Nat → History
  | 0 => h
  | n + 1 => noteRun (h.note data p) data (p + 1) n

/-- The copy that the history proposes at a position: its length, by `copyLength?`, and its
distance. -/
def propose (h : History) (data : Array UInt8) (p : Nat) : Option (Nat × Nat) := do
  let k ← key? data p
  let q ← h[k]?
  let n ← copyLength? data q p
  return (n, p - q)

theorem propose_pos {h : History} {data : Array UInt8} {p n d : Nat}
    (hp : h.propose data p = some (n, d)) : 0 < n := by
  simp only [propose, Option.bind_eq_bind, Option.bind_eq_some_iff, Option.pure_def,
    Option.some.injEq, Prod.mk.injEq] at hp
  obtain ⟨_, _, _, _, n', hn, rfl, _⟩ := hp
  exact copyLength?_pos hn

end History

/-- The tokens for the data from position `p` on, behind the tokens `done` in reverse. -/
def tokensFrom (data : Array UInt8) (h : History) (done : List Token) (p : Nat) : List Token :=
  if hp : p < data.size then
    match _hc : h.propose data p with
    | some (n, d) => tokensFrom data (h.noteRun data p n) (.copy n d :: done) (p + n)
    | none => tokensFrom data (h.note data p) (.literal data[p] :: done) (p + 1)
  else done.reverse
termination_by data.size - p
decreasing_by
  · have := History.propose_pos _hc; omega
  · omega

/-- Tokens that stand for a byte string, as `tokensFrom` finds them from its beginning on. -/
def tokens (data : Bytes) : List Token :=
  tokensFrom data.toArray ∅ [] 0

end OpenDocument.Deflate
