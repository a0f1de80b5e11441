import OpenDocument.Error

/-!
# OpenDocument.Protection.Random

Where random bytes come from. A source is asked for a number of bytes and either gives exactly so
many or fails; a traced source keeps the lengths it was asked for.
-/

namespace OpenDocument

/-- A source of random bytes. -/
class RandomSource (ρ : Type) where
  fill : ρ → (n : Nat) → Except Error (SizedBytes n) × ρ

/-- A source with the lengths it was asked for, in order. -/
structure TracedRandom (ρ : Type) where
  source : ρ
  lengths : List Nat := []

instance {ρ : Type} [RandomSource ρ] : RandomSource (TracedRandom ρ) where
  fill t n :=
    let (result, source) := RandomSource.fill t.source n
    (result, ⟨source, t.lengths ++ [n]⟩)

end OpenDocument
