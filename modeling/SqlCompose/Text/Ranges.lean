/-!
Sets of characters given by the ranges of their code points.
-/

namespace SqlCompose.Text

/-- Whether a code point lies in one of the ranges, ends included. -/
def inRanges (ranges : Array (Nat × Nat)) (c : Char) : Bool :=
  ranges.any fun r => decide (r.1 ≤ c.toNat ∧ c.toNat ≤ r.2)

end SqlCompose.Text
