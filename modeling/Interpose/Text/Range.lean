/-!
# Ranges of characters

A character class beyond ASCII is a table of closed ranges of code points. A table is read by
`inRanges`, which the classes of `Text.Blank`, `Text.Alphabetic` and `Text.Numeric` share.
-/

set_option autoImplicit false

namespace Interpose.Text

/-- The code point of `c` lies in one of the closed ranges of `table`. -/
def inRanges (table : List (Nat × Nat)) (c : Char) : Bool :=
  table.any fun r => r.1 ≤ c.toNat && c.toNat ≤ r.2

/-- Membership, said without the table's order. -/
theorem inRanges_eq_true_iff (table : List (Nat × Nat)) (c : Char) :
    inRanges table c = true ↔ ∃ r ∈ table, r.1 ≤ c.toNat ∧ c.toNat ≤ r.2 := by
  simp [inRanges]

end Interpose.Text
