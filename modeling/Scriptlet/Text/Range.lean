/-!
# Ranges of code points

Character classes beyond ASCII are tables of inclusive ranges of code points.

## Main definitions

* `Text.inRanges` — whether a character lies in one of the ranges of a table
-/

namespace Scriptlet.Text

/-- Whether the code point of `c` lies in one of the inclusive ranges. -/
def inRanges (ranges : List (Nat × Nat)) (c : Char) : Bool :=
  ranges.any fun (lo, hi) => lo ≤ c.toNat && c.toNat ≤ hi

/-- A character is in the table exactly when one of its ranges holds it. -/
theorem inRanges_iff {ranges : List (Nat × Nat)} {c : Char} :
    inRanges ranges c = true ↔ ∃ r ∈ ranges, r.1 ≤ c.toNat ∧ c.toNat ≤ r.2 := by
  simp [inRanges]

end Scriptlet.Text
