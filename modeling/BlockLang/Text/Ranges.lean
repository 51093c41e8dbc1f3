/-!
# Sets of characters as ranges

A set of characters is a list of ranges of code points, ends included. A long one is written down by
its lengths (`rangesOf`): so many code points outside of the set, so many inside, and so on in turn.
-/

namespace BlockLang.Text

/-- The ranges from `start` on, by how many code points lie before and in each of them. -/
def rangesFrom (start : Nat) : List Nat → List (Nat × Nat)
  | outside :: inside :: rest =>
    let stop := start + outside + inside
    (start + outside, stop - 1) :: rangesFrom stop rest
  | _ => []

def rangesOf (lengths : List Nat) : List (Nat × Nat) := rangesFrom 0 lengths

/-- Whether the code point of `c` lies in one of the ranges. -/
def inRanges (ranges : List (Nat × Nat)) (c : Char) : Bool :=
  ranges.any fun (low, high) => low ≤ c.toNat && c.toNat ≤ high

end BlockLang.Text
