/-!
# Integers of 64 bits
-/

namespace BlockLang

/-- An integer as one of 64 bits, if it is one. -/
def int64? (i : Int) : Option Int64 :=
  if Int64.minValue.toInt ≤ i ∧ i ≤ Int64.maxValue.toInt then some (Int64.ofInt i) else none

end BlockLang
