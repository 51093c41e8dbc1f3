import BlockLang.Value.Text

/-!
# Equality of values

Numbers are compared as numbers and arrays and hashes by what they contain. Containers that
contain themselves may have no answer: a comparison that comes back to a pair of containers it is
comparing goes on forever. So the number of pairs bounds how deep a difference can be found. The
number of containers does not: an integer and its neighbour can be equal to the same number with a
point, so two containers may differ though both are equal to a third.
-/

namespace BlockLang

/-- Whether all pairs are equal; the first unequal one decides. -/
def allEqual (equal : Value → Value → Option Bool) : List (Value × Value) → Option Bool
  | [] => some true
  | (a, b) :: rest =>
    match equal a b with
    | some true => allEqual equal rest
    | other => other

/-- Whether the value of every key is equal to the other table's. -/
def entriesEqual (equal : Value → Value → Option Bool) (other : Table Key Value) :
    List (Key × Value) → Option Bool
  | [] => some true
  | (key, a) :: rest =>
    match other.get? key with
    | none => some false
    | some b =>
      match equal a b with
      | some true => entriesEqual equal other rest
      | answer => answer

namespace Store

/-- Whether two values are equal, at most `n` containers deep. -/
def equalWithin (s : Store) : Nat → Value → Value → Option Bool
  | _, .nil, .nil => some true
  | _, .bool a, .bool b => some (a == b)
  | _, .int a, .int b => some (a == b)
  | _, .float a, .float b => some (a == b)
  | _, .int a, .float b => some (a.toFloat == b)
  | _, .float a, .int b => some (b.toFloat == a)
  | _, .text a, .text b => some (a == b)
  | _, .symbol a, .symbol b => some (a == b)
  | _, .closure a, .closure b => some (a == b)
  | _, .object a, .object b => some (a == b)
  | _, .classRef a, .classRef b => some (a == b)
  | n, .array a, .array b =>
    if a == b then some true
    else
      let xs := s.array a
      let ys := s.array b
      if xs.size != ys.size then some false
      else match n with
        | 0 => none
        | n + 1 => allEqual (s.equalWithin n) (xs.toList.zip ys.toList)
  | n, .hash a, .hash b =>
    if a == b then some true
    else
      let xs := s.hash a
      let ys := s.hash b
      if xs.size != ys.size then some false
      else match n with
        | 0 => none
        | n + 1 => entriesEqual (s.equalWithin n) ys xs.entries
  | _, _, _ => some false

/-- The number of pairs of containers of one kind. -/
def containerPairs (s : Store) : Nat :=
  s.arrays.size * s.arrays.size + s.hashes.size * s.hashes.size

def equal? (s : Store) (a b : Value) : Option Bool := s.equalWithin (s.containerPairs + 1) a b

/-- Whether one of the items is equal to the value. -/
def anyEqual? (s : Store) (v : Value) : List Value → Option Bool
  | [] => some false
  | item :: rest =>
    match s.equal? item v with
    | some false => s.anyEqual? v rest
    | answer => answer

end Store

end BlockLang
