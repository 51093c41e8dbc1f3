import BlockLang.Lowering.Basic

/-!
# Spreading a value over targets

`a, *b, c = value`: the value is made an array, and the targets read its items. With enough items
those after the rest are counted from the end; with too few all are counted from the front. When
the value refuses to become an array every target gets nil.
-/

namespace BlockLang

namespace Lower

/-- What nil is spread as: a value that is handed to `next` spreads as nothing. -/
def nilAsArray : Lower NilAsArray := do
  return if (← read).inNext then .emptyArray else .arrayWithNil

/-- Spreads `value` over `pre` targets, a rest and `post` targets. The three assigners get the
value of each target by its number, and that of the rest. -/
def destructure (pre post : Nat) (assignPre : (Nat → Code) → Lower (List Code))
    (assignRest : Code → Lower (List Code)) (assignPost : (Nat → Code) → Lower (List Code))
    (value : Code) : Lower Code := do
  let array ← addTemp "array"
  let onNil ← nilAsArray
  let items := Code.readLocal array
  let item (i : Nat) : Code := .index items i
  let middle : Code := .slice items pre post
  let large := (← assignPre item) ++ (← assignRest middle) ++
    (← assignPost fun k => .index items (-((post - k : Nat) : Int)))
  let small := (← assignPre item) ++ (← assignRest middle) ++
    (← assignPost fun k => item (pre + k))
  let nothing := (← assignPre fun _ => .nil) ++ (← assignPost fun _ => .nil) ++
    (← assignRest (if pre == 0 && post == 0 then .array [] else .nil))
  return .join [
    .writeLocal array (.splatCast value onNil),
    .ifElse (.isNil items) (.join nothing)
      (.ifElse (.atLeast items (pre + post)) (.join large) (.join small))]

/-- Keeps the right side in a hidden variable, runs the assignment that reads it, and gives it as
the result. -/
def keepingRight (right : Code) (assign : Code → Lower Code) : Lower Code := do
  let temp ← addTemp "rhs"
  let assignment ← assign (.readLocal temp)
  return .elidable (.join [.writeLocal temp right, assignment]) (.readLocal temp)

/-- As many targets as items: every item is evaluated before the first target is assigned. -/
def assignItems (items : List (Local × Code)) (assign : (Nat → Code) → Lower (List Code)) :
    Lower Code := do
  let reads := items.map fun (temp, _) => Code.readLocal temp
  let writes := items.map fun (temp, value) => Code.writeLocal temp value
  let assignments ← assign fun i => reads.getD i .nil
  return .elidable (.join (writes ++ assignments)) (.array reads)

end Lower

end BlockLang
