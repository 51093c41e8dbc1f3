import BlockLang.Core.Number

/-!
# Arrays

A position that is negative is counted from the end.
-/

namespace BlockLang

/-- A position from the front. -/
def position (size : Nat) (i : Int) : Int := if i < 0 then size + i else i

/-- The item at a position, or nil. -/
def itemAt (items : Array Value) (i : Int) : Value :=
  let p := position items.size i
  if p < 0 then .nil else items.getD p.toNat .nil

/-- `count` items from a position on, as far as there are any. There are none before the front,
beyond the end, or of a negative number. -/
def itemsFrom (items : Array Value) (start count : Int64) :
    Except Crash (Option (Array Value)) :=
  let first := position items.size start.toInt
  if first < 0 ∨ items.size < first ∨ count < 0 then .ok none
  else
    let stop := first + count.toInt
    if Int64.maxValue.toInt < stop then .error .sliceTooLong
    else .ok (some (items.extract first.toNat stop.toNat))

/-- How far beyond its end an array can be written. -/
def maxGrowth : Nat := Nat.pow 2 20

/-- Where an array of a size can be written. -/
def writePosition (size : Nat) (i : Int64) : Except Fault Nat :=
  let p := position size i.toInt
  if p < 0 then .error (.indexTooSmall i)
  else if size + maxGrowth < p then .error (.indexTooBig i)
  else .ok p.toNat

/-- The sum of the items on top of `total`, or the item that is no number. -/
def sumOnto (total : Value) : List Value → Except (Fault ⊕ Value) Value
  | [] => .ok total
  | item :: rest =>
    match addValues? total item with
    | none => .error (.inr item)
    | some (.error f) => .error (.inl f)
    | some (.ok total) => sumOnto total rest

namespace Core

/-- `array[i]` and `array[start, count]`. -/
def readItems (items : Array Value) (args : List Value) : Core (Option Reply) := do
  let start ← intArg args 0
  match args.length with
  | 1 => answer (itemAt items start.toInt)
  | 2 => do
    let count ← intArg args 1
    match itemsFrom items start count with
    | .error c => crash c
    | .ok none => answer .nil
    | .ok (some part) => answerArray part
  | n => raise (.wrongCountIn "[]" n 1)

def items (id : ArrayId) : Core (Array Value) := return (← get).array id

def itemList (id : ArrayId) : Core (List Value) := return (← items id).toList

/-- `array[i] = v`. -/
def writeItem (id : ArrayId) (args : List Value) : Core (Option Reply) := do
  expectArgs "[]=" args 2
  let i ← intArg args 0
  let v := args.getD 1 .nil
  let size := (← items id).size
  let p ← ofFault (writePosition size i)
  modify (·.modifyArray id fun items => setGrowing items p v)
  answer v

/-- The texts of the items, with a separator between them. -/
def joinItems (id : ArrayId) (args : List Value) : Core (Option Reply) := do
  let separator ← match args with
    | [] => pure ""
    | v :: _ => display v
  let parts ← (← itemList id).mapM display
  answerText (separator.intercalate parts)

def sumItems (id : ArrayId) : Core (Option Reply) := do
  match sumOnto (.int 0) (← itemList id) with
  | .ok total => answer total
  | .error (.inl f) => raise f
  | .error (.inr item) => raise (.notCoercible (← typeName item) "Integer")

def arrayMethod (id : ArrayId) (name : String) (args : List Value) : Core (Option Reply) := do
  match name with
  | "size" | "length" => answerInt (← items id).size
  | "empty?" => answerBool (← items id).isEmpty
  | "first" => answer ((← items id)[0]?.getD .nil)
  | "last" => answer ((← items id).back?.getD .nil)
  | "[]" => readItems (← items id) args
  | "[]=" => writeItem id args
  | "push" | "<<" => do
    modify (·.modifyArray id (· ++ args.toArray))
    answer (.array id)
  | "pop" => do
    let last := (← items id).back?.getD .nil
    modify (·.modifyArray id (·.pop))
    answer last
  | "include?" => do
    let v ← onlyArg name args
    let all ← itemList id
    answerBool (← ofEndless ((← get).anyEqual? v all))
  | "join" => joinItems id args
  | "reverse" => do answerArray (← items id).reverse
  | "+" =>
    match args with
    | [.array other] => do answerArray ((← items id) ++ (← items other))
    | _ => raise (.noConversion "Array")
  | "to_a" | "to_ary" => answer (.array id)
  | "each" => do
    let calls := (← itemList id).map ([·])
    return some (.iterate (.each calls (.array id)))
  | "each_with_index" => do
    let calls := (← itemList id).mapIdx fun i item => [item, .int (Int64.ofNat i)]
    return some (.iterate (.each calls (.array id)))
  | "map" | "collect" => do return some (.iterate (.collect (← itemList id) #[]))
  | "select" | "filter" => do return some (.iterate (.keep (← itemList id) #[]))
  | "inject" | "reduce" => do
    let all ← itemList id
    match args with
    | first :: _ => return some (.iterate (.fold first all))
    | [] => return some (.iterate (.fold (all.head?.getD .nil) all.tail))
  | "sum" => sumItems id
  | _ => return none

end Core

end BlockLang
