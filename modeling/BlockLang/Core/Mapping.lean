import BlockLang.Core.Basic

/-!
# Hashes
-/

namespace BlockLang

namespace Core

/-- The pairs of a hash as arrays. -/
def pairs (entries : Table Key Value) : Core (List Value) :=
  modifyGet (·.newPairs entries.entries)

def hashMethod (id : HashId) (name : String) (args : List Value) : Core (Option Reply) := do
  let entries := (← get).hash id
  match name with
  | "size" | "length" => answerInt entries.size
  | "empty?" => answerBool entries.isEmpty
  | "[]" => do
    let key ← keyOf (← onlyArg name args)
    answer ((entries.get? key).getD .nil)
  | "[]=" => do
    expectArgs name args 2
    let key ← keyOf (args.getD 0 .nil)
    let v := args.getD 1 .nil
    modify (·.modifyHash id (·.insert key v))
    answer v
  | "key?" | "has_key?" | "include?" => do
    let key ← keyOf (← onlyArg name args)
    answerBool (entries.contains key)
  | "keys" => answerArray (entries.keys.map Key.toValue).toArray
  | "values" => answerArray entries.values.toArray
  | "to_a" => do answerArray (← pairs entries).toArray
  | "each" | "each_pair" => do
    let calls := (← pairs entries).map ([·])
    return some (.iterate (.each calls (.hash id)))
  | "map" | "collect" => do
    return some (.iterate (.collect (← pairs entries) #[]))
  | "merge" =>
    match args with
    | [.hash other] => do answer (← newHash (entries.merge ((← get).hash other)))
    | _ => raise (.noConversion "Hash")
  | _ => return none

end Core

end BlockLang
