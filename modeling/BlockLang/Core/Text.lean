import BlockLang.Core.Basic
import BlockLang.Text.Case
import BlockLang.Text.Integer

/-!
# Texts and symbols
-/

namespace BlockLang

namespace Text

/-- Whether `part` stands somewhere in a text. -/
def occurs (part : List Char) : List Char → Bool
  | [] => part.isEmpty
  | c :: rest => part.isPrefixOf (c :: rest) || occurs part rest

/-- The most bytes that a text can have. -/
def maxBytes : Nat := Nat.pow 2 63 - 1

/-- The text `count` times, if there is room for it. -/
def repeat? (t : String) (count : Nat) : Option String :=
  if t.isEmpty then some ""
  else if maxBytes < t.utf8ByteSize * count then none
  else some (String.join (List.replicate count t))

end Text

namespace Core

def textMethod (t : String) (name : String) (args : List Value) : Core (Option Reply) := do
  match name with
  | "size" | "length" => answerInt t.length
  | "empty?" => answerBool t.isEmpty
  | "upcase" => answerText (Text.toUpper t)
  | "downcase" => answerText (Text.toLower t)
  | "reverse" => answerText (String.ofList t.toList.reverse)
  | "to_sym" => answer (.symbol t)
  | "to_i" => answer (.int ((Text.toInt64? t).getD 0))
  | "+" =>
    match ← onlyArg name args with
    | .text other => answerText (t ++ other)
    | other => raise (.noConversionOf (← typeName other) "String")
  | "*" => do
    let count ← intArg args 0
    if count < 0 then raise .negativeCount
    match Text.repeat? t count.toInt.toNat with
    | some repeated => answerText repeated
    | none => crash .textTooLong
  | "include?" =>
    match args with
    | [.text part] => answerBool (Text.occurs part.toList t.toList)
    | _ => raise (.noConversion "String")
  | _ => return none

def symbolMethod (symbol : String) : String → Core (Option Reply)
  | "to_s" | "name" => answerText symbol
  | "to_sym" => answer (.symbol symbol)
  | _ => return none

def nilMethod : String → Core (Option Reply)
  | "to_a" => answerArray #[]
  | "to_s" => answerText ""
  | "to_i" => answer (.int 0)
  | _ => return none

end Core

end BlockLang
