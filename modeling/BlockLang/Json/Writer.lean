import BlockLang.Json.Basic

/-!
# Writing JSON text

Two layouts of the same value: on one line without blanks, and indented by two blanks a level.
Only quotes, backslashes and control characters are escaped.
-/

namespace BlockLang

/-- The number as it is written. -/
def Numeral.render (n : Numeral) : String :=
  let minus := if n.negative then "-" else ""
  let fraction := if n.fraction.isEmpty then "" else "." ++ String.ofList n.fraction
  let exponent := match n.exponent with
    | none => ""
    | some (negative, digits) =>
      (if negative then "e-" else "e") ++ String.ofList digits
  minus ++ String.ofList n.whole ++ fraction ++ exponent

namespace Json

def hexDigit (n : Nat) : Char :=
  if n < 10 then Char.ofNat (n + '0'.toNat) else Char.ofNat (n - 10 + 'a'.toNat)

/-- The character, escaped where a JSON string needs it. -/
def quoteChar (c : Char) : List Char :=
  match c with
  | '"' => ['\\', '"']
  | '\\' => ['\\', '\\']
  | '\n' => ['\\', 'n']
  | '\r' => ['\\', 'r']
  | '\t' => ['\\', 't']
  | '\x08' => ['\\', 'b']
  | '\x0c' => ['\\', 'f']
  | c =>
    if c.toNat < 0x20 then
      ['\\', 'u', '0', '0', hexDigit (c.toNat / 16), hexDigit (c.toNat % 16)]
    else
      [c]

/-- A string between quotes. One without characters is written as a half of a surrogate pair. -/
def quote : JsonText → String
  | some s => "\"" ++ String.ofList (s.toList.flatMap quoteChar) ++ "\""
  | none => "\"\\ud800\""

/-- Items between two marks, divided by commas. -/
def enclose (first last : String) (parts : List String) : String :=
  first ++ ",".intercalate parts ++ last

mutual

/-- The value on one line, without blanks. -/
def render : Json → String
  | .null => "null"
  | .bool b => if b then "true" else "false"
  | .number n => n.render
  | .string t => quote t
  | .array items => enclose "[" "]" (renderItems items)
  | .object members => enclose "\x7b" "\x7d" (renderMembers members)

def renderItems : List Json → List String
  | [] => []
  | item :: items => item.render :: renderItems items

def renderMembers : List (JsonText × Json) → List String
  | [] => []
  | (name, value) :: members => (quote name ++ ":" ++ value.render) :: renderMembers members

end

/-- A new line and the blanks of a level. -/
def newline (level : Nat) : String :=
  "\n" ++ String.ofList (List.replicate (2 * level) ' ')

/-- Parts on lines of their own between two marks; no part at all stays on the line. -/
def encloseLines (first last : String) (level : Nat) (parts : List String) : String :=
  if parts.isEmpty then
    first ++ last
  else
    first ++ newline (level + 1) ++ ("," ++ newline (level + 1)).intercalate parts
      ++ newline level ++ last

mutual

/-- The value on several lines, indented by two blanks a level. -/
def renderLines (level : Nat) : Json → String
  | .null => "null"
  | .bool b => if b then "true" else "false"
  | .number n => n.render
  | .string t => quote t
  | .array items => encloseLines "[" "]" level (itemLines (level + 1) items)
  | .object members => encloseLines "\x7b" "\x7d" level (memberLines (level + 1) members)

def itemLines (level : Nat) : List Json → List String
  | [] => []
  | item :: items => item.renderLines level :: itemLines level items

def memberLines (level : Nat) : List (JsonText × Json) → List String
  | [] => []
  | (name, value) :: members =>
    (quote name ++ ": " ++ value.renderLines level) :: memberLines level members

end

/-- The value laid out for reading. -/
def pretty (j : Json) : String := j.renderLines 0

end Json

end BlockLang
