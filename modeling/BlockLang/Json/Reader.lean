import BlockLang.Json.Basic

/-!
# Reading JSON text

The strict grammar: no trailing commas, no leading zeros or plus signs, no raw control characters
in strings, and only blanks after the value. Each function takes the characters that remain and
returns those it leaves.
-/

namespace BlockLang.Json.Reader

def isBlank (c : Char) : Bool :=
  c == ' ' || c == '\t' || c == '\n' || c == '\r'

def skipBlank (cs : List Char) : List Char :=
  cs.dropWhile isBlank

/-- One or more decimal digits. -/
def digits? (cs : List Char) : Option (List Char × List Char) :=
  match cs.takeWhile Char.isDigit with
  | [] => none
  | ds => some (ds, cs.dropWhile Char.isDigit)

/-- The digits before the point: a single zero, or digits that do not start with one. -/
def whole? : List Char → Option (List Char × List Char)
  | '0' :: cs =>
    match cs with
    | c :: _ => if c.isDigit then none else some (['0'], cs)
    | [] => some (['0'], cs)
  | cs => digits? cs

/-- The digits after a point, if there is a point. -/
def fraction? : List Char → Option (List Char × List Char)
  | '.' :: cs => digits? cs
  | cs => some ([], cs)

/-- The sign and digits of an exponent, once its mark has been read. -/
def exponentDigits? : List Char → Option ((Bool × List Char) × List Char)
  | '-' :: cs => (digits? cs).map fun (ds, cs) => ((true, ds), cs)
  | '+' :: cs => (digits? cs).map fun (ds, cs) => ((false, ds), cs)
  | cs => (digits? cs).map fun (ds, cs) => ((false, ds), cs)

/-- The exponent, if there is one. -/
def exponent? : List Char → Option (Option (Bool × List Char) × List Char)
  | 'e' :: cs => (exponentDigits? cs).map fun (e, cs) => (some e, cs)
  | 'E' :: cs => (exponentDigits? cs).map fun (e, cs) => (some e, cs)
  | cs => some (none, cs)

/-- The sign of a number: a minus, or nothing. -/
def sign : List Char → Bool × List Char
  | '-' :: cs => (true, cs)
  | cs => (false, cs)

def numeral? (cs : List Char) : Option (Numeral × List Char) := do
  let (negative, cs) := sign cs
  let (whole, cs) ← whole? cs
  let (fraction, cs) ← fraction? cs
  let (exponent, cs) ← exponent? cs
  some ({ negative, whole, fraction, exponent }, cs)

def hexDigit? (c : Char) : Option Nat :=
  if c.isDigit then some (c.toNat - '0'.toNat)
  else if 'a' ≤ c ∧ c ≤ 'f' then some (c.toNat - 'a'.toNat + 10)
  else if 'A' ≤ c ∧ c ≤ 'F' then some (c.toNat - 'A'.toNat + 10)
  else none

/-- The number that four hexadecimal digits write. -/
def hex4? (a b c d : Char) : Option Nat := do
  let a ← hexDigit? a
  let b ← hexDigit? b
  let c ← hexDigit? c
  let d ← hexDigit? d
  some (((a * 16 + b) * 16 + c) * 16 + d)

/-- Whether `n` is the first half of a surrogate pair. -/
def isHighHalf (n : Nat) : Bool := 0xD800 ≤ n && n ≤ 0xDBFF

/-- Whether `n` is the second half of a surrogate pair. -/
def isLowHalf (n : Nat) : Bool := 0xDC00 ≤ n && n ≤ 0xDFFF

/-- The character a surrogate pair names. -/
def pairChar (high low : Nat) : Char :=
  Char.ofNat ((high - 0xD800) * 0x400 + (low - 0xDC00) + 0x10000)

/-- The character an escape of one letter names. -/
def shortEscape? : Char → Option Char
  | '"' => some '"'
  | '\\' => some '\\'
  | '/' => some '/'
  | 'b' => some '\x08'
  | 'f' => some '\x0c'
  | 'n' => some '\n'
  | 'r' => some '\r'
  | 't' => some '\t'
  | _ => none

/-- A part of a string: a character, or the number that an escape of four digits writes. -/
inductive Piece where
  | char (c : Char)
  | unit (n : Nat)

/-- The parts up to the closing quote. -/
def pieces? : List Char → Option (List Piece × List Char)
  | [] => none
  | '"' :: cs => some ([], cs)
  | '\\' :: 'u' :: a :: b :: c :: d :: cs => do
    let n ← hex4? a b c d
    (pieces? cs).map fun (ps, cs) => (.unit n :: ps, cs)
  | '\\' :: e :: cs => do
    let c ← shortEscape? e
    (pieces? cs).map fun (ps, cs) => (.char c :: ps, cs)
  | c :: cs =>
    if c.toNat < 0x20 then none else (pieces? cs).map fun (ps, cs) => (.char c :: ps, cs)

/-- The characters of a string. Two halves of a surrogate pair that stand together name one
character; a half that stands alone names none, and then the string has no characters. -/
def characters? : List Piece → Option (List Char)
  | [] => some []
  | .char c :: ps => (characters? ps).map (c :: ·)
  | .unit n :: .unit m :: ps =>
    if isHighHalf n then
      if isLowHalf m then (characters? ps).map (pairChar n m :: ·) else none
    else if isLowHalf n then none
    else (characters? (.unit m :: ps)).map (Char.ofNat n :: ·)
  | .unit n :: ps =>
    if isHighHalf n || isLowHalf n then none else (characters? ps).map (Char.ofNat n :: ·)

/-- A string, once its opening quote has been read. -/
def string? (cs : List Char) : Option (JsonText × List Char) :=
  (pieces? cs).map fun (ps, cs) => ((characters? ps).map String.ofList, cs)

mutual

/-- A value. The first argument bounds the recursion; the number of characters is enough, since
every call reads one. -/
def value? : Nat → List Char → Option (Json × List Char)
  | 0, _ => none
  | n + 1, cs =>
    match skipBlank cs with
    | 'n' :: 'u' :: 'l' :: 'l' :: cs => some (.null, cs)
    | 't' :: 'r' :: 'u' :: 'e' :: cs => some (.bool true, cs)
    | 'f' :: 'a' :: 'l' :: 's' :: 'e' :: cs => some (.bool false, cs)
    | '"' :: cs => (string? cs).map fun (t, cs) => (.string t, cs)
    | '[' :: cs =>
      match skipBlank cs with
      | ']' :: cs => some (.array [], cs)
      | cs => (items? n cs).map fun (items, cs) => (.array items, cs)
    | '\x7b' :: cs =>
      match skipBlank cs with
      | '\x7d' :: cs => some (.object [], cs)
      | cs => (members? n cs).map fun (members, cs) => (.object members, cs)
    | cs => (numeral? cs).map fun (m, cs) => (.number m, cs)

/-- One or more items and the closing bracket. -/
def items? : Nat → List Char → Option (List Json × List Char)
  | 0, _ => none
  | n + 1, cs => do
    let (item, cs) ← value? n cs
    match skipBlank cs with
    | ',' :: cs =>
      let (items, cs) ← items? n cs
      some (item :: items, cs)
    | ']' :: cs => some ([item], cs)
    | _ => none

/-- One or more members and the closing brace. -/
def members? : Nat → List Char → Option (List (JsonText × Json) × List Char)
  | 0, _ => none
  | n + 1, cs =>
    match skipBlank cs with
    | '"' :: cs => do
      let (name, cs) ← string? cs
      match skipBlank cs with
      | ':' :: cs =>
        let (item, cs) ← value? n cs
        match skipBlank cs with
        | ',' :: cs =>
          let (members, cs) ← members? n cs
          some ((name, item) :: members, cs)
        | '\x7d' :: cs => some ([(name, item)], cs)
        | _ => none
      | _ => none
    | _ => none

end

end Reader

/-- The value that a text writes, with blanks around it and nothing else. -/
def parse? (text : String) : Option Json := do
  let cs := text.toList
  let (value, cs) ← Reader.value? (cs.length + 1) cs
  if (Reader.skipBlank cs).isEmpty then some value else none

end BlockLang.Json
