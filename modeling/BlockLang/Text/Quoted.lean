import BlockLang.Text.Unprintable

/-!
# Quoted texts

A text between double quotes. Quotes, backslashes and the common controls have short escapes;
other characters that leave no mark are written by their number in hexadecimal digits.
-/

namespace BlockLang.Text

def hexText (n : Nat) : String := String.ofList (Nat.toDigits 16 n)

/-- The character as it stands between quotes. -/
def quoteChar (c : Char) : String :=
  match c with
  | '"' => "\\\""
  | '\\' => "\\\\"
  | '\n' => "\\n"
  | '\r' => "\\r"
  | '\t' => "\\t"
  | '\x00' => "\\0"
  | c => if isUnprintable c then "\\u\x7b" ++ hexText c.toNat ++ "\x7d" else c.toString

def quoted (s : String) : String :=
  "\"" ++ String.join (s.toList.map quoteChar) ++ "\""

end BlockLang.Text
