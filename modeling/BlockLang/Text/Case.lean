import BlockLang.Text.Cased
import BlockLang.Text.CaseTable

/-!
# Upper and lower case of a text

Every character is mapped on its own, except that a capital sigma at the end of a word becomes the
final form of the small letter.
-/

namespace BlockLang.Text

def toUpper (s : String) : String :=
  String.ofList (s.toList.flatMap upperChar)

/-- Whether the nearest character that counts for case is a cased one. -/
def nextIsCased (cs : List Char) : Bool :=
  match cs.dropWhile isCaseIgnorable with
  | c :: _ => isCased c
  | [] => false

def capitalSigma : Char := Char.ofNat 0x3A3

def smallSigma : Char := Char.ofNat 0x3C3

def finalSigma : Char := Char.ofNat 0x3C2

/-- Lower case of the characters after `before`, which is reversed. -/
def lowerAfter (before : List Char) : List Char → List Char
  | [] => []
  | c :: cs =>
    let mapped :=
      if c == capitalSigma then
        if nextIsCased before && !nextIsCased cs then [finalSigma] else [smallSigma]
      else
        lowerChar c
    mapped ++ lowerAfter (c :: before) cs

def toLower (s : String) : String :=
  String.ofList (lowerAfter [] s.toList)

end BlockLang.Text
