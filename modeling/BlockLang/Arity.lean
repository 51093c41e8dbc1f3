import BlockLang.Json.Basic
import BlockLang.Syntax.Names

/-!
# Arity

What a callable accepts: how many positional arguments, which keywords. An arity is read off a
parameter list, decides whether an argument count fits, and is written as `1..2 [k] **`.

Arguments are counted with machine words. The counts of a parameter list always are such words, but
an arity may also be put together from any numbers: `text?` and `optionalMinimum?` have no answer
when a count leaves the range.
-/

namespace BlockLang

/-- The shape of a parameter list. -/
structure Arity where
  /-- Required parameters in front. -/
  pre : Nat := 0
  /-- Parameters with a default. -/
  optional : Nat := 0
  /-- Whether a rest parameter takes any number of arguments. -/
  hasRest : Bool := false
  /-- Required parameters at the end. -/
  post : Nat := 0
  /-- Keywords, each once, in the order of declaration. -/
  keywords : List String := []
  /-- Whether a keyword rest parameter takes any keyword. -/
  hasKeywordRest : Bool := false
deriving DecidableEq, Repr, Inhabited

/-- The arity of a parameter list. -/
def Params.arity (p : Params) : Arity where
  pre := p.pre.length
  optional := p.optional.length
  hasRest := p.rest.isSome
  post := p.post.length
  keywords := addNames [] (p.keywords.map (·.value.name))
  hasKeywordRest := p.keywordRest.isSome

namespace Arity

/-- The number of positional arguments that must be there. -/
def required (a : Arity) : Nat := a.pre + a.post

/-- The largest number of positional arguments; a rest parameter lifts the limit. -/
def maximum? (a : Arity) : Option Nat :=
  if a.hasRest then none else some (a.pre + a.optional + a.post)

/-- Whether keywords are taken from the last argument. -/
def takesKeywords (a : Arity) : Bool := !a.keywords.isEmpty || a.hasKeywordRest

/-- Whether `count` positional arguments fit. -/
def accepts (a : Arity) (count : Nat) : Bool :=
  a.required ≤ count &&
    match a.maximum? with
    | some limit => count ≤ limit
    | none => true

/-- Whether a block of this shape takes a lone array argument as it is. One parameter, or nothing
but a rest parameter, gains nothing from taking the array apart. -/
def keepsArray (a : Arity) : Bool :=
  (a.post == 0 && a.optional == 0 && a.pre ≤ 1 && !a.hasRest && !a.hasKeywordRest) ||
    (a.hasRest && a.pre == 0 && a.optional == 0)

/-- How many arguments have to be there for the optional parameter at `position` to get one. An
argument that carries keywords counts. -/
def optionalMinimum (a : Arity) (position : Nat) : Nat :=
  position + 1 + a.post + (if a.takesKeywords then 1 else 0)

/-- The arity as it is written: `2`, `1..2`, `0+ [k]`, `1 **`. -/
def text (a : Arity) : String :=
  let range := match a.maximum? with
    | some limit => if limit == a.required then "" else s!"..{limit}"
    | none => "+"
  let keywords := if a.keywords.isEmpty then "" else " [" ++ ", ".intercalate a.keywords ++ "]"
  s!"{a.required}" ++ range ++ keywords ++ (if a.hasKeywordRest then " **" else "")

/-- Whether a count is a machine word. -/
def isWord (count : Nat) : Bool := count < UInt64.size

/-- Whether the numbers of arguments that fit are machine words. -/
def isCountable (a : Arity) : Bool := isWord a.required && a.maximum?.all isWord

def text? (a : Arity) : Option String := if a.isCountable then some a.text else none

def optionalMinimum? (a : Arity) (position : Nat) : Option Nat :=
  let minimum := a.optionalMinimum position
  if isWord minimum then some minimum else none

def toJson (a : Arity) : Json :=
  .record [("pre", .nat a.pre), ("optional", .nat a.optional), ("has_rest", .bool a.hasRest),
    ("post", .nat a.post), ("keywords", .array (a.keywords.map .text)),
    ("has_keyword_rest", .bool a.hasKeywordRest)]

end Arity

end BlockLang
