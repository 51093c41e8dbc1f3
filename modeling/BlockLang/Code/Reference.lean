/-!
# References in lowered code

Lowered code refers to bodies, scopes and variables by number. A `return` or `break` names the
place that it leaves by an identity, which is never given out twice.
-/

namespace BlockLang

/-- The place of a body in its unit. -/
abbrev BodyId := Nat

/-- The place of a scope among the scopes of a program. -/
abbrev ScopeId := Nat

/-- The place of a variable among the slots of its scope. -/
abbrev SlotId := Nat

/-- What a `return` leaves. -/
structure ReturnId where
  index : Nat
deriving DecidableEq, Repr, Inhabited

/-- What a `break` leaves. -/
structure BreakId where
  index : Nat
deriving DecidableEq, Repr, Inhabited

def ReturnId.text (r : ReturnId) : String := s!"ret{r.index}"

def BreakId.text (b : BreakId) : String := s!"brk{b.index}"

/-- What a body was written as. -/
inductive BodyKind where
  | topLevel
  | method
  | block
  | lambda
  | classBody
  | moduleBody
deriving DecidableEq, Repr, Inhabited

namespace BodyKind

def all : List BodyKind := [.topLevel, .method, .block, .lambda, .classBody, .moduleBody]

def text : BodyKind → String
  | topLevel => "TopLevel"
  | method => "Method"
  | block => "Block"
  | lambda => "Lambda"
  | classBody => "ClassBody"
  | moduleBody => "ModuleBody"

/-- The kind that is written as `name`. -/
def ofText? (name : String) : Option BodyKind := all.find? fun k => k.text == name

/-- Blocks and lambdas see the variables around them. -/
def isClosure : BodyKind → Bool
  | block | lambda => true
  | _ => false

/-- Methods and lambdas refuse a wrong number of arguments. -/
def isStrict : BodyKind → Bool
  | method | lambda => true
  | _ => false

end BodyKind

/-- Variables proper, and globals such as `$~` that every method has for itself. -/
inductive LocalKind where
  | variable
  | frameGlobal
deriving DecidableEq, Repr, Inhabited

/-- A variable: `level` scopes outward, the one at `slot`. -/
structure Local where
  level : Nat
  slot : SlotId
  kind : LocalKind := .variable
  name : String
deriving DecidableEq, Repr, Inhabited

/-- The variable as listings show it. -/
def Local.text (l : Local) : String :=
  let mark := match l.kind with
    | .variable => ""
    | .frameGlobal => "frame-global "
  s!"{mark}{l.name}@{l.level}:slot{l.slot}"

end BlockLang
