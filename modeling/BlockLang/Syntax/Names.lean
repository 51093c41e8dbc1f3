import BlockLang.Syntax.Scope

/-!
# Names that parameters declare

The names that need a slot before any code of a callable is compiled: those its parameters bind,
and those that its default values assign. Lists of names are without repetition, in the order of
first mention.
-/

namespace BlockLang

/-- Adds a name unless it is there already. -/
def addName (names : List String) (name : String) : List String :=
  if names.contains name then names else names ++ [name]

def addNames (names more : List String) : List String :=
  more.foldl addName names

/-- The slot of a rest parameter `*` without a name. -/
def anonymousRest : String := "*"

/-- The slot of a keyword rest parameter `**` without a name. -/
def anonymousKeywordRest : String := "**"

def RestParam.slotName (r : RestParam) : String := r.name.getD anonymousRest

def RestParam.keywordSlotName (r : RestParam) : String := r.name.getD anonymousKeywordRest

mutual

/-- The local variables that an assignment to the target writes, in source order. -/
def Target.names : Located Target → List String
  | ⟨_, .localVar name⟩ => [name]
  | ⟨_, .nested targets⟩ => targets.names
  | _ => []

def Targets.names : Targets → List String
  | ⟨pre, rest, post⟩ => Target.namesEach pre ++ RestTarget.names rest ++ Target.namesEach post

def RestTarget.names : Option RestTarget → List String
  | some (.named target) => Target.names target
  | _ => []

def Target.namesEach : List (Located Target) → List String
  | [] => []
  | target :: rest => Target.names target ++ Target.namesEach rest

end

def Pattern.names : Pattern → List String
  | .required name => [name]
  | .destructure targets => targets.names

/-- The local variables that the node itself assigns. -/
def Expr.assignedNames : Expr → List String
  | .assign target _ => Target.names target
  | .forEach target _ _ => Target.names target
  | .multiAssign targets _ => targets.names
  | _ => []

/-- The local variables that the expression assigns in its own scope. -/
def Expr.declaredNames (e : Located Expr) : List String :=
  (Expr.inScope e).flatMap fun part => part.value.assignedNames

namespace Params

def patternNames (patterns : List (Located Pattern)) : List String :=
  patterns.flatMap fun p => p.value.names

/-- The names that the parameters bind, in binding order. -/
def boundNames (p : Params) : List String :=
  addNames [] <|
    patternNames p.pre ++
    p.optional.map (·.value.name) ++
    p.rest.toList.map (·.value.slotName) ++
    patternNames p.post ++
    p.keywords.map (·.value.name) ++
    p.keywordRest.toList.map (·.value.keywordSlotName) ++
    p.block.toList.map (·.value)

/-- Every name that the parameters declare: those they bind, those that default values assign,
and the block's own locals. -/
def declaredNames (p : Params) : List String :=
  addNames [] <|
    patternNames p.pre ++
    p.optional.flatMap (fun o => o.value.name :: Expr.declaredNames o.value.default) ++
    p.rest.toList.map (·.value.slotName) ++
    patternNames p.post ++
    p.keywords.flatMap (fun k =>
      k.value.name :: k.value.default.toList.flatMap Expr.declaredNames) ++
    p.keywordRest.toList.map (·.value.keywordSlotName) ++
    p.block.toList.map (·.value) ++
    p.blockLocals.map (·.value)

end Params

end BlockLang
