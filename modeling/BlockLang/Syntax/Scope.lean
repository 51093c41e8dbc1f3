import BlockLang.Syntax.Basic

/-!
# Expressions of one scope

The parts of an expression that are evaluated in the same scope: bodies of nested methods, blocks,
lambdas, classes and modules are not among them, the body of a `for` is. `Expr.scopeChildren` lists
the direct parts in source order and `Expr.inScope` all of them, each before its own parts.
-/

namespace BlockLang

mutual

/-- Receivers and indices that are evaluated when the target is assigned. -/
def Target.scopeChildren : Target → List (Located Expr)
  | .index receiver args => receiver :: args
  | .attribute receiver _ => [receiver]
  | .nested targets => targets.scopeChildren
  | _ => []

def Targets.scopeChildren : Targets → List (Located Expr)
  | ⟨pre, rest, post⟩ =>
    Target.scopeChildrenEach pre ++ RestTarget.scopeChildren rest ++ Target.scopeChildrenEach post

def RestTarget.scopeChildren : Option RestTarget → List (Located Expr)
  | some (.named ⟨_, target⟩) => target.scopeChildren
  | _ => []

def Target.scopeChildrenEach : List (Located Target) → List (Located Expr)
  | [] => []
  | ⟨_, target⟩ :: rest => target.scopeChildren ++ Target.scopeChildrenEach rest

end

/-- The expression of a block that is passed on. -/
def BlockArg.scopeChildren : Option BlockArg → List (Located Expr)
  | some (.pass value) => [value]
  | _ => []

/-- The direct parts that are evaluated in the same scope, in source order. -/
def Expr.scopeChildren : Expr → List (Located Expr)
  | .array items => items
  | .yield args => args
  | .sequence body => body
  | .hash pairs => pairs.flatMap fun (key, value) => [key, value]
  | .splat inner => [inner]
  | .not inner => [inner]
  | .assign target value => target.value.scopeChildren ++ [value]
  | .multiAssign targets value => targets.scopeChildren ++ value.toList
  | .call receiver _ args block => receiver.toList ++ args ++ BlockArg.scopeChildren block
  | .super args block => args ++ BlockArg.scopeChildren block
  | .bareSuper block => BlockArg.scopeChildren block
  | .ifElse condition thenBranch elseBranch => condition :: thenBranch ++ elseBranch
  | .loop condition body _ _ => condition :: body
  | .forEach target iterable body => target.value.scopeChildren ++ iterable :: body
  | .and left right => [left, right]
  | .or left right => [left, right]
  | .breakWith value => value.toList
  | .nextWith value => value.toList
  | .returnWith value => value.toList
  | .classDef _ superclass _ => superclass.toList
  | _ => []

mutual

/-- The expression and all its parts in the same scope, each before its own parts. -/
def Expr.inScope : Located Expr → List (Located Expr)
  | ⟨span, .array items⟩ => ⟨span, .array items⟩ :: Expr.inScopeEach items
  | ⟨span, .yield args⟩ => ⟨span, .yield args⟩ :: Expr.inScopeEach args
  | ⟨span, .sequence body⟩ => ⟨span, .sequence body⟩ :: Expr.inScopeEach body
  | ⟨span, .hash pairs⟩ => ⟨span, .hash pairs⟩ :: Expr.inScopePairs pairs
  | ⟨span, .splat inner⟩ => ⟨span, .splat inner⟩ :: Expr.inScope inner
  | ⟨span, .not inner⟩ => ⟨span, .not inner⟩ :: Expr.inScope inner
  | ⟨span, .assign target value⟩ =>
    ⟨span, .assign target value⟩ :: (Target.inScope target ++ Expr.inScope value)
  | ⟨span, .multiAssign targets value⟩ =>
    ⟨span, .multiAssign targets value⟩ :: (targets.inScope ++ Expr.inScopeOption value)
  | ⟨span, .call receiver method args block⟩ =>
    ⟨span, .call receiver method args block⟩ ::
      (Expr.inScopeOption receiver ++ Expr.inScopeEach args ++ BlockArg.inScope block)
  | ⟨span, .super args block⟩ =>
    ⟨span, .super args block⟩ :: (Expr.inScopeEach args ++ BlockArg.inScope block)
  | ⟨span, .bareSuper block⟩ => ⟨span, .bareSuper block⟩ :: BlockArg.inScope block
  | ⟨span, .ifElse condition thenBranch elseBranch⟩ =>
    ⟨span, .ifElse condition thenBranch elseBranch⟩ ::
      (Expr.inScope condition ++ Expr.inScopeEach thenBranch ++ Expr.inScopeEach elseBranch)
  | ⟨span, .loop condition body bodyFirst negated⟩ =>
    ⟨span, .loop condition body bodyFirst negated⟩ ::
      (Expr.inScope condition ++ Expr.inScopeEach body)
  | ⟨span, .forEach target iterable body⟩ =>
    ⟨span, .forEach target iterable body⟩ ::
      (Target.inScope target ++ Expr.inScope iterable ++ Expr.inScopeEach body)
  | ⟨span, .and left right⟩ => ⟨span, .and left right⟩ :: (Expr.inScope left ++ Expr.inScope right)
  | ⟨span, .or left right⟩ => ⟨span, .or left right⟩ :: (Expr.inScope left ++ Expr.inScope right)
  | ⟨span, .breakWith value⟩ => ⟨span, .breakWith value⟩ :: Expr.inScopeOption value
  | ⟨span, .nextWith value⟩ => ⟨span, .nextWith value⟩ :: Expr.inScopeOption value
  | ⟨span, .returnWith value⟩ => ⟨span, .returnWith value⟩ :: Expr.inScopeOption value
  | ⟨span, .classDef name superclass body⟩ =>
    ⟨span, .classDef name superclass body⟩ :: Expr.inScopeOption superclass
  | e => [e]

def Expr.inScopeEach : List (Located Expr) → List (Located Expr)
  | [] => []
  | e :: rest => Expr.inScope e ++ Expr.inScopeEach rest

def Expr.inScopePairs : List (Located Expr × Located Expr) → List (Located Expr)
  | [] => []
  | (key, value) :: rest => Expr.inScope key ++ Expr.inScope value ++ Expr.inScopePairs rest

def Expr.inScopeOption : Option (Located Expr) → List (Located Expr)
  | none => []
  | some e => Expr.inScope e

def Target.inScope : Located Target → List (Located Expr)
  | ⟨_, .index receiver args⟩ => Expr.inScope receiver ++ Expr.inScopeEach args
  | ⟨_, .attribute receiver _⟩ => Expr.inScope receiver
  | ⟨_, .nested targets⟩ => targets.inScope
  | _ => []

def Targets.inScope : Targets → List (Located Expr)
  | ⟨pre, rest, post⟩ =>
    Target.inScopeEach pre ++ RestTarget.inScope rest ++ Target.inScopeEach post

def RestTarget.inScope : Option RestTarget → List (Located Expr)
  | some (.named target) => Target.inScope target
  | _ => []

def Target.inScopeEach : List (Located Target) → List (Located Expr)
  | [] => []
  | target :: rest => Target.inScope target ++ Target.inScopeEach rest

def BlockArg.inScope : Option BlockArg → List (Located Expr)
  | some (.pass value) => Expr.inScope value
  | _ => []

end

end BlockLang
