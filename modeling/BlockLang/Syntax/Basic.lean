/-!
# Syntax trees

The tree that a parser hands over. Every node stands in a `Located`, with the span of the source
that it came from. The types are mutual because bodies of methods and blocks are expressions,
parameters have default expressions, and assignment targets index into expressions.
-/

namespace BlockLang

/-- A stretch of a source file. -/
structure Span where
  start : UInt64 := 0
  stop : UInt64 := 0
  file : UInt64 := 0
deriving DecidableEq, Repr, Inhabited

/-- The least stretch that covers both, in the first one's file. -/
def Span.merge (a b : Span) : Span where
  start := min a.start b.start
  stop := max a.stop b.stop
  file := a.file

/-- A part of the tree with the stretch that it came from. -/
structure Located (α : Type) where
  span : Span := {}
  value : α

/-- The name of a rest parameter; the forms `*` and `**` have none. -/
structure RestParam where
  name : Option String := none
deriving DecidableEq, Repr

mutual

/-- An expression. -/
inductive Expr where
  | nil
  | bool (value : Bool)
  | integer (value : Int64)
  | float (value : Float)
  | text (value : String)
  | symbol (name : String)
  | array (items : List (Located Expr))
  | hash (pairs : List (Located Expr × Located Expr))
  /-- `*inner`, among the items of an array or the arguments of a call. -/
  | splat (inner : Located Expr)
  | self
  /-- A name that the parser knows to be a local variable. -/
  | localVar (name : String)
  /-- A name that is a local variable or a call without arguments. -/
  | bareName (name : String)
  | instanceVar (name : String)
  | classVar (name : String)
  | globalVar (name : String)
  | constant (name : String)
  | assign (target : Located Target) (value : Located Expr)
  | multiAssign (targets : Targets) (value : Option (Located Expr))
  | call (receiver : Option (Located Expr)) (method : String) (args : List (Located Expr))
      (block : Option BlockArg)
  /-- `super(args)`. -/
  | super (args : List (Located Expr)) (block : Option BlockArg)
  /-- `super` without arguments: the method's own parameters are passed on. -/
  | bareSuper (block : Option BlockArg)
  | yield (args : List (Located Expr))
  | define (name : Located String) (params : Params) (body : List (Located Expr))
  | lambda (literal : Located BlockLiteral)
  | classDef (name : String) (superclass : Option (Located Expr)) (body : List (Located Expr))
  | moduleDef (name : String) (body : List (Located Expr))
  | ifElse (condition : Located Expr) (thenBranch elseBranch : List (Located Expr))
  /-- `while`, or `until` when `negated`; `bodyFirst` runs the body before the first test. -/
  | loop (condition : Located Expr) (body : List (Located Expr)) (bodyFirst negated : Bool)
  | forEach (target : Located Target) (iterable : Located Expr) (body : List (Located Expr))
  | and (left right : Located Expr)
  | or (left right : Located Expr)
  | not (inner : Located Expr)
  | breakWith (value : Option (Located Expr))
  | nextWith (value : Option (Located Expr))
  | redo
  | retry
  | returnWith (value : Option (Located Expr))
  | sequence (body : List (Located Expr))

/-- A place that can be assigned. -/
inductive Target where
  | localVar (name : String)
  | instanceVar (name : String)
  | classVar (name : String)
  | globalVar (name : String)
  | index (receiver : Located Expr) (args : List (Located Expr))
  | attribute (receiver : Located Expr) (name : String)
  | nested (targets : Targets)

/-- What a `*` among targets assigns. -/
inductive RestTarget where
  | named (target : Located Target)
  | anonymous

/-- The left side of a multiple assignment: `pre, *rest, post`. -/
structure Targets where
  pre : List (Located Target)
  rest : Option RestTarget
  post : List (Located Target)

/-- The block of a call: written out, or passed on with `&`. -/
inductive BlockArg where
  | literal (block : Located BlockLiteral)
  | pass (value : Located Expr)

/-- Parameters and statements of a block or lambda. -/
structure BlockLiteral where
  params : Params
  body : List (Located Expr)

/-- A required positional parameter. -/
inductive Pattern where
  | required (name : String)
  | destructure (targets : Targets)

/-- A positional parameter with a default. -/
structure OptionalParam where
  name : String
  default : Located Expr

/-- A keyword parameter; without a default it is required. -/
structure KeywordParam where
  name : String
  default : Option (Located Expr)

/-- The parameters of a method, block or lambda:
`pre, optional = default, *rest, post, key:, **keywordRest, &block; blockLocals`. -/
structure Params where
  pre : List (Located Pattern)
  optional : List (Located OptionalParam)
  rest : Option (Located RestParam)
  post : List (Located Pattern)
  keywords : List (Located KeywordParam)
  keywordRest : Option (Located RestParam)
  block : Option (Located String)
  blockLocals : List (Located String)

end

/-- A whole source file. -/
structure Program where
  body : List (Located Expr)
  span : Span := {}

namespace Params

/-- No parameters at all. -/
def empty : Params := ⟨[], [], none, [], [], none, none, []⟩

instance : Inhabited Params := ⟨empty⟩

def isEmpty : Params → Bool
  | ⟨[], [], none, [], [], none, none, []⟩ => true
  | _ => false

def hasKeywords (p : Params) : Bool := !p.keywords.isEmpty

end Params

instance : Inhabited Expr := ⟨.nil⟩

instance : Inhabited Targets := ⟨⟨[], none, []⟩⟩

instance : Inhabited Target := ⟨.nested default⟩

instance {α : Type} [Inhabited α] : Inhabited (Located α) := ⟨{ value := default }⟩

/-- The items of an array literal without splats. -/
def Expr.fixedItems? : Expr → Option (List (Located Expr))
  | .array items =>
    let isSplat (e : Located Expr) := match e.value with
      | .splat _ => true
      | _ => false
    if items.any isSplat then none else some items
  | _ => none

end BlockLang
